import GossipRs.Coordination.Tables

/-! The shard operations other than the splits. Acquire, renew and park do not allocate and are
generic in the reader; checkpoint and complete replace the cursor in the slab. -/

namespace GossipRs

open Lib Stdx

variable {ε α σ κ ρ : Type}

/-- The in-memory coordinator: its maps, with stored fields in one slab. The scratch vector of claim
candidates is empty between calls. -/
structure Coordinator where
  tables : Tables PooledRecord
  slab : ByteSlab

abbrev Op (ε α : Type) := Prog Coordinator Panic ε α

namespace Coordinator

def onSlab (f : SlabFull → ε) (m : Prog ByteSlab Panic SlabFull α) : Op ε α :=
  Prog.zoom Coordinator.slab (fun slab s => { s with slab }) f m

/-- Release slab memory inside an operation; releasing cannot fail. -/
def release (m : Prog ByteSlab Panic Empty α) : Op ε α :=
  Prog.zoom Coordinator.slab (fun slab s => { s with slab }) Empty.elim m

/-- Run an operation that only needs the maps and reads; a failed one leaves the coordinator as it
was. -/
def onTables (debug : Bool)
    (f : Reader PooledShardSpec PooledCursor PooledSpawned → Tables PooledRecord →
      Run ε (α × Tables PooledRecord)) : Op ε α := fun s =>
  match f (pooledReader debug s.slab) s.tables with
  | .ok (a, tables) => .ok (a, { s with tables })
  | .err e => .err (e, s)
  | .panic p => .panic p

end Coordinator

inductive AcquireError where
  | shardNotFound (shard : ShardKey)
  | tenantMismatch (expected : TenantId)
  | shardTerminal (shard : ShardKey) (status : ShardStatus)
  | alreadyLeased (currentOwner : WorkerId) (leaseDeadline : LogicalTime)
deriving DecidableEq, Repr

structure AcquireResult where
  lease : Lease
  snapshot : ShardSnapshot
  capacity : CapacityHint
deriving DecidableEq

def grantLease (now : LogicalTime) (duration : UInt64) (tenant : TenantId) (key : ShardKey)
    (worker : WorkerId) (record : ShardRecord σ κ ρ) :
    Run AcquireError (Lease × ShardRecord σ κ ρ) := do
  Outcome.ensure (record.tenant = tenant) (.tenantMismatch tenant)
  Outcome.ensure (record.status = .active) (.shardTerminal key record.status)
  match record.lease with
  | some holder =>
    Outcome.ensure (¬ now < holder.deadline) (.alreadyLeased holder.owner holder.deadline)
  | none => .ok ()
  let record ← record.advanceFence
  let deadline := LogicalTime.saturatingAdd now duration
  let holder ← LeaseHolder.new worker deadline
  let lease ← Lease.new tenant key.run key.shard worker record.fenceEpoch deadline
  return (lease, { record with lease := some holder })

def acquireAndRestoreInto (debug : Bool) (now : LogicalTime) (tenant : TenantId) (key : ShardKey)
    (worker : WorkerId) (rd : Reader σ κ ρ) (t : Tables (ShardRecord σ κ ρ)) :
    Run AcquireError (AcquireResult × Tables (ShardRecord σ κ ρ)) := do
  let record ← Outcome.okOr (t.getShard tenant key) (.shardNotFound key)
  let (lease, record) ← grantLease now t.config.defaultLeaseDuration tenant key worker record
  let t := t.setShard tenant key record
  let snapshot ← rd.snapshot record
  let capacity ← t.countAvailableForRun debug now tenant key.run
  return (⟨lease, snapshot, capacity⟩, t)

structure RenewResult where
  newDeadline : LogicalTime
  capacity : CapacityHint
deriving DecidableEq, Repr

def extendLease (now : LogicalTime) (duration : UInt64) (tenant : TenantId) (lease : Lease)
    (record : ShardRecord σ κ ρ) : Run RenewError (LogicalTime × ShardRecord σ κ ρ) := do
  fromCoordError RenewError.accepts (validateLease now tenant lease record)
  let deadline := LogicalTime.saturatingAdd now duration
  let holder ← LeaseHolder.new lease.owner deadline
  return (deadline, { record with lease := some holder })

def renew (debug : Bool) (now : LogicalTime) (tenant : TenantId) (lease : Lease)
    (rd : Reader σ κ ρ) (t : Tables (ShardRecord σ κ ρ)) :
    Run RenewError (RenewResult × Tables (ShardRecord σ κ ρ)) := do
  let key := lease.shardKey
  let record ← Outcome.okOr (t.getShard tenant key) (.coord (.shardNotFound key))
  let (deadline, record) ← extendLease now t.config.defaultLeaseDuration tenant lease record
  let t := t.setShard tenant key record
  rd.assertInvariants record
  let capacity ← t.countAvailableForRun debug now tenant key.run
  return (⟨deadline, capacity⟩, t)

def markDone (record : ShardRecord σ κ ρ) (opId : OpId) (payloadHash : UInt64)
    (now : LogicalTime) : Run ε (ShardRecord σ κ ρ) := do
  record.assertTransitionLegal .done
  ShardRecord.logOp { record with status := .done, lease := none } .complete opId payloadHash now

def markParked (record : ShardRecord σ κ ρ) (reason : ParkReason) (opId : OpId)
    (payloadHash : UInt64) (now : LogicalTime) : Run ε (ShardRecord σ κ ρ) := do
  record.assertTransitionLegal .parked
  ShardRecord.logOp { record with status := .parked, parkReason := some reason, lease := none }
    .park opId payloadHash now

def parkShard (env : Env) (now : LogicalTime) (tenant : TenantId) (lease : Lease)
    (reason : ParkReason) (opId : OpId) (rd : Reader σ κ ρ) (t : Tables (ShardRecord σ κ ρ)) :
    Run ParkError (IdempotentOutcome Unit × Tables (ShardRecord σ κ ρ)) := do
  let key := lease.shardKey
  let record ← Outcome.okOr (t.getShard tenant key) (.coord (.shardNotFound key))
  let payloadHash ← (Payload.park reason).hash env
  match ← fromCoordError ParkError.accepts (checkOpIdempotency record opId payloadHash) with
  | some _ => return (.replayed (), t)
  | none =>
    fromCoordError ParkError.accepts (validateLease now tenant lease record)
    let record ← markParked record reason opId payloadHash now
    rd.assertInvariants record
    return (.executed (), t.setShard tenant key record)

def Reader.validateCursor (rd : Reader σ κ ρ) (record : ShardRecord σ κ ρ)
    (newCursor : CursorUpdate) : Run CoordError Unit := do
  let lastKey ← (rd.lastKey record.cursor).widen
  let start ← (rd.rangeStart record.spec).widen
  let stop ← (rd.rangeEnd record.spec).widen
  validateCursorUpdatePooled newCursor lastKey start stop

/-- The checks before the cursor is replaced: the payload hash with the record, or nothing for a
replay. -/
def cursorOpPrelude (env : Env) (payload : Payload) (now : LogicalTime) (tenant : TenantId)
    (lease : Lease) (newCursor : CursorUpdate) (opId : OpId) (rd : Reader σ κ ρ)
    (t : Tables (ShardRecord σ κ ρ)) :
    Run CheckpointError (Option (UInt64 × ShardRecord σ κ ρ)) := do
  let key := lease.shardKey
  let record ← Outcome.okOr (t.getShard tenant key) (.coord (.shardNotFound key))
  let payloadHash ← payload.hash env
  match ← fromCoordError CheckpointError.accepts (checkOpIdempotency record opId payloadHash) with
  | some _ => return none
  | none =>
    fromCoordError CheckpointError.accepts (validateLease now tenant lease record)
    fromCoordError CheckpointError.accepts (rd.validateCursor record newCursor)
    return some (payloadHash, record)

/-- Checkpoint and complete differ in payload and in what they make of the record once the cursor is
stored. -/
def cursorOp (env : Env) (payload : Payload)
    (finish : PooledRecord → UInt64 → Run CheckpointError PooledRecord) (now : LogicalTime)
    (tenant : TenantId) (lease : Lease) (newCursor : CursorUpdate) (opId : OpId) :
    Op CheckpointError (IdempotentOutcome Unit) := do
  let s ← Prog.get
  match ← Prog.lift (cursorOpPrelude env payload now tenant lease newCursor opId
      (pooledReader env.debug s.slab) s.tables) with
  | none => return .replayed ()
  | some (payloadHash, record) =>
    let cursor ← Coordinator.onSlab .resourceExhausted
      (record.cursor.updateFromRef env.debug newCursor)
    let record ← Prog.lift (finish { record with cursor } payloadHash)
    let s ← Prog.get
    Prog.lift ((pooledReader env.debug s.slab).assertInvariants record)
    Prog.set { s with tables := s.tables.setShard tenant lease.shardKey record }
    return .executed ()

def checkpoint (env : Env) (now : LogicalTime) (tenant : TenantId) (lease : Lease)
    (newCursor : CursorUpdate) (opId : OpId) : Op CheckpointError (IdempotentOutcome Unit) :=
  cursorOp env (.checkpoint newCursor)
    (fun record payloadHash => record.logOp .checkpoint opId payloadHash now)
    now tenant lease newCursor opId

def complete (env : Env) (now : LogicalTime) (tenant : TenantId) (lease : Lease)
    (finalCursor : CursorUpdate) (opId : OpId) : Op CompleteError (IdempotentOutcome Unit) :=
  cursorOp env (.complete finalCursor)
    (fun record payloadHash => markDone record opId payloadHash now)
    now tenant lease finalCursor opId

end GossipRs
