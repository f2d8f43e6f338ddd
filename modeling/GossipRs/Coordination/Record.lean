import GossipRs.Contracts.Pooled
import GossipRs.Lib.BoundedLog

/-! Leases, the shard op-log and shard records. A record is generic in how it holds its
variable-length fields: pooled slots in the coordinator, plain values in its view. -/

namespace GossipRs

open Lib Stdx Outcome

variable {ε : Type}

/-! ## Leases -/

structure LeaseHolder where
  owner : WorkerId
  deadline : LogicalTime
  deadline_pos : 0 < deadline
deriving DecidableEq

def LeaseHolder.new (owner : WorkerId) (deadline : LogicalTime) : Run ε LeaseHolder :=
  if h : 0 < deadline then .ok ⟨owner, deadline, h⟩ else .panic .leaseDeadlineZero

structure Lease where
  tenant : TenantId
  run : RunId
  shard : ShardId
  owner : WorkerId
  fence : FenceEpoch
  deadline : LogicalTime
  fence_pos : FenceEpoch.initial ≤ fence
  deadline_pos : 0 < deadline
deriving DecidableEq

namespace Lease

def new (tenant : TenantId) (run : RunId) (shard : ShardId) (owner : WorkerId)
    (fence : FenceEpoch) (deadline : LogicalTime) : Run ε Lease :=
  if hf : FenceEpoch.initial ≤ fence then
    if hd : 0 < deadline then .ok ⟨tenant, run, shard, owner, fence, deadline, hf, hd⟩
    else .panic .leaseDeadlineZero
  else .panic .leaseFenceUnassigned

def shardKey (lease : Lease) : ShardKey := ⟨lease.run, lease.shard⟩

end Lease

/-! ## Op log -/

inductive OpKind where
  | checkpoint
  | complete
  | park
  | splitReplace
  | splitResidual
  | unpark
deriving DecidableEq, Repr

inductive OpResult where
  | completed
  | error
  | superseded
deriving DecidableEq, Repr

structure OpLogEntry where
  opId : OpId
  kind : OpKind
  result : OpResult
  payloadHash : UInt64
  executedAt : LogicalTime
  executedAt_pos : 0 < executedAt
  payloadHash_ne : payloadHash ≠ 0
deriving DecidableEq

def OpLogEntry.new (opId : OpId) (kind : OpKind) (result : OpResult) (payloadHash : UInt64)
    (executedAt : LogicalTime) : Run ε OpLogEntry :=
  if ht : 0 < executedAt then
    if hh : payloadHash ≠ 0 then .ok ⟨opId, kind, result, payloadHash, executedAt, ht, hh⟩
    else .panic .opLogHashZero
  else .panic .opLogTimeZero

/-! ## Shard records -/

inductive ShardStatus where
  | active
  | done
  | split
  | parked
deriving DecidableEq, Repr

def ShardStatus.isTerminal (status : ShardStatus) : Bool := status != .active

inductive ParkReason where
  | permissionDenied
  | notFound
  | poisoned
  | tooManyErrors
  | other
deriving DecidableEq, Repr

def ParkReason.asU8 : ParkReason → Nat
  | .permissionDenied => 0
  | .notFound => 1
  | .poisoned => 2
  | .tooManyErrors => 3
  | .other => 4

structure ShardRecord (σ κ ρ : Type) where
  tenant : TenantId
  run : RunId
  shard : ShardId
  status : ShardStatus
  parkReason : Option ParkReason
  spec : σ
  cursor : κ
  cursorSemantics : CursorSemantics
  lease : Option LeaseHolder
  fenceEpoch : FenceEpoch
  parent : Option ShardId
  spawned : ρ
  opLog : List OpLogEntry
deriving DecidableEq

/-- A record of the coordinator: variable-length fields live in the slab. -/
abbrev PooledRecord := ShardRecord PooledShardSpec PooledCursor PooledSpawned

abbrev RecordView := ShardRecord ShardSpec CursorValue (List ShardId)

namespace ShardRecord

variable {σ κ ρ : Type}

def opLogCap : Nat := 16

def key (record : ShardRecord σ κ ρ) : ShardKey := ⟨record.run, record.shard⟩

def fresh (tenant : TenantId) (run : RunId) (shard : ShardId) (spec : σ) (cursor : κ)
    (semantics : CursorSemantics) (parent : Option ShardId) (spawned : ρ) :
    ShardRecord σ κ ρ where
  tenant := tenant
  run := run
  shard := shard
  status := .active
  parkReason := none
  spec := spec
  cursor := cursor
  cursorSemantics := semantics
  lease := none
  fenceEpoch := FenceEpoch.initial
  parent := parent
  spawned := spawned
  opLog := []

/-- INV-1 to INV-5. -/
def assertLifecycleInvariants (record : ShardRecord σ κ ρ) : Run ε Unit := do
  Outcome.assert (record.status = .parked ↔ record.parkReason.isSome) (.shardInvariant 1)
  Outcome.assert (record.status.isTerminal → record.lease.isNone) (.shardInvariant 3)
  Outcome.assert (FenceEpoch.initial ≤ record.fenceEpoch) (.shardInvariant 4)
  Outcome.assert (record.opLog.length ≤ opLogCap) (.shardInvariant 5)

/-- INV-6 to INV-10. The spawned list is read in the middle: a read that panics does so after INV-7.
-/
def assertLineageInvariants (record : ShardRecord σ κ ρ) (spawnedLen : Nat)
    (readSpawned : Run ε (List ShardId)) : Run ε Unit := do
  Outcome.assert (record.status = .split → spawnedLen ≠ 0) (.shardInvariant 6)
  Outcome.assert (record.parent.isSome → record.shard.isDerived) (.shardInvariant 7)
  Outcome.assert (record.shard.isDerived → record.parent.isSome) (.shardInvariant 7)
  let spawned ← readSpawned
  Outcome.assert (∀ id ∈ spawned, id.isDerived) (.shardInvariant 8)
  Outcome.assert ((record.opLog.map OpLogEntry.opId).Nodup) (.shardInvariant 9)
  Outcome.assert (spawnedLen ≤ maxSpawnedPerShard) (.shardInvariant 10)

def assertInvariants (record : ShardRecord σ κ ρ) (spawnedLen : Nat)
    (readSpawned : Run ε (List ShardId)) : Run ε Unit := do
  record.assertLifecycleInvariants
  record.assertLineageInvariants spawnedLen readSpawned

def opLogLookup (record : ShardRecord σ κ ρ) (op : OpId) : Option OpLogEntry :=
  lookupLast OpLogEntry.opId op record.opLog

def opLogPush (record : ShardRecord σ κ ρ) (entry : OpLogEntry) : Run ε (ShardRecord σ κ ρ) := do
  Outcome.assert (∀ e ∈ record.opLog, e.opId ≠ entry.opId) .opLogDuplicate
  let opLog := pushOverwrite opLogCap record.opLog entry
  Outcome.assert (opLog.length ≤ opLogCap) .opLogOverflow
  return { record with opLog }

def assertTransitionLegal (record : ShardRecord σ κ ρ) (newStatus : ShardStatus) : Run ε Unit :=
  Outcome.assert (record.status.isTerminal = false ∨ record.status = newStatus) .illegalTransition

def advanceFence (record : ShardRecord σ κ ρ) : Run ε (ShardRecord σ κ ρ) := do
  let fenceEpoch ← FenceEpoch.increment record.fenceEpoch
  return { record with fenceEpoch }

def logOp (record : ShardRecord σ κ ρ) (kind : OpKind) (opId : OpId) (payloadHash : UInt64)
    (now : LogicalTime) : Run ε (ShardRecord σ κ ρ) := do
  let entry ← OpLogEntry.new opId kind .completed payloadHash now
  record.opLogPush entry

def isLeasedAt (record : ShardRecord σ κ ρ) (now : LogicalTime) : Bool :=
  match record.lease with
  | some holder => now < holder.deadline
  | none => false

def assertPooled (debug : Bool) (record : PooledRecord) (slab : ByteSlab) : Run ε Unit :=
  record.assertInvariants record.spawned.len (record.spawned.iter debug slab)

/-- Allocate the fields of a new active record and check it. A cursor that does not fit releases the
spec. -/
def newPooled (debug : Bool) (tenant : TenantId) (run : RunId) (shard : ShardId)
    (spec : ShardSpec) (cursor : CursorUpdate) (semantics : CursorSemantics)
    (parent : Option ShardId) : Prog ByteSlab Panic SlabFull PooledRecord := do
  let pooledSpec ← PooledShardSpec.fromSpecRef debug spec
  let pooledCursor ← (PooledCursor.fromUpdate debug cursor).onErr fun e => do
    pooledSpec.releaseFields debug
    return e
  let record := fresh tenant run shard pooledSpec pooledCursor semantics parent PooledSpawned.new
  let slab ← Prog.get
  Prog.lift (assertPooled debug record slab)
  return record

def newActiveWithCursor (debug : Bool) (tenant : TenantId) (run : RunId) (shard : ShardId)
    (spec : ShardSpec) (initialCursor : CursorUpdate) (semantics : CursorSemantics) :
    Prog ByteSlab Panic SlabFull PooledRecord :=
  newPooled debug tenant run shard spec initialCursor semantics none

def newSplitChild (debug : Bool) (tenant : TenantId) (run : RunId) (shard : ShardId)
    (spec : ShardSpec) (cursor : CursorUpdate) (semantics : CursorSemantics) (parent : ShardId) :
    Prog ByteSlab Panic SlabFull PooledRecord :=
  newPooled debug tenant run shard spec cursor semantics (some parent)

def deallocateFields (debug : Bool) (record : PooledRecord) : Prog ByteSlab Panic ε Unit := do
  record.spec.releaseFields debug
  record.cursor.releaseFields debug
  record.spawned.releaseFields debug

/-! ### What the operations on a record do -/

section Inversion

variable {σ κ ρ : Type} {record record' : ShardRecord σ κ ρ}

def withEntry (record : ShardRecord σ κ ρ) (entry : OpLogEntry) : ShardRecord σ κ ρ :=
  { record with opLog := pushOverwrite opLogCap record.opLog entry }

theorem opLogPush_eq_ok :
    (record.opLogPush entry : Run ε _) = .ok record' ↔ (∀ e ∈ record.opLog, e.opId ≠ entry.opId) ∧
      (pushOverwrite opLogCap record.opLog entry).length ≤ opLogCap ∧
      record' = record.withEntry entry := by
  simp [opLogPush, check_eq_ok, assert_eq_ok, pure_eq,
    Outcome.ok.injEq, withEntry, eq_comm (b := record')]

theorem logOp_eq_ok (h : (record.logOp kind opId payloadHash now : Run ε _) = .ok record') :
    ∃ (ht : 0 < now) (hh : payloadHash ≠ 0), (∀ e ∈ record.opLog, e.opId ≠ opId) ∧
      record' = record.withEntry ⟨opId, kind, .completed, payloadHash, now, ht, hh⟩ := by
  obtain ⟨_, he, hp⟩ := bind_eq_ok.mp h
  unfold OpLogEntry.new at he
  split at he
  next ht =>
    split at he
    next hh =>
      cases he
      obtain ⟨hf, -, rfl⟩ := opLogPush_eq_ok.mp hp
      exact ⟨ht, hh, hf, rfl⟩
    · cases he
  · cases he

theorem noErr_logOp (kind : OpKind) (opId : OpId) (payloadHash now) :
    Outcome.NoErr (record.logOp kind opId payloadHash now : Run ε _) := by
  refine Outcome.NoErr.bind ?_ fun entry => ?_
  · unfold OpLogEntry.new
    split
    · split
      · exact noErr_ok _
      · exact noErr_panic _
    · exact noErr_panic _
  · exact .check fun _ => .check fun _ =>
      noErr_ok _

theorem advanceFence_eq_ok (h : (record.advanceFence : Run ε _) = .ok record') :
    ∃ fence, (FenceEpoch.increment record.fenceEpoch : Run ε _) = .ok fence ∧
      record' = { record with fenceEpoch := fence } := by
  obtain ⟨fence, hf, h⟩ := bind_eq_ok.mp h
  cases h
  exact ⟨fence, hf, rfl⟩

end Inversion

end ShardRecord

end GossipRs
