import GossipRs.Coordination.ShardOps

/-! The two split operations. The parent is out of the map while its split is built and put back on
every path; a failure part-way removes the children already inserted. -/

namespace GossipRs

open Lib Stdx

variable {ε α σ κ ρ : Type}

/-- Insert or replace a shard. A replaced record gives its slab memory back. -/
def shardInsert (env : Env) (tenant : TenantId) (key : ShardKey) (record : PooledRecord) :
    Op ε Unit := do
  let s ← Prog.get
  Prog.set { s with tables := s.tables.putShard tenant key record }
  match s.tables.getShard tenant key with
  | some old => Coordinator.release (ShardRecord.deallocateFields env.debug old)
  | none => pure ()
  let s ← Prog.get
  Prog.lift s.tables.assertShardCount

/-- Take the parent out, run `body` on it and put it back, changed only by a successful body; in the
source a failed one never gets as far as a mutation. -/
def withRemovedParent (env : Env) (tenant : TenantId) (key : ShardKey) (notFound : ε)
    (body : PooledRecord → Op ε (α × PooledRecord)) : Op ε α := do
  let s ← Prog.get
  let (removed, tables) ← Prog.lift (s.tables.shardRemove tenant key)
  Prog.set { s with tables }
  match removed with
  | none => Prog.throw notFound
  | some parent =>
    let putBack (parent : PooledRecord) : Op ε Unit := do
      shardInsert env tenant key parent
      let s ← Prog.get
      Prog.lift (s.tables.debugAssertRunShardsConsistent env.debug tenant parent.run)
    let (result, parent) ← (body parent).onErr fun e => do
      putBack parent
      return e
    putBack parent
    return result

structure SplitReplaceResult where
  children : List ShardId
deriving DecidableEq, Repr

/-- The ids `op` derives for `n` children that follow `base` spawned ones. -/
def childIds (env : Env) (run : RunId) (parent : ShardId) (op : OpId) (base n : Nat) :
    List ShardId :=
  (List.range n).map fun i => deriveSplitShardId env run parent op .child (base + i)

def splitReplaceReplayChildIds (env : Env) (parent : ShardRecord σ κ ρ) (spawnedLen : Nat)
    (plan : SplitReplacePlan) (opId : OpId) : Run ε (List ShardId) := do
  let n := (splitChildOrder plan).length
  Outcome.assert (n ≤ spawnedLen) .splitReplayTooFewSpawned
  return childIds env parent.run parent.shard opId (spawnedLen - n) n

def splitReplaceRollbackInsertedChildren (env : Env) (tenant : TenantId) (run : RunId) :
    List ShardId → Op ε Unit
  | [] => return
  | id :: rest => do
    let s ← Prog.get
    let (removed, tables) ← Prog.lift (s.tables.shardRemove tenant ⟨run, id⟩)
    Prog.set { s with tables }
    match removed with
    | some record => Coordinator.release (ShardRecord.deallocateFields env.debug record)
    | none => pure ()
    splitReplaceRollbackInsertedChildren env tenant run rest

/-- Build and insert the children in range order. `done` holds the ids inserted so far,
newest first. -/
def splitReplaceInsertChildren (env : Env) (parent : PooledRecord) (tenant : TenantId)
    (opId : OpId) : List SplitReplaceChild → List ShardId → Op SplitError (List ShardId)
  | [], done => return done.reverse
  | child :: rest, done => do
    let childId := deriveSplitShardId env parent.run parent.shard opId .child
      (parent.spawned.len + done.length)
    let childKey : ShardKey := ⟨parent.run, childId⟩
    let s ← Prog.get
    if s.tables.shardContains tenant childKey then
      splitReplaceRollbackInsertedChildren env tenant parent.run done
      Prog.throw (.coord (.splitInvalid (.derivedIdCollision childId)))
    else
      let record ← (Coordinator.onSlab .resourceExhausted
        (ShardRecord.newSplitChild env.debug tenant parent.run childId child.spec child.cursor
          parent.cursorSemantics parent.shard)).onErr fun e => do
            splitReplaceRollbackInsertedChildren env tenant parent.run done
            return e
      shardInsert env tenant childKey record
      splitReplaceInsertChildren env parent tenant opId rest (childId :: done)

/-- The outcome of the read-only phase: a replay, or the payload hash and sorted children. -/
def splitReplacePrelude (env : Env) (now : LogicalTime) (tenant : TenantId) (lease : Lease)
    (plan : SplitReplacePlan) (opId : OpId) (rd : Reader σ κ ρ) (parent : ShardRecord σ κ ρ) :
    Run SplitError (List ShardId ⊕ (UInt64 × List SplitReplaceChild)) := do
  let payloadHash ← (Payload.splitReplace plan).hash env
  match ← fromCoordError SplitError.accepts (checkOpIdempotency parent opId payloadHash) with
  | some _ =>
    let ids ← splitReplaceReplayChildIds env parent (rd.spawnedLen parent.spawned) plan opId
    return .inl ids
  | none =>
    fromCoordError SplitError.accepts (validateLease now tenant lease parent)
    let sorted ← fromCoordError SplitError.accepts (splitReplaceValidatePreconditions env
      (rd.range parent.spec) (rd.spawnedLen parent.spawned) plan)
    return .inr (payloadHash, sorted)

/-- The mutating phase: limits, children, parent, index. If the parent cannot be updated the
children go. -/
def splitReplaceExecute (env : Env) (now : LogicalTime) (tenant : TenantId) (parent : PooledRecord)
    (payloadHash : UInt64) (sorted : List SplitReplaceChild) (opId : OpId) :
    Op SplitError (IdempotentOutcome SplitReplaceResult × PooledRecord) := do
  let s ← Prog.get
  Prog.lift ((s.tables.checkShardLimits tenant sorted.length 1).mapErr
    fun e => .coord (.splitInvalid e))
  let ids ← splitReplaceInsertChildren env parent tenant opId sorted []
  Prog.lift (Outcome.assert (ids.length = sorted.length) .splitChildCountMismatch)
  let parent ← (Coordinator.onSlab .resourceExhausted
    (splitReplaceApplyParent env parent ids opId payloadHash now)).onErr fun e => do
      splitReplaceRollbackInsertedChildren env tenant parent.run ids.reverse
      return e
  Prog.modify fun s => { s with tables := s.tables.indexShards tenant parent.run ids }
  return (.executed ⟨ids⟩, parent)

def splitReplace (env : Env) (now : LogicalTime) (tenant : TenantId) (lease : Lease)
    (plan : SplitReplacePlan) (opId : OpId) :
    Op SplitError (IdempotentOutcome SplitReplaceResult) :=
  withRemovedParent env tenant lease.shardKey (.coord (.shardNotFound lease.shardKey))
    fun parent => do
      let s ← Prog.get
      match ← Prog.lift (splitReplacePrelude env now tenant lease plan opId
          (pooledReader env.debug s.slab) parent) with
      | .inl ids => return (.replayed ⟨ids⟩, parent)
      | .inr (payloadHash, sorted) =>
        splitReplaceExecute env now tenant parent payloadHash sorted opId

structure SplitResidualResult where
  residual : ShardId
deriving DecidableEq, Repr

/-- The read-only phase: the residual of a replay, or the payload hash. -/
def splitResidualPrelude (env : Env) (now : LogicalTime) (tenant : TenantId) (lease : Lease)
    (plan : SplitResidualPlan) (opId : OpId) (rd : Reader σ κ ρ) (parent : ShardRecord σ κ ρ) :
    Run SplitError (ShardId ⊕ UInt64) := do
  let payloadHash ← (Payload.splitResidual plan).hash env
  match ← fromCoordError SplitError.accepts (splitResidualCheckReplay env parent
      (rd.spawnedLen parent.spawned) (rd.spawned parent.spawned).widen opId payloadHash) with
  | some residual => return .inl residual
  | none =>
    fromCoordError SplitError.accepts (splitResidualValidatePreconditions env now tenant lease
      parent (rd.range parent.spec) (rd.lastKey parent.cursor).widen
      (rd.spawnedLen parent.spawned) plan)
    return .inr payloadHash

/-- The mutating phase. The residual is built before its id is looked up in the map. -/
def splitResidualExecute (env : Env) (now : LogicalTime) (tenant : TenantId)
    (parent : PooledRecord) (payloadHash : UInt64) (plan : SplitResidualPlan) (opId : OpId) :
    Op SplitError (IdempotentOutcome SplitResidualResult × PooledRecord) := do
  let s ← Prog.get
  Prog.lift ((s.tables.checkShardLimits tenant 1 1).mapErr fun e => .coord (.splitInvalid e))
  -- the index of the new id is the number of shards spawned before it
  let residualId := deriveSplitShardId env parent.run parent.shard opId .residual
    parent.spawned.len
  let residualKey : ShardKey := ⟨parent.run, residualId⟩
  let residual ← Coordinator.onSlab .resourceExhausted
    (splitResidualBuildRecord env parent tenant residualId plan)
  if s.tables.shardContains tenant residualKey then
    Coordinator.release (ShardRecord.deallocateFields env.debug residual)
    Prog.throw (.coord (.splitInvalid (.derivedIdCollision residualId)))
  else
    let parent ← (Coordinator.onSlab .resourceExhausted
      (splitResidualApplyParent env parent residualId plan.parentNewSpec opId payloadHash
        now)).onErr fun e => do
          Coordinator.release (ShardRecord.deallocateFields env.debug residual)
          return e
    shardInsert env tenant residualKey residual
    Prog.modify fun s => { s with tables := s.tables.indexShard tenant parent.run residualId }
    return (.executed ⟨residualId⟩, parent)

def splitResidual (env : Env) (now : LogicalTime) (tenant : TenantId) (lease : Lease)
    (plan : SplitResidualPlan) (opId : OpId) :
    Op SplitError (IdempotentOutcome SplitResidualResult) :=
  withRemovedParent env tenant lease.shardKey (.coord (.shardNotFound lease.shardKey))
    fun parent => do
      let s ← Prog.get
      match ← Prog.lift (splitResidualPrelude env now tenant lease plan opId
          (pooledReader env.debug s.slab) parent) with
      | .inl residual => return (.replayed ⟨residual⟩, parent)
      | .inr payloadHash => splitResidualExecute env now tenant parent payloadHash plan opId

end GossipRs
