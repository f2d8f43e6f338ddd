import GossipRs.Coordination.Step
import GossipRs.Coordination.TablesSpec

/-! The coordinator without a slab: records hold their fields as values, nothing is allocated or
rolled back. Operations that do not allocate are the coordinator's own, read through `viewReader`;
the others are restated. A failed one leaves the tables as they were. -/

namespace GossipRs

open Lib Stdx Outcome

variable {ε α : Type}

abbrev View := Tables RecordView

namespace View

def cursorOp (env : Env) (payload : Payload)
    (finish : RecordView → UInt64 → Run CheckpointError RecordView) (now : LogicalTime)
    (tenant : TenantId) (lease : Lease) (newCursor : CursorUpdate) (opId : OpId) (t : View) :
    Run CheckpointError (IdempotentOutcome Unit × View) := do
  match ← cursorOpPrelude env payload now tenant lease newCursor opId viewReader t with
  | none => return (.replayed (), t)
  | some (payloadHash, record) =>
    let record ← finish { record with cursor := newCursor.value } payloadHash
    viewReader.assertInvariants record
    return (.executed (), t.setShard tenant lease.shardKey record)

def checkpoint (env : Env) (now : LogicalTime) (tenant : TenantId) (lease : Lease)
    (newCursor : CursorUpdate) (opId : OpId) (t : View) :
    Run CheckpointError (IdempotentOutcome Unit × View) :=
  cursorOp env (.checkpoint newCursor)
    (fun record payloadHash => record.logOp .checkpoint opId payloadHash now)
    now tenant lease newCursor opId t

def complete (env : Env) (now : LogicalTime) (tenant : TenantId) (lease : Lease)
    (finalCursor : CursorUpdate) (opId : OpId) (t : View) :
    Run CompleteError (IdempotentOutcome Unit × View) :=
  cursorOp env (.complete finalCursor)
    (fun record payloadHash => markDone record opId payloadHash now)
    now tenant lease finalCursor opId t

def newRecord (tenant : TenantId) (run : RunId) (shard : ShardId) (spec : ShardSpec)
    (cursor : CursorUpdate) (semantics : CursorSemantics) (parent : Option ShardId) :
    Run ε RecordView := do
  let record := ShardRecord.fresh tenant run shard spec cursor.value semantics parent []
  viewReader.assertInvariants record
  return record

theorem newRecord_eq_ok
    (h : (newRecord tenant run shard spec cursor semantics parent : Run ε _) = .ok record) :
    record = ShardRecord.fresh tenant run shard spec cursor.value semantics parent [] ∧
      (viewReader.assertInvariants record : Run ε Unit) = .ok () := by
  obtain ⟨hinv, h⟩ := check_eq_ok.mp h
  cases h
  exact ⟨rfl, hinv⟩

/-- Insert the children in range order; `done` holds the ids so far, newest first. -/
def insertChildren (env : Env) (parent : RecordView) (tenant : TenantId) (opId : OpId) :
    List SplitReplaceChild → List ShardId → View → Run SplitError (List ShardId × View)
  | [], done, t => return (done.reverse, t)
  | child :: rest, done, t => do
    let childId := deriveSplitShardId env parent.run parent.shard opId .child
      (parent.spawned.length + done.length)
    Outcome.ensure (t.shardContains tenant ⟨parent.run, childId⟩ = false)
      (.coord (.splitInvalid (.derivedIdCollision childId)))
    let record ← newRecord tenant parent.run childId child.spec child.cursor
      parent.cursorSemantics (some parent.shard)
    insertChildren env parent tenant opId rest (childId :: done)
      (t.putShard tenant ⟨parent.run, childId⟩ record)

def splitReplaceApplyParent (parent : RecordView) (childIds : List ShardId) (opId : OpId)
    (payloadHash : UInt64) (now : LogicalTime) : Run ε RecordView := do
  parent.assertTransitionLegal .split
  let parent ← ShardRecord.logOp
    { parent with spawned := parent.spawned ++ childIds, status := .split, lease := none }
    .splitReplace opId payloadHash now
  viewReader.assertInvariants parent
  return parent

theorem splitReplaceApplyParent_eq_ok {childIds}
    (h : (splitReplaceApplyParent parent childIds opId payloadHash now : Run ε _) = .ok parent') :
    ∃ (ht : 0 < now) (hh : payloadHash ≠ 0), (∀ e ∈ parent.opLog, e.opId ≠ opId) ∧
      parent' = ShardRecord.withEntry
        { parent with spawned := parent.spawned ++ childIds, status := .split, lease := none }
        ⟨opId, .splitReplace, .completed, payloadHash, now, ht, hh⟩ ∧
      (viewReader.assertInvariants parent' : Run ε Unit) = .ok () := by
  obtain ⟨-, h⟩ := check_eq_ok.mp h
  obtain ⟨_, hl, h⟩ := bind_eq_ok.mp h
  obtain ⟨hinv, h⟩ := check_eq_ok.mp h
  cases h
  obtain ⟨ht, hh, hf, rfl⟩ := ShardRecord.logOp_eq_ok hl
  exact ⟨ht, hh, hf, rfl, hinv⟩

/-- The parent is out of the map while its children are inserted, and goes back last. -/
def executeSplitReplace (env : Env) (now : LogicalTime) (tenant : TenantId) (key : ShardKey)
    (parent : RecordView) (payloadHash : UInt64) (sorted : List SplitReplaceChild) (opId : OpId)
    (t : View) : Run SplitError (IdempotentOutcome SplitReplaceResult × View) := do
  let t := t.dropShard tenant key
  (t.checkShardLimits tenant sorted.length 1).mapErr fun e => .coord (.splitInvalid e)
  let (ids, t) ← insertChildren env parent tenant opId sorted [] t
  let parent ← splitReplaceApplyParent parent ids opId payloadHash now
  return (.executed ⟨ids⟩, (t.indexShards tenant parent.run ids).putShard tenant key parent)

def splitReplace (env : Env) (now : LogicalTime) (tenant : TenantId) (lease : Lease)
    (plan : SplitReplacePlan) (opId : OpId) (t : View) :
    Run SplitError (IdempotentOutcome SplitReplaceResult × View) := do
  let key := lease.shardKey
  let parent ← Outcome.okOr (t.getShard tenant key) (.coord (.shardNotFound key))
  match ← splitReplacePrelude env now tenant lease plan opId viewReader parent with
  | .inl ids => return (.replayed ⟨ids⟩, t)
  | .inr (payloadHash, sorted) =>
    executeSplitReplace env now tenant key parent payloadHash sorted opId t

def splitResidualApplyParent (parent : RecordView) (residualId : ShardId)
    (newParentSpec : ShardSpec) (opId : OpId) (payloadHash : UInt64) (now : LogicalTime) :
    Run ε RecordView := do
  let parent ← ShardRecord.logOp
    { parent with spec := newParentSpec, spawned := parent.spawned ++ [residualId] }
    .splitResidual opId payloadHash now
  viewReader.assertInvariants parent
  return parent

theorem splitResidualApplyParent_eq_ok
    (h : (splitResidualApplyParent parent residualId newParentSpec opId payloadHash now :
      Run ε _) = .ok parent') :
    ∃ (ht : 0 < now) (hh : payloadHash ≠ 0), (∀ e ∈ parent.opLog, e.opId ≠ opId) ∧
      parent' = ShardRecord.withEntry
        { parent with spec := newParentSpec, spawned := parent.spawned ++ [residualId] }
        ⟨opId, .splitResidual, .completed, payloadHash, now, ht, hh⟩ ∧
      (viewReader.assertInvariants parent' : Run ε Unit) = .ok () := by
  obtain ⟨_, hl, h⟩ := bind_eq_ok.mp h
  obtain ⟨hinv, h⟩ := check_eq_ok.mp h
  cases h
  obtain ⟨ht, hh, hf, rfl⟩ := ShardRecord.logOp_eq_ok hl
  exact ⟨ht, hh, hf, rfl, hinv⟩

/-- The residual id is checked against the map without the parent. -/
def executeSplitResidual (env : Env) (now : LogicalTime) (tenant : TenantId) (key : ShardKey)
    (parent : RecordView) (payloadHash : UInt64) (plan : SplitResidualPlan) (opId : OpId)
    (t : View) : Run SplitError (IdempotentOutcome SplitResidualResult × View) := do
  let t := t.dropShard tenant key
  (t.checkShardLimits tenant 1 1).mapErr fun e => .coord (.splitInvalid e)
  let residualId := deriveSplitShardId env parent.run parent.shard opId .residual
    parent.spawned.length
  let residualKey : ShardKey := ⟨parent.run, residualId⟩
  let residual ← newRecord tenant parent.run residualId plan.residualSpec CursorUpdate.initial
    parent.cursorSemantics (some parent.shard)
  Outcome.ensure (t.shardContains tenant residualKey = false)
    (.coord (.splitInvalid (.derivedIdCollision residualId)))
  let parent ← splitResidualApplyParent parent residualId plan.parentNewSpec opId payloadHash now
  let t := (t.putShard tenant residualKey residual).indexShard tenant parent.run residualId
  return (.executed ⟨residualId⟩, t.putShard tenant key parent)

def splitResidual (env : Env) (now : LogicalTime) (tenant : TenantId) (lease : Lease)
    (plan : SplitResidualPlan) (opId : OpId) (t : View) :
    Run SplitError (IdempotentOutcome SplitResidualResult × View) := do
  let key := lease.shardKey
  let parent ← Outcome.okOr (t.getShard tenant key) (.coord (.shardNotFound key))
  match ← splitResidualPrelude env now tenant lease plan opId viewReader parent with
  | .inl residual => return (.replayed ⟨residual⟩, t)
  | .inr payloadHash => executeSplitResidual env now tenant key parent payloadHash plan opId t

def stageShards (tenant : TenantId) (run : RunId) (semantics : CursorSemantics) (t : View) :
    List InitialShardInput → Run ε (List (ShardKey × RecordView))
  | [] => return []
  | input :: rest => do
    Outcome.assert (t.shardContains tenant ⟨run, input.shard⟩ = false) .registerKeyCollision
    let record ← newRecord tenant run input.shard input.spec input.cursor semantics none
    let staged ← stageShards tenant run semantics t rest
    return (⟨run, input.shard⟩, record) :: staged

def registerShards (env : Env) (now : LogicalTime) (tenant : TenantId) (run : RunId)
    (shards : List InitialShardInput) (opId : OpId) (t : View) :
    Run RegisterShardsError (IdempotentOutcome (List ShardId) × View) := do
  match ← registerShardsPrelude env tenant run shards opId t with
  | .inl ids => return (.replayed ids, t)
  | .inr (payloadHash, record) =>
    let ids := shards.map InitialShardInput.shard
    let staged ← stageShards tenant run record.config.cursorSemantics t shards
    let record ← activateRun record ids opId payloadHash now
    let t := (t.putShards tenant staged).indexShards tenant run ids
    return (.executed ids, { t with runs := t.runs.insert (tenant, run) record })

end View

end GossipRs
