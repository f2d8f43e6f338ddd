import GossipRs.Coordination.Validation

/-! Split execution shared by the backends: derived ids, preconditions, replay detection for
residual splits, and the change of the parent. Functions that only read a record take its stored
fields as reads, so that pooled record and view share them. -/

namespace GossipRs

open Lib Stdx

variable {ε σ κ ρ : Type}

inductive DerivedShardKind where
  | child
  | residual
deriving DecidableEq, Repr

def DerivedShardKind.asU8 : DerivedShardKind → Nat
  | .child => 0
  | .residual => 1

structure Derivation where
  run : RunId
  parent : ShardId
  op : OpId
  kind : DerivedShardKind
  index : Nat
deriving DecidableEq

def Derivation.canonical (d : Derivation) : Bytes :=
  canonicalU64 d.run.raw ++ canonicalU64 d.parent.raw ++ canonicalU64 d.op.raw ++
    canonicalU8 d.kind.asU8 ++ canonicalU32 d.index

/-- The digest with bit 63 forced. The two assertions that follow in the source, a derived id that
is not zero, hold of every digest by `isDerived_deriveSplitShardId`. -/
def deriveSplitShardId (env : Env) (run : RunId) (parent : ShardId) (op : OpId)
    (kind : DerivedShardKind) (index : Nat) : ShardId :=
  ⟨env.splitIdDigest (Derivation.canonical ⟨run, parent, op, kind, index⟩) |||
    ((1 : UInt64) <<< 63)⟩

theorem or_bit63_shiftRight (x) : (x ||| ((1 : UInt64) <<< 63)) >>> 63 = 1 := by
  apply UInt64.toNat_inj.mp
  have hl := x.toNat_lt
  rw [UInt64.toNat_shiftRight, UInt64.toNat_or]
  have h63 : ((1 : UInt64) <<< 63).toNat = 2 ^ 63 := rfl
  have hs : (63 : UInt64).toNat % 64 = 63 := rfl
  rw [h63, hs, Nat.shiftRight_or_distrib]
  have hx : x.toNat >>> 63 = 0 ∨ x.toNat >>> 63 = 1 := by
    rw [Nat.shiftRight_eq_div_pow]
    omega
  have ho : (2 ^ 63) >>> 63 = 1 := rfl
  rw [ho]
  rcases hx with h | h <;> rw [h] <;> rfl

theorem isDerived_deriveSplitShardId (env) (run) (parent) (op)
    (kind) (index) :
    (deriveSplitShardId env run parent op kind index).isDerived = true := by
  unfold deriveSplitShardId ShardId.isDerived
  rw [or_bit63_shiftRight]
  rfl

/-- Plan children in range order; the source keeps a permutation of indices. -/
def splitChildOrder (plan : SplitReplacePlan) : List SplitReplaceChild :=
  plan.children.insertionSort fun a b => a.spec.keyRangeStart ≤ b.spec.keyRangeStart

def canSpawn (spawnedLen additional : Nat) : Prop := spawnedLen + additional ≤ maxSpawnedPerShard

instance (spawnedLen additional : Nat) : Decidable (canSpawn spawnedLen additional) :=
  inferInstanceAs (Decidable (_ ≤ _))

/-- The children cover the parent's range and fit the lifetime spawn cap. -/
def splitReplaceValidatePreconditions (env : Env) (readRange : Run CoordError (Bytes × Bytes))
    (spawnedLen : Nat) (plan : SplitReplacePlan) : Run CoordError (List SplitReplaceChild) := do
  let sorted := splitChildOrder plan
  let (start, stop) ← readRange
  (validateSplitCoverageBounds env.debug start stop
    (plan.children.map SplitReplaceChild.spec)).mapErr .splitInvalid
  Outcome.ensure (canSpawn spawnedLen sorted.length)
    (.splitInvalid (.spawnLimitExceeded spawnedLen sorted.length maxSpawnedPerShard))
  return sorted

def splitReplaceApplyParent (env : Env) (parent : PooledRecord) (childIds : List ShardId)
    (opId : OpId) (payloadHash : UInt64) (now : LogicalTime) :
    Prog ByteSlab Panic SlabFull PooledRecord := do
  Prog.lift (Outcome.assert (childIds ≠ []) .splitChildrenEmpty)
  Prog.lift (debugAssert env.debug (canSpawn parent.spawned.len childIds.length) .spawnedCap)
  let staged ← parent.spawned.allocateAppendedSlot env.debug childIds
  Prog.lift (parent.assertTransitionLegal .split)
  let spawned ← parent.spawned.installSlot env.debug staged
  let parent ← Prog.lift (ShardRecord.logOp
    { parent with spawned, status := .split, lease := none } .splitReplace opId payloadHash now)
  let slab ← Prog.get
  Prog.lift (ShardRecord.assertPooled env.debug parent slab)
  return parent

/-- The first spawned id that is the residual `op` derives at its own position. -/
def scanResidual (env : Env) (run : RunId) (parent : ShardId) (op : OpId) :
    List ShardId → Nat → Option ShardId
  | [], _ => none
  | id :: rest, index =>
    let derived := deriveSplitShardId env run parent op .residual index
    if id = derived then some derived else scanResidual env run parent op rest (index + 1)

def findReplayedResidual (env : Env) (parent : ShardRecord σ κ ρ) (spawnedLen : Nat)
    (readSpawned : Run ε (List ShardId)) (opId : OpId) : Run ε (Option ShardId) := do
  Outcome.assert (spawnedLen ≤ maxSpawnedPerShard) .spawnedCap
  let spawned ← readSpawned
  return scanResidual env parent.run parent.shard opId spawned 0

/-- The residual of an earlier execution: by the op-log, and after eviction by the spawned list. -/
def splitResidualCheckReplay (env : Env) (parent : ShardRecord σ κ ρ) (spawnedLen : Nat)
    (readSpawned : Run CoordError (List ShardId)) (opId : OpId) (payloadHash : UInt64) :
    Run CoordError (Option ShardId) := do
  match ← checkOpIdempotency parent opId payloadHash with
  | some _ =>
    let found ← findReplayedResidual env parent spawnedLen readSpawned opId
    let residual ← Outcome.expect found .residualReplayMissing
    return some residual
  | none => findReplayedResidual env parent spawnedLen readSpawned opId

def splitResidualValidateCursorBounds (lastKey : Option Bytes) (newParentSpec : ShardSpec) :
    Run CoordError Unit :=
  match lastKey with
  | some key => Outcome.ensure (newParentSpec.containsKey key)
      (.splitInvalid (.parentCursorOutOfBounds key.length newParentSpec.keyRangeStart.length
        newParentSpec.keyRangeEnd.length))
  | none => return

def splitResidualValidatePreconditions (env : Env) (now : LogicalTime) (tenant : TenantId)
    (lease : Lease) (parent : ShardRecord σ κ ρ) (readRange : Run CoordError (Bytes × Bytes))
    (readLastKey : Run CoordError (Option Bytes)) (spawnedLen : Nat) (plan : SplitResidualPlan) :
    Run CoordError Unit := do
  validateLease now tenant lease parent
  plan.parentNewSpec.validateRef.mapErr fun _ => .splitInvalid (.invalidChildSpec 0)
  plan.residualSpec.validateRef.mapErr fun _ => .splitInvalid (.invalidChildSpec 1)
  let (start, stop) ← readRange
  (validateResidualSplitBounds env.debug start stop plan.parentNewSpec
    plan.residualSpec).mapErr .splitInvalid
  let lastKey ← readLastKey
  splitResidualValidateCursorBounds lastKey plan.parentNewSpec
  Outcome.ensure (canSpawn spawnedLen 1)
    (.splitInvalid (.spawnLimitExceeded spawnedLen 1 maxSpawnedPerShard))

def splitResidualBuildRecord (env : Env) (parent : PooledRecord) (tenant : TenantId)
    (residualId : ShardId) (plan : SplitResidualPlan) :
    Prog ByteSlab Panic SlabFull PooledRecord :=
  ShardRecord.newSplitChild env.debug tenant parent.run residualId plan.residualSpec
    CursorUpdate.initial parent.cursorSemantics parent.shard

/-- Append the residual id and shrink the parent's range; a spec that does not fit releases the
staged list. -/
def splitResidualApplyParent (env : Env) (parent : PooledRecord) (residualId : ShardId)
    (newParentSpec : ShardSpec) (opId : OpId) (payloadHash : UInt64) (now : LogicalTime) :
    Prog ByteSlab Panic SlabFull PooledRecord := do
  Prog.lift (debugAssert env.debug (canSpawn parent.spawned.len 1) .spawnedCap)
  let staged ← parent.spawned.allocateAppendedSlot env.debug [residualId]
  let spec ← (parent.spec.updateFromRef env.debug newParentSpec).onErr fun e => do
    ByteSlab.deallocate env.debug staged.slot
    return e
  let spawned ← parent.spawned.installSlot env.debug staged
  let parent ← Prog.lift (ShardRecord.logOp
    { parent with spec, spawned } .splitResidual opId payloadHash now)
  let slab ← Prog.get
  Prog.lift (ShardRecord.assertPooled env.debug parent slab)
  return parent

end GossipRs
