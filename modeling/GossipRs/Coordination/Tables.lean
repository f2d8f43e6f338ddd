import GossipRs.Coordination.SplitExecution
import GossipRs.Coordination.Run
import GossipRs.Lib.FiniteMap
import GossipRs.Lib.SortedSet

/-! The maps of the coordinator, generic in how records hold their stored fields, and all it does on
them without allocating: limits, the run index, capacity hints and snapshots. A `Reader` says how
stored fields are read. -/

namespace GossipRs

open Lib Stdx Outcome

variable {ε σ κ ρ R : Type}

def usizeMax : Nat := 2 ^ 64 - 1

/-- `usize` addition that stops at the maximum. -/
def saturatingAdd (a b : Nat) : Nat := min (a + b) usizeMax

/-- What `with_runtime_config` checks of its configuration. -/
structure CoordinatorConfig where
  defaultLeaseDuration : UInt64
  maxShardsPerTenant : Nat
  maxTotalShards : Nat
  claimCooldownInterval : UInt64
  /-- Zero asks for a capacity derived from `maxTotalShards`. -/
  slabCapacity : Nat
  leaseDuration_pos : 0 < defaultLeaseDuration
  maxShardsPerTenant_pos : 0 < maxShardsPerTenant
  maxTotalShards_pos : 0 < maxTotalShards
  maxShardsPerTenant_le : maxShardsPerTenant ≤ usizeMax
  maxTotalShards_le : maxTotalShards ≤ usizeMax
deriving DecidableEq

structure Tables (R : Type) where
  config : CoordinatorConfig
  shards : FMap2 TenantId ShardKey R
  totalShardCount : Nat
  runs : FMap (TenantId × RunId) RunRecord
  runShards : FMap (TenantId × RunId) (Finset ShardId)
  claimCooldowns : FMap WorkerId LogicalTime

/-- How the stored fields of a record are read. A read can only panic. -/
structure Reader (σ κ ρ : Type) where
  rangeStart : σ → Outcome Panic Empty Bytes
  rangeEnd : σ → Outcome Panic Empty Bytes
  metadata : σ → Outcome Panic Empty Bytes
  lastKey : κ → Outcome Panic Empty (Option Bytes)
  token : κ → Outcome Panic Empty (Option Bytes)
  spawned : ρ → Outcome Panic Empty (List ShardId)
  spawnedLen : ρ → Nat

def pooledReader (debug : Bool) (slab : ByteSlab) :
    Reader PooledShardSpec PooledCursor PooledSpawned where
  rangeStart spec := slab.get debug spec.keyRangeStart
  rangeEnd spec := slab.get debug spec.keyRangeEnd
  metadata spec := slab.get debug spec.metadata
  lastKey cursor := cursor.readLastKey debug slab
  token cursor := cursor.readToken debug slab
  spawned spawned := spawned.iter debug slab
  spawnedLen spawned := spawned.len

def viewReader : Reader ShardSpec CursorValue (List ShardId) where
  rangeStart spec := .ok spec.keyRangeStart
  rangeEnd spec := .ok spec.keyRangeEnd
  metadata spec := .ok spec.metadata
  lastKey cursor := .ok cursor.lastKey
  token cursor := .ok cursor.token
  spawned spawned := .ok spawned
  spawnedLen spawned := spawned.length

namespace Reader

variable (rd : Reader σ κ ρ)

def range (spec : σ) : Run ε (Bytes × Bytes) := do
  let start ← (rd.rangeStart spec).widen
  let stop ← (rd.rangeEnd spec).widen
  return (start, stop)

def assertInvariants (record : ShardRecord σ κ ρ) : Run ε Unit :=
  record.assertInvariants (rd.spawnedLen record.spawned) (rd.spawned record.spawned).widen

theorem noErr_assertInvariants (record : ShardRecord σ κ ρ) :
    Outcome.NoErr (rd.assertInvariants record : Run ε Unit) := by
  refine Outcome.NoErr.bind ?_ fun _ => ?_
  · exact .check fun _ => .check fun _ =>
      .check fun _ => noErr_assert _ _
  exact .check fun _ => .check fun _ =>
    .check fun _ => .bind (noErr_widen _) fun _ =>
    .check fun _ => .check fun _ =>
    noErr_assert _ _

end Reader

namespace Tables

def getShard (t : Tables R) (tenant : TenantId) (key : ShardKey) : Option R :=
  FMap2.get t.shards tenant key

def setShard (t : Tables R) (tenant : TenantId) (key : ShardKey) (record : R) : Tables R :=
  { t with shards := FMap2.set t.shards tenant key record }

def shardContains (t : Tables R) (tenant : TenantId) (key : ShardKey) : Bool :=
  (t.getShard tenant key).isSome

def assertShardCount (t : Tables R) : Run ε Unit :=
  Outcome.assert (t.totalShardCount = FMap2.total t.shards) .shardCountDrift

/-- The map part of `shard_insert`: upsert, and count a new key. -/
def putShard (t : Tables R) (tenant : TenantId) (key : ShardKey) (record : R) : Tables R :=
  { t with
    shards := FMap2.set t.shards tenant key record
    totalShardCount :=
      if t.shardContains tenant key then t.totalShardCount else t.totalShardCount + 1 }

def dropShard (t : Tables R) (tenant : TenantId) (key : ShardKey) : Tables R :=
  { t with
    shards := FMap2.remove t.shards tenant key
    totalShardCount := if t.shardContains tenant key then t.totalShardCount - 1
      else t.totalShardCount }

/-- Take a shard out of the map. Without an inner map for the tenant nothing is checked. -/
def shardRemove (t : Tables R) (tenant : TenantId) (key : ShardKey) :
    Run ε (Option R × Tables R) := do
  match t.shards.lookup tenant with
  | none => return (none, t)
  | some inner =>
    let removed := inner.lookup key
    Outcome.assert (removed.isSome → 1 ≤ t.totalShardCount) .shardCountUnderflow
    let t := t.dropShard tenant key
    t.assertShardCount
    return (removed, t)

def checkShardLimits (t : Tables R) (tenant : TenantId) (additional temporarilyRemoved : Nat) :
    Run SplitValidationError Unit := do
  let tenantCount := saturatingAdd (FMap2.sizeAt t.shards tenant) temporarilyRemoved
  let totalCount := saturatingAdd t.totalShardCount temporarilyRemoved
  Outcome.ensure (saturatingAdd tenantCount additional ≤ t.config.maxShardsPerTenant)
    (.shardLimitExceeded tenantCount additional t.config.maxShardsPerTenant .perTenant)
  Outcome.ensure (saturatingAdd totalCount additional ≤ t.config.maxTotalShards)
    (.shardLimitExceeded totalCount additional t.config.maxTotalShards .global)

def indexShard (t : Tables R) (tenant : TenantId) (run : RunId) (shard : ShardId) : Tables R :=
  { t with runShards :=
      t.runShards.insert (tenant, run) (insert shard ((t.runShards.lookup (tenant, run)).getD ∅)) }

def indexShards (t : Tables R) (tenant : TenantId) (run : RunId) (shards : List ShardId) :
    Tables R :=
  shards.foldl (fun t shard => t.indexShard tenant run shard) t

/-- Ids the index holds for a run, in ascending order. The source visits the hash set in no
particular order; every use here is independent of it. -/
def runShardIds (t : Tables R) (tenant : TenantId) (run : RunId) : List ShardId :=
  match t.runShards.lookup (tenant, run) with
  | some ids => sortedElements ids
  | none => []

def debugAssertRunShardsConsistent (debug : Bool) (t : Tables R) (tenant : TenantId)
    (run : RunId) : Run ε Unit :=
  debugAssert debug (∀ id ∈ t.runShardIds tenant run, (t.getShard tenant ⟨run, id⟩).isSome)
    .runIndexDesynchronized

def lookupAll (t : Tables R) (tenant : TenantId) (run : RunId) : List ShardId → Run ε (List R)
  | [] => return []
  | id :: rest => do
    let record ← Outcome.expect (t.getShard tenant ⟨run, id⟩) .runIndexDesynchronized
    let records ← t.lookupAll tenant run rest
    return record :: records

def runRecords (t : Tables R) (tenant : TenantId) (run : RunId) : Run ε (List R) :=
  t.lookupAll tenant run (t.runShardIds tenant run)

end Tables

/-! ## Capacity -/

structure CapacityHint where
  availableCount : Nat
  earliestDeadline : Option LogicalTime
deriving DecidableEq, Repr

def minDeadline (prev : Option LogicalTime) (deadline : LogicalTime) : LogicalTime :=
  match prev with
  | some p => min p deadline
  | none => deadline

def ShardRecord.heldUntil (record : ShardRecord σ κ ρ) (now : LogicalTime) : Option LogicalTime :=
  if record.isLeasedAt now then record.lease.map LeaseHolder.deadline else none

def tallyAvailable (now : LogicalTime) :
    List (ShardRecord σ κ ρ) → CapacityHint → Run ε CapacityHint
  | [], hint => return hint
  | record :: rest, hint => do
    if record.status ≠ .active then tallyAvailable now rest hint
    else match record.heldUntil now with
      | some deadline =>
        tallyAvailable now rest
          { hint with earliestDeadline := some (minDeadline hint.earliestDeadline deadline) }
      | none =>
        Outcome.assert (hint.availableCount + 1 ≤ u32Max) .availableCountOverflow
        tallyAvailable now rest { hint with availableCount := hint.availableCount + 1 }

def Tables.countAvailableForRun (debug : Bool) (t : Tables (ShardRecord σ κ ρ))
    (now : LogicalTime) (tenant : TenantId) (run : RunId) : Run ε CapacityHint := do
  debugAssert debug ((t.runShardIds tenant run).length ≤ t.config.maxTotalShards)
    .runIndexTooLarge
  let records ← t.runRecords tenant run
  tallyAvailable now records ⟨0, none⟩

/-! ## Snapshots -/

/-- What an acquire hands to the worker, copied through the scratch buffers. -/
structure ShardSnapshot where
  status : ShardStatus
  spec : ShardSpec
  cursor : CursorValue
  cursorSemantics : CursorSemantics
  parent : Option ShardId
  spawned : List ShardId
deriving DecidableEq, Repr

/-- The scratch reports a cursor without data as initial and drops an empty token. -/
def scratchCursorView (lastKey token : Option Bytes) : CursorValue :=
  match lastKey with
  | some (b :: key) => ⟨some (b :: key), token.filter (· ≠ [])⟩
  | _ => ⟨none, none⟩

/-- Copy a record into the scratch. Each fixed buffer asserts that the bytes fit. -/
def Reader.snapshot (rd : Reader σ κ ρ) (record : ShardRecord σ κ ρ) : Run ε ShardSnapshot := do
  let start ← (rd.rangeStart record.spec).widen
  let stop ← (rd.rangeEnd record.spec).widen
  let metadata ← (rd.metadata record.spec).widen
  Outcome.assert (start.length ≤ maxKeySize) .scratchSpec
  Outcome.assert (stop.length ≤ maxKeySize) .scratchSpec
  Outcome.assert (metadata.length ≤ maxMetadataSize) .scratchSpec
  let lastKey ← (rd.lastKey record.cursor).widen
  let token ← (rd.token record.cursor).widen
  Outcome.assert (∀ key ∈ lastKey, key.length ≤ maxKeySize) .scratchCursorKey
  Outcome.assert (∀ tok ∈ token, tok.length ≤ maxTokenSize) .scratchCursorToken
  let spawned ← (rd.spawned record.spawned).widen
  Outcome.assert (spawned.length ≤ maxSpawnedPerShard) .scratchSpawned
  return ⟨record.status, ⟨start, stop, metadata⟩, scratchCursorView lastKey token,
    record.cursorSemantics, record.parent, spawned⟩

end GossipRs
