import GossipRs.Coordination.Validation

/-! Run records with their op-log, and the read-side summaries of a run. -/

namespace GossipRs

open Lib Stdx Outcome

variable {ε σ κ ρ : Type}

/-! ## Run records -/

inductive RunStatus where
  | initializing
  | active
  | done
  | failed
  | cancelled
deriving DecidableEq, Repr

def RunStatus.isTerminal : RunStatus → Bool
  | .done | .failed | .cancelled => true
  | .initializing | .active => false

structure RunConfig where
  cursorSemantics : CursorSemantics
  leaseDuration : UInt64
  maxShardRetries : Option UInt32
  leaseDuration_ne : leaseDuration ≠ 0

instance : DecidableEq RunConfig := fun a b =>
  decidable_of_iff (a.cursorSemantics = b.cursorSemantics ∧ a.leaseDuration = b.leaseDuration ∧
    a.maxShardRetries = b.maxShardRetries) (by cases a; cases b; simp)

inductive RunOpKind where
  | registerShards
  | completeRun
  | failRun
  | cancelRun
deriving DecidableEq, Repr

inductive RunOpResult where
  | registeredShards (shardIds : List ShardId)
  | ack
deriving DecidableEq, Repr

/-- Registration logs the ids it installed, every other operation an acknowledgement. -/
def RunOpResult.matchesKind : RunOpKind → RunOpResult → Bool
  | .registerShards, .registeredShards _ => true
  | .registerShards, .ack => false
  | _, .ack => true
  | _, .registeredShards _ => false

structure RunOpLogEntry where
  opId : OpId
  kind : RunOpKind
  payloadHash : UInt64
  executedAt : LogicalTime
  result : RunOpResult
  payloadHash_ne : payloadHash ≠ 0
  executedAt_pos : 0 < executedAt
  result_matches : result.matchesKind kind = true

instance : DecidableEq RunOpLogEntry := fun a b =>
  decidable_of_iff (a.opId = b.opId ∧ a.kind = b.kind ∧ a.payloadHash = b.payloadHash ∧
    a.executedAt = b.executedAt ∧ a.result = b.result) (by cases a; cases b; simp)

def RunOpLogEntry.new (opId : OpId) (kind : RunOpKind) (payloadHash : UInt64)
    (executedAt : LogicalTime) (result : RunOpResult) : Run ε RunOpLogEntry :=
  if hh : payloadHash ≠ 0 then
    if ht : 0 < executedAt then
      if hr : result.matchesKind kind = true then
        .ok ⟨opId, kind, payloadHash, executedAt, result, hh, ht, hr⟩
      else .panic .runOpLogResultKind
    else .panic .opLogTimeZero
  else .panic .opLogHashZero

structure RunOpIdConflict where
  opId : OpId
  expectedHash : UInt64
  actualHash : UInt64
deriving DecidableEq, Repr

structure RunRecord where
  tenant : TenantId
  run : RunId
  config : RunConfig
  status : RunStatus
  createdAt : LogicalTime
  completedAt : Option LogicalTime
  rootShards : List ShardId
  opLog : List RunOpLogEntry
deriving DecidableEq

namespace RunRecord

def opLogCap : Nat := 8

/-- INV-1 to INV-5 and INV-9. -/
def assertLifecycleInvariants (record : RunRecord) : Run ε Unit := do
  Outcome.assert (record.status = .active → record.rootShards ≠ []) (.runInvariant 1)
  Outcome.assert (record.completedAt.isSome = record.status.isTerminal) (.runInvariant 2)
  Outcome.assert (0 < record.createdAt) (.runInvariant 3)
  Outcome.assert (record.status = .initializing → record.rootShards = []) (.runInvariant 4)
  Outcome.assert (record.completedAt.all (record.createdAt ≤ ·)) (.runInvariant 5)
  Outcome.assert record.rootShards.Nodup (.runInvariant 9)

/-- INV-6, INV-7, INV-10 and INV-11. INV-8 is a field of the configuration. -/
def assertOplogInvariants (record : RunRecord) : Run ε Unit := do
  Outcome.assert (record.opLog.length ≤ opLogCap) (.runInvariant 6)
  Outcome.assert ((record.opLog.map RunOpLogEntry.opId).Nodup) (.runInvariant 7)
  Outcome.assert (record.opLog.IsChain fun prev entry => prev.executedAt ≤ entry.executedAt)
    (.runInvariant 10)
  Outcome.assert (∀ entry ∈ record.opLog, entry.result.matchesKind entry.kind = true)
    (.runInvariant 11)

def assertInvariants (record : RunRecord) : Run ε Unit := do
  record.assertLifecycleInvariants
  record.assertOplogInvariants

theorem noErr_assertInvariants (record : RunRecord) :
    Outcome.NoErr (record.assertInvariants : Run ε Unit) := by
  unfold assertInvariants assertLifecycleInvariants assertOplogInvariants
  refine .bind ?_ fun _ => ?_
  · exact .check fun _ => .check fun _ =>
      .check fun _ => .check fun _ =>
      .check fun _ => noErr_assert _ _
  · exact .check fun _ => .check fun _ =>
      .check fun _ => noErr_assert _ _

def opLogLookup (record : RunRecord) (op : OpId) : Option RunOpLogEntry :=
  lookupLast RunOpLogEntry.opId op record.opLog

def opLogPush (record : RunRecord) (entry : RunOpLogEntry) : Run ε RunRecord := do
  Outcome.assert (∀ e ∈ record.opLog, e.opId ≠ entry.opId) .opLogDuplicate
  let opLog := pushOverwrite opLogCap record.opLog entry
  Outcome.assert (opLog.length ≤ opLogCap) .opLogOverflow
  return { record with opLog }

def checkOpIdempotency (record : RunRecord) (opId : OpId) (payloadHash : UInt64) :
    Run RunOpIdConflict (Option RunOpLogEntry) := do
  Outcome.assert (payloadHash ≠ 0) .payloadHashZero
  match record.opLogLookup opId with
  | none => return none
  | some entry =>
    Outcome.ensure (entry.payloadHash = payloadHash) ⟨opId, entry.payloadHash, payloadHash⟩
    return some entry

def transitionLegal (old new : RunStatus) : Bool :=
  match old, new with
  | .initializing, .active | .initializing, .cancelled => true
  | .active, .done | .active, .failed | .active, .cancelled => true
  | s, t => s == t

def assertTransitionLegal (record : RunRecord) (newStatus : RunStatus) : Run ε Unit :=
  Outcome.assert (transitionLegal record.status newStatus = true) .illegalRunTransition

end RunRecord

/-! ## Run errors -/

inductive RegisterShardsError where
  | runNotFound
  | tenantMismatch (expected : TenantId)
  | wrongStatus (status : RunStatus)
  | manifestInvalid (reason : ManifestValidationError)
  | opIdConflict (conflict : RunOpIdConflict)
  | shardLimitExceeded (current additional max : Nat) (scope : ShardLimitScope)
  /-- The only resource the model can exhaust is the slab, `shard_slab`. -/
  | resourceExhausted
deriving DecidableEq, Repr

inductive GetRunError where
  | runNotFound
  | tenantMismatch (expected : TenantId)
deriving DecidableEq, Repr

/-- A configuration that exists is valid, so `InvalidConfig` has no counterpart. -/
inductive CreateRunError where
  | runAlreadyExists (run : RunId)
  | registerShardsFailed (e : RegisterShardsError)
  | getRunFailed (e : GetRunError)
  | configMismatch (run : RunId)
deriving DecidableEq, Repr

inductive RunTransitionError where
  | runNotFound
  | tenantMismatch (expected : TenantId)
  | runTerminal (status : RunStatus)
  | wrongStatus (status target : RunStatus)
  | opIdConflict (conflict : RunOpIdConflict)
deriving DecidableEq, Repr

inductive UnparkError where
  | shardNotFound
  | tenantMismatch (expected : TenantId)
  | runTerminal (status : RunStatus)
  | notParked (status : ShardStatus)
  | opIdConflict (conflict : RunOpIdConflict)
deriving DecidableEq, Repr

/-- `From<CoordError> for UnparkError`: only an op-id conflict is expected. -/
def UnparkError.fromCoordError {α : Type} (x : Run CoordError α) : Run UnparkError α :=
  match x with
  | .ok a => .ok a
  | .err (.opIdConflict opId expected actual) => .err (.opIdConflict ⟨opId, expected, actual⟩)
  | .err _ => .panic .coordErrorRejected
  | .panic p => .panic p

/-! ## Progress -/

structure RunProgress where
  total : Nat
  active : Nat
  done : Nat
  split : Nat
  parked : Nat
  leased : Nat
  watermark : Option Bytes
deriving DecidableEq, Repr

namespace RunProgress

def empty : RunProgress := ⟨0, 0, 0, 0, 0, 0, none⟩

def assertInvariants (progress : RunProgress) : Run ε Unit := do
  Outcome.assert (progress.total =
    progress.active + progress.done + progress.split + progress.parked) .progressInvariant
  Outcome.assert (progress.leased ≤ progress.active) .progressInvariant
  Outcome.assert (progress.active = 0 → progress.watermark.isNone) .progressInvariant

def bump (n : Nat) : Run ε Nat := do
  Outcome.assert (n + 1 ≤ u32Max) .progressOverflow
  return n + 1

def countShard (progress : RunProgress) (status : ShardStatus) (isLeased : Bool) :
    Run ε RunProgress := do
  Outcome.assert (isLeased = false ∨ status = .active) .progressLeasedInactive
  let total ← bump progress.total
  let progress ← match status with
    | .active => do
      let active ← bump progress.active
      let leased ← if isLeased then bump progress.leased else .ok progress.leased
      .ok { progress with total, active, leased }
    | .done => do
      let done ← bump progress.done
      .ok { progress with total, done }
    | .split => do
      let split ← bump progress.split
      .ok { progress with total, split }
    | .parked => do
      let parked ← bump progress.parked
      .ok { progress with total, parked }
  progress.assertInvariants
  return progress

def observeShard (debug : Bool) (progress : RunProgress) (status : ShardStatus) (isLeased : Bool)
    (cursorLastKey : Option Bytes) : Run ε RunProgress := do
  let progress ← progress.countShard status isLeased
  match status, cursorLastKey with
  | .active, some lastKey =>
    Outcome.assert (lastKey.length ≤ maxKeySize) .progressKeyTooLarge
    debugAssert debug (lastKey ≠ []) .progressKeyEmpty
    match progress.watermark with
    | some current =>
      return if lastKey < current then { progress with watermark := some lastKey } else progress
    | none => return { progress with watermark := some lastKey }
  | _, _ => return progress

end RunProgress

/-! ## Shard listings -/

structure ShardSummary where
  shard : ShardId
  status : ShardStatus
  parkReason : Option ParkReason
  isLeased : Bool
  leaseDeadline : Option LogicalTime
  acquireCount : Nat
  lastKey : Option Bytes
  keyRangeStart : Bytes
  keyRangeEnd : Bytes
  parent : Option ShardId
  spawnedCount : Nat
deriving DecidableEq, Repr

/-- Summary of a record, read in this order; each read is checked against the fixed buffer before
the next. -/
def ShardSummary.fromRecord (record : ShardRecord σ κ ρ) (now : LogicalTime)
    (readLastKey : Run ε (Option Bytes)) (readStart readEnd : Run ε Bytes) (spawnedLen : Nat) :
    Run ε ShardSummary := do
  let lastKey ← readLastKey
  Outcome.assert (∀ key ∈ lastKey, key.length ≤ maxKeySize) .summaryKeyTooLarge
  let keyRangeStart ← readStart
  Outcome.assert (keyRangeStart.length ≤ maxKeySize) .summaryKeyTooLarge
  let keyRangeEnd ← readEnd
  Outcome.assert (keyRangeEnd.length ≤ maxKeySize) .summaryKeyTooLarge
  return {
    shard := record.shard
    status := record.status
    parkReason := record.parkReason
    isLeased := record.isLeasedAt now
    leaseDeadline := if record.isLeasedAt now then record.lease.map LeaseHolder.deadline else none
    acquireCount := min (record.fenceEpoch.toNat - FenceEpoch.initial.toNat) u32Max
    lastKey, keyRangeStart, keyRangeEnd
    parent := record.parent
    spawnedCount := min spawnedLen u32Max }

structure ShardFilter where
  status : Option ShardStatus
  isLeased : Option Bool
  rootOnly : Bool
deriving DecidableEq, Repr

def ShardFilter.matchesRecord (filter : ShardFilter) (record : ShardRecord σ κ ρ)
    (now : LogicalTime) : Bool :=
  filter.status.all (record.status == ·) && filter.isLeased.all (record.isLeasedAt now == ·) &&
    !(filter.rootOnly && record.parent.isSome)

end GossipRs
