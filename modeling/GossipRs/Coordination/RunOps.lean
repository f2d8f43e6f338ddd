import GossipRs.Coordination.SplitOps

/-! Run management: creating runs, registering their shards, terminal transitions, unparking, the
read-side queries, and claiming the next available shard. -/

namespace GossipRs

open Lib Stdx

variable {ε α R σ κ ρ : Type}

def createRun (now : LogicalTime) (tenant : TenantId) (run : RunId) (config : RunConfig)
    (t : Tables R) : Run CreateRunError (RunRecord × Tables R) := do
  Outcome.ensure (t.runs.lookup (tenant, run) = none) (.runAlreadyExists run)
  let record : RunRecord := ⟨tenant, run, config, .initializing, now, none, [], []⟩
  record.assertInvariants
  return (record, { t with runs := t.runs.insert (tenant, run) record })

def lookupRun (tenant : TenantId) (run : RunId) (t : Tables R) : Run GetRunError RunRecord := do
  let record ← Outcome.okOr (t.runs.lookup (tenant, run)) .runNotFound
  Outcome.ensure (record.tenant = tenant) (.tenantMismatch tenant)
  return record

def getRun (tenant : TenantId) (run : RunId) (t : Tables R) : Run GetRunError RunRecord :=
  lookupRun tenant run t

/-- The read-only phase: ids of a replay, or the payload hash with the run record. -/
def registerShardsPrelude (env : Env) (tenant : TenantId) (run : RunId)
    (shards : List InitialShardInput) (opId : OpId) (t : Tables R) :
    Run RegisterShardsError (List ShardId ⊕ (UInt64 × RunRecord)) := do
  let payloadHash ← (Payload.ofManifest shards).hash env
  let record ← Outcome.okOr (t.runs.lookup (tenant, run)) .runNotFound
  Outcome.ensure (record.tenant = tenant) (.tenantMismatch tenant)
  match ← (record.checkOpIdempotency opId payloadHash).mapErr .opIdConflict with
  | some entry =>
    Outcome.assert (entry.kind = .registerShards) .replayKindMismatch
    match entry.result with
    | .registeredShards ids => return .inl ids
    | .ack => Outcome.panic .replayResultMissing
  | none =>
    Outcome.ensure (record.status = .initializing) (.wrongStatus record.status)
    (validateManifest shards).mapErr .manifestInvalid
    (t.checkShardLimits tenant shards.length 0).convertErr
      (fun e => e matches .shardLimitExceeded ..) .limitErrorRejected
      fun e => match e with
        | .shardLimitExceeded current additional max scope =>
          .shardLimitExceeded current additional max scope
        | _ => .resourceExhausted
    return .inr (payloadHash, record)

def releaseStaged (env : Env) : List (ShardKey × PooledRecord) → Op ε Unit
  | [] => return
  | (_, record) :: rest => do
    Coordinator.release (ShardRecord.deallocateFields env.debug record)
    releaseStaged env rest

/-- Build the records of the manifest. `staged` holds those built so far; a slab failure releases
them. -/
def stageShards (env : Env) (tenant : TenantId) (run : RunId) (semantics : CursorSemantics) :
    List InitialShardInput → List (ShardKey × PooledRecord) →
    Op RegisterShardsError (List (ShardKey × PooledRecord))
  | [], staged => return staged
  | input :: rest, staged => do
    let key : ShardKey := ⟨run, input.shard⟩
    let s ← Prog.get
    Prog.lift (Outcome.assert (s.tables.shardContains tenant key = false) .registerKeyCollision)
    let record ← (Coordinator.onSlab (fun _ => .resourceExhausted)
      (ShardRecord.newActiveWithCursor env.debug tenant run input.shard input.spec input.cursor
        semantics)).onErr fun e => do
          releaseStaged env staged
          return e
    let s ← Prog.get
    Prog.lift ((pooledReader env.debug s.slab).assertInvariants record)
    stageShards env tenant run semantics rest (staged ++ [(key, record)])

def insertStaged (env : Env) (tenant : TenantId) : List (ShardKey × PooledRecord) → Op ε Unit
  | [] => return
  | (key, record) :: rest => do
    shardInsert env tenant key record
    insertStaged env tenant rest

def activateRun (record : RunRecord) (ids : List ShardId) (opId : OpId) (payloadHash : UInt64)
    (now : LogicalTime) : Run ε RunRecord := do
  record.assertTransitionLegal .active
  let entry ← RunOpLogEntry.new opId .registerShards payloadHash now (.registeredShards ids)
  let record ← { record with status := .active, rootShards := ids }.opLogPush entry
  record.assertInvariants
  return record

def registerShards (env : Env) (now : LogicalTime) (tenant : TenantId) (run : RunId)
    (shards : List InitialShardInput) (opId : OpId) :
    Op RegisterShardsError (IdempotentOutcome (List ShardId)) := do
  let s ← Prog.get
  match ← Prog.lift (registerShardsPrelude env tenant run shards opId s.tables) with
  | .inl ids => return .replayed ids
  | .inr (payloadHash, record) =>
    let ids := shards.map InitialShardInput.shard
    let staged ← stageShards env tenant run record.config.cursorSemantics shards []
    insertStaged env tenant staged
    let record ← Prog.lift (activateRun record ids opId payloadHash now)
    Prog.modify fun s => { s with tables :=
      { s.tables.indexShards tenant run ids with
        runs := s.tables.runs.insert (tenant, run) record } }
    let s ← Prog.get
    Prog.lift (s.tables.debugAssertRunShardsConsistent env.debug tenant run)
    return .executed ids

/-- The second half of the combined call: register, then read the run back. -/
def registerCreated (env : Env) (now : LogicalTime) (tenant : TenantId) (run : RunId)
    (shards : List InitialShardInput) (opId : OpId) :
    Op CreateRunError (IdempotentOutcome RunRecord) := do
  let outcome ← (registerShards env now tenant run shards opId).mapErr .registerShardsFailed
  let s ← Prog.get
  let record ← Prog.lift ((getRun tenant run s.tables).mapErr .getRunFailed)
  return outcome.map fun _ => record

def createRunWithShards (env : Env) (now : LogicalTime) (tenant : TenantId) (run : RunId)
    (config : RunConfig) (shards : List InitialShardInput) (opId : OpId) :
    Op CreateRunError (IdempotentOutcome RunRecord) := do
  let s ← Prog.get
  match createRun now tenant run config s.tables with
  | .ok (_, tables) =>
    Prog.set { s with tables }
    registerCreated env now tenant run shards opId
  | .err (.runAlreadyExists _) =>
    let existing ← Prog.lift ((getRun tenant run s.tables).mapErr .getRunFailed)
    Prog.lift (Outcome.ensure (existing.config = config) (.configMismatch run))
    registerCreated env now tenant run shards opId
  | .err e => Prog.throw e
  | .panic p => Prog.lift (.panic p)

def applyTerminalRunTransition (record : RunRecord) (now : LogicalTime) (opId : OpId)
    (payloadHash : UInt64) (target : RunStatus) (kind : RunOpKind) : Run ε RunRecord := do
  record.assertTransitionLegal target
  let entry ← RunOpLogEntry.new opId kind payloadHash now .ack
  let record ← { record with status := target, completedAt := some now }.opLogPush entry
  record.assertInvariants
  return record

/-- The terminal transitions differ in payload, target, kind and in whether an initializing run is
accepted. -/
def finishRun (env : Env) (payload : Payload) (target : RunStatus) (kind : RunOpKind)
    (requireActive : Bool) (now : LogicalTime) (tenant : TenantId) (run : RunId) (opId : OpId)
    (t : Tables R) : Run RunTransitionError (IdempotentOutcome Unit × Tables R) := do
  let payloadHash ← payload.hash env
  let record ← Outcome.okOr (t.runs.lookup (tenant, run)) .runNotFound
  Outcome.ensure (record.tenant = tenant) (.tenantMismatch tenant)
  match ← (record.checkOpIdempotency opId payloadHash).mapErr .opIdConflict with
  | some entry =>
    Outcome.assert (entry.kind = kind) .replayKindMismatch
    return (.replayed (), t)
  | none =>
    Outcome.ensure (record.status.isTerminal = false) (.runTerminal record.status)
    Outcome.ensure (requireActive = true → record.status = .active)
      (.wrongStatus record.status target)
    let record ← applyTerminalRunTransition record now opId payloadHash target kind
    return (.executed (), { t with runs := t.runs.insert (tenant, run) record })

def completeRun (env : Env) (now : LogicalTime) (tenant : TenantId) (run : RunId) (opId : OpId)
    (t : Tables R) : Run RunTransitionError (IdempotentOutcome Unit × Tables R) :=
  finishRun env .completeRun .done .completeRun true now tenant run opId t

def failRun (env : Env) (now : LogicalTime) (tenant : TenantId) (run : RunId) (opId : OpId)
    (t : Tables R) : Run RunTransitionError (IdempotentOutcome Unit × Tables R) :=
  finishRun env .failRun .failed .failRun true now tenant run opId t

def cancelRun (env : Env) (now : LogicalTime) (tenant : TenantId) (run : RunId) (opId : OpId)
    (t : Tables R) : Run RunTransitionError (IdempotentOutcome Unit × Tables R) :=
  finishRun env .cancelRun .cancelled .cancelRun false now tenant run opId t

def markUnparked (record : ShardRecord σ κ ρ) (opId : OpId) (payloadHash : UInt64)
    (now : LogicalTime) : Run ε (ShardRecord σ κ ρ) := do
  let record ← record.advanceFence
  ShardRecord.logOp { record with parkReason := none, status := .active, lease := none }
    .unpark opId payloadHash now

def unparkShard (env : Env) (now : LogicalTime) (tenant : TenantId) (key : ShardKey)
    (opId : OpId) (rd : Reader σ κ ρ) (t : Tables (ShardRecord σ κ ρ)) :
    Run UnparkError (IdempotentOutcome Unit × Tables (ShardRecord σ κ ρ)) := do
  let payloadHash ← (Payload.unparkShard key).hash env
  let record ← Outcome.okOr (t.getShard tenant key) .shardNotFound
  Outcome.ensure (record.tenant = tenant) (.tenantMismatch tenant)
  let runRecord ← Outcome.expect (t.runs.lookup (tenant, key.run)) .runRecordMissing
  Outcome.ensure (runRecord.status.isTerminal = false) (.runTerminal runRecord.status)
  match ← UnparkError.fromCoordError (checkOpIdempotency record opId payloadHash) with
  | some _ => return (.replayed (), t)
  | none =>
    Outcome.ensure (record.status = .parked) (.notParked record.status)
    let record ← markUnparked record opId payloadHash now
    rd.assertInvariants record
    return (.executed (), t.setShard tenant key record)

def observeAll (debug : Bool) (now : LogicalTime) (rd : Reader σ κ ρ) :
    List (ShardRecord σ κ ρ) → RunProgress → Run ε RunProgress
  | [], progress => return progress
  | record :: rest, progress => do
    let lastKey ← (rd.lastKey record.cursor).widen
    let progress ← progress.observeShard debug record.status (record.isLeasedAt now) lastKey
    observeAll debug now rd rest progress

def getRunProgress (debug : Bool) (now : LogicalTime) (tenant : TenantId) (run : RunId)
    (rd : Reader σ κ ρ) (t : Tables (ShardRecord σ κ ρ)) : Run GetRunError RunProgress := do
  let _ ← lookupRun tenant run t
  let records ← t.runRecords tenant run
  observeAll debug now rd records .empty

def summarize (filter : ShardFilter) (now : LogicalTime) (rd : Reader σ κ ρ) :
    List (ShardRecord σ κ ρ) → Run ε (List ShardSummary)
  | [] => return []
  | record :: rest => do
    if filter.matchesRecord record now then
      let summary ← ShardSummary.fromRecord record now (rd.lastKey record.cursor).widen
        (rd.rangeStart record.spec).widen (rd.rangeEnd record.spec).widen
        (rd.spawnedLen record.spawned)
      let summaries ← summarize filter now rd rest
      return summary :: summaries
    else summarize filter now rd rest

def ShardSummary.precedes (a b : ShardSummary) : Prop :=
  a.keyRangeStart < b.keyRangeStart ∨ (a.keyRangeStart = b.keyRangeStart ∧ a.shard ≤ b.shard)

instance : DecidableRel ShardSummary.precedes := fun _ _ => inferInstanceAs (Decidable (_ ∨ _))

def listShards (now : LogicalTime) (tenant : TenantId) (run : RunId) (filter : ShardFilter)
    (rd : Reader σ κ ρ) (t : Tables (ShardRecord σ κ ρ)) :
    Run GetRunError (List ShardSummary) := do
  let _ ← lookupRun tenant run t
  let records ← t.runRecords tenant run
  let summaries ← summarize filter now rd records
  return summaries.insertionSort ShardSummary.precedes

inductive ClaimError where
  | noneAvailable (earliestDeadline : Option LogicalTime)
  | runNotFound
  | tenantMismatch (expected : TenantId)
  | throttled (retryAfter : LogicalTime)
deriving DecidableEq, Repr

def ClaimError.ofGetRun : GetRunError → ClaimError
  | .runNotFound => .runNotFound
  | .tenantMismatch expected => .tenantMismatch expected

/-- Active shards without a running lease, and the earliest deadline of the leased ones. -/
def scanCandidates (now : LogicalTime) (tenant : TenantId) (run : RunId)
    (t : Tables (ShardRecord σ κ ρ)) :
    List ShardId → Option LogicalTime → Run ε (List ShardId × Option LogicalTime)
  | [], earliest => return ([], earliest)
  | id :: rest, earliest => do
    let record ← Outcome.expect (t.getShard tenant ⟨run, id⟩) .runIndexDesynchronized
    if record.status ≠ .active then scanCandidates now tenant run t rest earliest
    else match record.heldUntil now with
      | some deadline =>
        scanCandidates now tenant run t rest (some (minDeadline earliest deadline))
      | none =>
        let (ids, earliest) ← scanCandidates now tenant run t rest earliest
        return (id :: ids, earliest)

/-- The ids come in ascending order, which is what the source sorts them into. -/
def collectClaimCandidates (now : LogicalTime) (tenant : TenantId) (run : RunId)
    (t : Tables (ShardRecord σ κ ρ)) :
    Run GetRunError (List ShardId × Option LogicalTime) := do
  let _ ← lookupRun tenant run t
  scanCandidates now tenant run t (t.runShardIds tenant run) none

/-- Try the candidates in turn. A failed acquire changes nothing, so every attempt sees the same
tables. `missing` counts candidates without a record. -/
def tryCandidates (debug : Bool) (now : LogicalTime) (tenant : TenantId) (run : RunId)
    (worker : WorkerId) (total : Nat) (rd : Reader σ κ ρ) (t : Tables (ShardRecord σ κ ρ)) :
    List ShardId → Option LogicalTime → Nat →
    Run ClaimError (AcquireResult × Tables (ShardRecord σ κ ρ))
  | [], earliest, missing => do
    Outcome.assert (missing < total) .claimIndexInconsistent
    Outcome.err (.noneAvailable earliest)
  | id :: rest, earliest, missing =>
    match acquireAndRestoreInto debug now tenant ⟨run, id⟩ worker rd t with
    | .ok result => .ok result
    | .panic p => .panic p
    | .err (.alreadyLeased _ deadline) =>
      tryCandidates debug now tenant run worker total rd t rest
        (some (minDeadline earliest deadline)) missing
    | .err (.shardTerminal ..) =>
      tryCandidates debug now tenant run worker total rd t rest earliest missing
    | .err (.shardNotFound _) => do
      debugAssert debug False .claimCandidateMissing
      tryCandidates debug now tenant run worker total rd t rest earliest (missing + 1)
    | .err (.tenantMismatch expected) => .err (.tenantMismatch expected)

def defaultClaimNextAvailable (debug : Bool) (now : LogicalTime) (tenant : TenantId)
    (run : RunId) (worker : WorkerId) (rd : Reader σ κ ρ) (t : Tables (ShardRecord σ κ ρ)) :
    Run ClaimError (AcquireResult × Tables (ShardRecord σ κ ρ)) := do
  let (candidates, earliest) ← (collectClaimCandidates now tenant run t).mapErr .ofGetRun
  Outcome.ensure (candidates ≠ []) (.noneAvailable earliest)
  tryCandidates debug now tenant run worker candidates.length rd t
    (candidates.rotate (worker.raw.toNat % candidates.length)) earliest 0

def checkCooldown (t : Tables R) (worker : WorkerId) (now : LogicalTime) : Option LogicalTime :=
  if t.config.claimCooldownInterval = 0 then none
  else match t.claimCooldowns.lookup worker with
    | none => none
    | some lastClaim =>
      let retryAfter := LogicalTime.saturatingAdd lastClaim t.config.claimCooldownInterval
      if now < retryAfter then some retryAfter else none

def recordClaim (debug : Bool) (worker : WorkerId) (now : LogicalTime) (t : Tables R) :
    Run ε (Tables R) := do
  if 0 < t.config.claimCooldownInterval then
    debugAssert debug ((t.claimCooldowns.lookup worker).getD 0 ≤ now) .claimTimeBackward
    return { t with claimCooldowns := t.claimCooldowns.insert worker now }
  else return t

def claimNextAvailable (debug : Bool) (now : LogicalTime) (tenant : TenantId) (run : RunId)
    (worker : WorkerId) (rd : Reader σ κ ρ) (t : Tables (ShardRecord σ κ ρ)) :
    Run ClaimError (AcquireResult × Tables (ShardRecord σ κ ρ)) := do
  match checkCooldown t worker now with
  | some retryAfter => Outcome.err (.throttled retryAfter)
  | none =>
    let (result, t) ← defaultClaimNextAvailable debug now tenant run worker rd t
    let t ← recordClaim debug worker now t
    return (result, t)

end GossipRs
