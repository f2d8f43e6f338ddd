import GossipRs.Coordination.Inversion
import GossipRs.Coordination.Step
import GossipRs.Coordination.TablesSpec

/-! The operations that do not allocate look at stored fields only through the reader, so they
commute with any change of their representation under which the readers agree. -/

namespace GossipRs

open Lib Stdx Outcome List

variable {ε α σ κ ρ σ' κ' ρ' : Type}

structure FieldMap (σ κ ρ σ' κ' ρ' : Type) where
  spec : σ → σ'
  cursor : κ → κ'
  spawned : ρ → ρ'

def FieldMap.onRecord (m : FieldMap σ κ ρ σ' κ' ρ') (r : ShardRecord σ κ ρ) :
    ShardRecord σ' κ' ρ' where
  tenant := r.tenant
  run := r.run
  shard := r.shard
  status := r.status
  parkReason := r.parkReason
  spec := m.spec r.spec
  cursor := m.cursor r.cursor
  cursorSemantics := r.cursorSemantics
  lease := r.lease
  fenceEpoch := r.fenceEpoch
  parent := r.parent
  spawned := m.spawned r.spawned
  opLog := r.opLog

def Tables.mapRecords {R R' : Type} (f : R → R') (t : Tables R) : Tables R' where
  config := t.config
  shards := FMap2.mapVals f t.shards
  totalShardCount := t.totalShardCount
  runs := t.runs
  runShards := t.runShards
  claimCooldowns := t.claimCooldowns

namespace Tables

variable {R R' : Type} (f : R → R') (t : Tables R)

section

variable (tenant : TenantId)

@[simp] theorem getShard_mapRecords (key) :
    (t.mapRecords f).getShard tenant key = (t.getShard tenant key).map f :=
  FMap2.get_mapVals f t.shards tenant key

@[simp] theorem shardContains_mapRecords (key) :
    (t.mapRecords f).shardContains tenant key = t.shardContains tenant key := by
  simp [shardContains]

theorem setShard_mapRecords (key) (record) :
    (t.mapRecords f).setShard tenant key (f record) =
      (t.setShard tenant key record).mapRecords f := by
  simp [setShard, mapRecords, FMap2.mapVals_set]

theorem putShard_mapRecords (key) (record) :
    (t.mapRecords f).putShard tenant key (f record) =
      (t.putShard tenant key record).mapRecords f := by
  simp only [putShard, shardContains_mapRecords]
  simp [mapRecords, FMap2.mapVals_set]

theorem putShards_mapRecords (staged : List (ShardKey × R)) :
    (t.mapRecords f).putShards tenant (staged.map (Prod.map id f)) =
      (t.putShards tenant staged).mapRecords f := by
  induction staged generalizing t with
  | nil => rfl
  | cons entry rest ih =>
    rw [map_cons]
    simp only [putShards, Prod.map, id, putShard_mapRecords]
    exact ih _

theorem dropShard_mapRecords (key) :
    (t.mapRecords f).dropShard tenant key = (t.dropShard tenant key).mapRecords f := by
  simp only [dropShard, shardContains_mapRecords]
  simp [mapRecords, FMap2.mapVals_remove]

theorem indexShard_mapRecords (run) (shard) :
    (t.mapRecords f).indexShard tenant run shard = (t.indexShard tenant run shard).mapRecords f :=
  rfl

theorem indexShards_mapRecords (run shards) :
    (t.mapRecords f).indexShards tenant run shards =
      (t.indexShards tenant run shards).mapRecords f := by
  induction shards generalizing t with
  | nil => rfl
  | cons shard rest ih => exact ih (t.indexShard tenant run shard)

theorem checkShardLimits_mapRecords (additional removed) :
    (t.mapRecords f).checkShardLimits tenant additional removed =
      t.checkShardLimits tenant additional removed := by
  simp only [checkShardLimits, mapRecords, FMap2.sizeAt_mapVals]
  rfl

theorem lookupAll_mapRecords (run ids) :
    ((t.mapRecords f).lookupAll tenant run ids : Run ε _) =
      List.map f <$> t.lookupAll tenant run ids := by
  induction ids with
  | nil => rfl
  | cons id rest ih =>
    simp only [lookupAll, getShard_mapRecords, expect_map, ih, bind_map_left, map_bind]
    refine bind_congr_ok fun record _ => bind_congr_ok fun records _ => rfl

theorem runRecords_mapRecords (run) :
    ((t.mapRecords f).runRecords tenant run : Run ε _) = List.map f <$> t.runRecords tenant run :=
  lookupAll_mapRecords f t tenant run _

end

end Tables

/-- The two readers see the same in `r` before and after the change. -/
structure FieldMap.Agrees (m : FieldMap σ κ ρ σ' κ' ρ') (rd : Reader σ κ ρ)
    (rd' : Reader σ' κ' ρ') (r : ShardRecord σ κ ρ) : Prop where
  rangeStart : rd'.rangeStart (m.spec r.spec) = rd.rangeStart r.spec
  rangeEnd : rd'.rangeEnd (m.spec r.spec) = rd.rangeEnd r.spec
  metadata : rd'.metadata (m.spec r.spec) = rd.metadata r.spec
  lastKey : rd'.lastKey (m.cursor r.cursor) = rd.lastKey r.cursor
  token : rd'.token (m.cursor r.cursor) = rd.token r.cursor
  spawned : rd'.spawned (m.spawned r.spawned) = rd.spawned r.spawned
  spawnedLen : rd'.spawnedLen (m.spawned r.spawned) = rd.spawnedLen r.spawned

def FieldMap.AgreesOn (m : FieldMap σ κ ρ σ' κ' ρ') (rd : Reader σ κ ρ) (rd' : Reader σ' κ' ρ')
    (t : Tables (ShardRecord σ κ ρ)) : Prop :=
  ∀ tenant key r, t.getShard tenant key = some r → m.Agrees rd rd' r

variable {opId : OpId} {hash : UInt64}

variable {r r' : ShardRecord σ κ ρ} {records : List (ShardRecord σ κ ρ)}

section

variable {m : FieldMap σ κ ρ σ' κ' ρ'} {rd : Reader σ κ ρ} {rd' : Reader σ' κ' ρ'}

/-! ## Records -/

theorem FieldMap.Agrees.range (h : m.Agrees rd rd' r) :
    (rd'.range (m.onRecord r).spec : Run ε _) = rd.range r.spec := by
  simp [Reader.range, onRecord, h.rangeStart, h.rangeEnd]

theorem FieldMap.Agrees.assertInvariants (h : m.Agrees rd rd' r) :
    (rd'.assertInvariants (m.onRecord r) : Run ε Unit) = rd.assertInvariants r := by
  simp only [Reader.assertInvariants, onRecord, h.spawned, h.spawnedLen]
  rfl

theorem FieldMap.Agrees.snapshot (h : m.Agrees rd rd' r) :
    (rd'.snapshot (m.onRecord r) : Run ε _) = rd.snapshot r := by
  simp [Reader.snapshot, onRecord, h.rangeStart, h.rangeEnd, h.metadata, h.lastKey, h.token,
    h.spawned]

theorem FieldMap.Agrees.validateCursor (h : m.Agrees rd rd' r) (newCursor) :
    rd'.validateCursor (m.onRecord r) newCursor = rd.validateCursor r newCursor := by
  simp [Reader.validateCursor, onRecord, h.rangeStart, h.rangeEnd, h.lastKey]

section

variable (r : ShardRecord σ κ ρ)

theorem isLeasedAt_onRecord (now) : (m.onRecord r).isLeasedAt now = r.isLeasedAt now := rfl

theorem heldUntil_onRecord (now) : (m.onRecord r).heldUntil now = r.heldUntil now := rfl

theorem checkOpIdempotency_onRecord (opId) (hash) :
    checkOpIdempotency (m.onRecord r) opId hash = checkOpIdempotency r opId hash := rfl

theorem validateLease_onRecord (now tenant lease) :
    validateLease now tenant lease (m.onRecord r) = validateLease now tenant lease r := rfl

theorem opLogPush_onRecord (entry) :
    ((m.onRecord r).opLogPush entry : Run ε _) = m.onRecord <$> r.opLogPush entry := by
  simp only [ShardRecord.opLogPush, map_bind]
  rfl

theorem logOp_onRecord (kind) (opId) (hash) (now) :
    ((m.onRecord r).logOp kind opId hash now : Run ε _) =
      m.onRecord <$> r.logOp kind opId hash now := by
  simp [ShardRecord.logOp, map_bind, opLogPush_onRecord]

theorem advanceFence_onRecord :
    ((m.onRecord r).advanceFence : Run ε _) = m.onRecord <$> r.advanceFence := by
  simp only [ShardRecord.advanceFence, map_bind]
  rfl

theorem grantLease_onRecord (now duration tenant) (key) (worker) :
    grantLease now duration tenant key worker (m.onRecord r) =
      Prod.map id m.onRecord <$> grantLease now duration tenant key worker r := by
  unfold grantLease
  rw [show (m.onRecord r).lease = r.lease from rfl]
  cases r.lease with
  | none | some holder =>
    simp only [map_bind, advanceFence_onRecord, bind_map_left]
    rfl

theorem extendLease_onRecord (now duration tenant lease) :
    extendLease now duration tenant lease (m.onRecord r) =
      Prod.map id m.onRecord <$> extendLease now duration tenant lease r := by
  simp only [extendLease, map_bind, validateLease_onRecord]
  rfl

theorem markDone_onRecord (opId) (hash) (now) :
    (markDone (m.onRecord r) opId hash now : Run ε _) =
      m.onRecord <$> markDone r opId hash now := by
  simp only [markDone, map_bind]
  exact bind_congr_ok fun _ _ => logOp_onRecord { r with status := .done, lease := none }
    .complete opId hash now

theorem markParked_onRecord (reason) (opId) (hash) (now) :
    (markParked (m.onRecord r) reason opId hash now : Run ε _) =
      m.onRecord <$> markParked r reason opId hash now := by
  simp only [markParked, map_bind]
  exact bind_congr_ok fun _ _ => logOp_onRecord
    { r with status := .parked, parkReason := some reason, lease := none } .park opId hash now

theorem markUnparked_onRecord (opId) (hash) (now) :
    (markUnparked (m.onRecord r) opId hash now : Run ε _) =
      m.onRecord <$> markUnparked r opId hash now := by
  simp only [markUnparked, map_bind, advanceFence_onRecord, bind_map_left]
  exact bind_congr_ok fun r _ => logOp_onRecord
    { r with parkReason := none, status := .active, lease := none } .unpark opId hash now

end

/-! ## Aggregates over a run -/

theorem tallyAvailable_onRecord (now) (records : List (ShardRecord σ κ ρ)) (hin) :
    (tallyAvailable now (records.map m.onRecord) hin : Run ε _) =
      tallyAvailable now records hin := by
  induction records generalizing hin with
  | nil => rfl
  | cons r rest ih =>
    simp only [map_cons, tallyAvailable, heldUntil_onRecord, ih]
    rfl

theorem countAvailableForRun_mapRecords (debug) (t : Tables (ShardRecord σ κ ρ))
    (now tenant run) :
    ((t.mapRecords m.onRecord).countAvailableForRun debug now tenant run : Run ε _) =
      t.countAvailableForRun debug now tenant run := by
  simp only [Tables.countAvailableForRun, Tables.runRecords_mapRecords, bind_map_left,
    tallyAvailable_onRecord]
  rfl

/-! ## Operations -/

structure ShardRecord.SameStored (r r' : ShardRecord σ κ ρ) : Prop where
  spec : r'.spec = r.spec
  cursor : r'.cursor = r.cursor
  spawned : r'.spawned = r.spawned

theorem FieldMap.Agrees.of_sameStored (h : m.Agrees rd rd' r) (hs : r.SameStored r') :
    m.Agrees rd rd' r' := by
  constructor <;> simp only [hs.spec, hs.cursor, hs.spawned]
  exacts [h.rangeStart, h.rangeEnd, h.metadata, h.lastKey, h.token, h.spawned, h.spawnedLen]

theorem sameStored_grantLease (h : grantLease now duration tenant key worker r = .ok (lease, r')) :
    r.SameStored r' := by
  obtain ⟨-, -, -, -, -, -, -, -, rfl⟩ := grantLease_eq_ok h
  exact ⟨rfl, rfl, rfl⟩

theorem sameStored_extendLease (h : extendLease now duration tenant lease r = .ok (deadline, r')) :
    r.SameStored r' := by
  obtain ⟨-, -, -, rfl⟩ := extendLease_eq_ok h
  exact ⟨rfl, rfl, rfl⟩

theorem sameStored_markDone (h : (markDone r opId hash now : Run ε _) = .ok r') :
    r.SameStored r' := by
  obtain ⟨-, -, -, rfl⟩ := markDone_eq_ok h
  exact ⟨rfl, rfl, rfl⟩

theorem sameStored_markParked (h : (markParked r reason opId hash now : Run ε _) = .ok r') :
    r.SameStored r' := by
  obtain ⟨-, -, -, rfl⟩ := markParked_eq_ok h
  exact ⟨rfl, rfl, rfl⟩

theorem sameStored_markUnparked (h : (markUnparked r opId hash now : Run ε _) = .ok r') :
    r.SameStored r' := by
  obtain ⟨-, -, -, -, -, rfl⟩ := markUnparked_eq_ok h
  exact ⟨rfl, rfl, rfl⟩

theorem sameStored_logOp (h : (r.logOp kind opId hash now : Run ε _) = .ok r') :
    r.SameStored r' := by
  obtain ⟨-, -, -, rfl⟩ := ShardRecord.logOp_eq_ok h
  exact ⟨rfl, rfl, rfl⟩

variable {t : Tables (ShardRecord σ κ ρ)} {env : Env} {debug : Bool} {now : LogicalTime}
  {tenant : TenantId}

abbrev FieldMap.onResult (m : FieldMap σ κ ρ σ' κ' ρ') :
    α × Tables (ShardRecord σ κ ρ) → α × Tables (ShardRecord σ' κ' ρ') :=
  Prod.map id (Tables.mapRecords m.onRecord)

theorem acquire_mapRecords (h : m.AgreesOn rd rd' t) (key) (worker) :
    acquireAndRestoreInto debug now tenant key worker rd' (t.mapRecords m.onRecord) =
      m.onResult <$> acquireAndRestoreInto debug now tenant key worker rd t := by
  simp only [acquireAndRestoreInto, Tables.getShard_mapRecords, okOr_map, bind_map_left, map_bind]
  refine bind_congr_ok fun r hr => ?_
  rw [show (t.mapRecords m.onRecord).config = t.config from rfl, grantLease_onRecord, bind_map_left]
  refine bind_congr_ok fun granted hg => ?_
  obtain ⟨_, _⟩ := granted
  have ha := (h _ _ r (okOr_eq_ok.mp hr)).of_sameStored (sameStored_grantLease hg)
  simp only [Prod.map, id, ha.snapshot, Tables.setShard_mapRecords, countAvailableForRun_mapRecords]
  rfl

theorem renew_mapRecords (h : m.AgreesOn rd rd' t) (lease) :
    renew debug now tenant lease rd' (t.mapRecords m.onRecord) =
      m.onResult <$> renew debug now tenant lease rd t := by
  simp only [renew, Tables.getShard_mapRecords, okOr_map, bind_map_left, map_bind]
  refine bind_congr_ok fun r hr => ?_
  rw [show (t.mapRecords m.onRecord).config = t.config from rfl, extendLease_onRecord,
    bind_map_left]
  refine bind_congr_ok fun extended he => ?_
  have ha := (h _ _ r (okOr_eq_ok.mp hr)).of_sameStored (sameStored_extendLease he)
  simp only [Prod.map, id, ha.assertInvariants, Tables.setShard_mapRecords,
    countAvailableForRun_mapRecords]
  rfl

theorem parkShard_mapRecords (h : m.AgreesOn rd rd' t) (lease) (reason : ParkReason) (opId : OpId) :
    parkShard env now tenant lease reason opId rd' (t.mapRecords m.onRecord) =
      m.onResult <$> parkShard env now tenant lease reason opId rd t := by
  simp only [parkShard, Tables.getShard_mapRecords, okOr_map, bind_map_left, map_bind]
  refine bind_congr_ok fun r hr => bind_congr_ok fun hash _ => ?_
  rw [checkOpIdempotency_onRecord]
  refine bind_congr_ok fun found _ => ?_
  cases found with
  | some entry => rfl
  | none =>
    simp only [map_bind, validateLease_onRecord, markParked_onRecord, bind_map_left]
    refine bind_congr_ok fun _ _ => bind_congr_ok fun r' hm => ?_
    have ha := (h _ _ r (okOr_eq_ok.mp hr)).of_sameStored (sameStored_markParked hm)
    rw [ha.assertInvariants, Tables.setShard_mapRecords]
    rfl

theorem unparkShard_mapRecords (h : m.AgreesOn rd rd' t) (key : ShardKey) (opId : OpId) :
    unparkShard env now tenant key opId rd' (t.mapRecords m.onRecord) =
      m.onResult <$> unparkShard env now tenant key opId rd t := by
  simp only [unparkShard, Tables.getShard_mapRecords, okOr_map, bind_map_left, map_bind]
  refine bind_congr_ok fun hash _ => bind_congr_ok fun r hr =>
    bind_congr_ok fun _ _ => bind_congr_ok fun runRecord _ =>
    bind_congr_ok fun _ _ => ?_
  refine bind_congr_ok fun found _ => ?_
  cases found with
  | some entry => rfl
  | none =>
    simp only [map_bind, markUnparked_onRecord, bind_map_left]
    refine bind_congr_ok fun _ _ => bind_congr_ok fun r' hm => ?_
    have ha :=
      (h _ _ r (okOr_eq_ok.mp hr)).of_sameStored (sameStored_markUnparked hm)
    rw [ha.assertInvariants, Tables.setShard_mapRecords]
    rfl

/-! ## Queries -/

theorem mem_runRecords (h : (t.runRecords tenant run : Run ε _) = .ok records) :
    ∀ r ∈ records, ∃ key, t.getShard tenant key = some r := by
  unfold Tables.runRecords at h
  generalize t.runShardIds tenant run = ids at h
  induction ids generalizing records with
  | nil =>
    cases h
    simp
  | cons id rest ih =>
    obtain ⟨_, hg, h⟩ := bind_eq_ok.mp h
    obtain ⟨_, hre, h⟩ := bind_eq_ok.mp h
    cases h
    intro r hr
    rcases mem_cons.mp hr with rfl | hr
    · exact ⟨_, expect_eq_ok.mp hg⟩
    · exact ih hre r hr

theorem observeAll_onRecord (h : ∀ r ∈ records, m.Agrees rd rd' r) (progress) :
    (observeAll debug now rd' (records.map m.onRecord) progress : Run ε _) =
      observeAll debug now rd records progress := by
  induction records generalizing progress with
  | nil => rfl
  | cons r rest ih =>
    have hl : rd'.lastKey (m.onRecord r).cursor = rd.lastKey r.cursor :=
      (h r mem_cons_self).lastKey
    simp only [map_cons, observeAll, isLeasedAt_onRecord, hl,
      ih fun r' hr' => h r' (mem_cons_of_mem _ hr')]
    rfl

theorem getRunProgress_mapRecords (h : m.AgreesOn rd rd' t) (run) :
    getRunProgress debug now tenant run rd' (t.mapRecords m.onRecord) =
      getRunProgress debug now tenant run rd t := by
  simp only [getRunProgress, Tables.runRecords_mapRecords, bind_map_left]
  refine bind_congr_ok fun _ _ => bind_congr_ok fun records hre => ?_
  refine observeAll_onRecord (fun r hr => ?_) _
  obtain ⟨_, hk⟩ := mem_runRecords hre r hr
  exact h _ _ r hk

theorem summarize_onRecord (h : ∀ r ∈ records, m.Agrees rd rd' r) (filter) :
    (summarize filter now rd' (records.map m.onRecord) : Run ε _) =
      summarize filter now rd records := by
  induction records with
  | nil => rfl
  | cons r rest ih =>
    have hr := h r mem_cons_self
    have hf : filter.matchesRecord (m.onRecord r) now = filter.matchesRecord r now := rfl
    have hs : (ShardSummary.fromRecord (m.onRecord r) now
        (rd'.lastKey (m.onRecord r).cursor).widen (rd'.rangeStart (m.onRecord r).spec).widen
        (rd'.rangeEnd (m.onRecord r).spec).widen (rd'.spawnedLen (m.onRecord r).spawned) :
          Run ε _) =
        ShardSummary.fromRecord r now (rd.lastKey r.cursor).widen (rd.rangeStart r.spec).widen
          (rd.rangeEnd r.spec).widen (rd.spawnedLen r.spawned) := by
      simp only [FieldMap.onRecord, hr.lastKey, hr.rangeStart, hr.rangeEnd, hr.spawnedLen]
      rfl
    simp [map_cons, summarize, hf, hs, ih fun r' hr' => h r' (mem_cons_of_mem _ hr')]

theorem listShards_mapRecords (h : m.AgreesOn rd rd' t) (run filter) :
    listShards now tenant run filter rd' (t.mapRecords m.onRecord) =
      listShards now tenant run filter rd t := by
  simp only [listShards, Tables.runRecords_mapRecords, bind_map_left]
  refine bind_congr_ok fun _ _ => bind_congr_ok fun records hre => ?_
  rw [summarize_onRecord fun r hr => ?_]
  obtain ⟨_, hk⟩ := mem_runRecords hre r hr
  exact h _ _ r hk

/-! ## Claims -/

theorem scanCandidates_mapRecords (run ids) (earliest) :
    (scanCandidates now tenant run (t.mapRecords m.onRecord) ids earliest : Run ε _) =
      scanCandidates now tenant run t ids earliest := by
  induction ids generalizing earliest with
  | nil => rfl
  | cons id rest ih =>
    simp only [scanCandidates, Tables.getShard_mapRecords, expect_map, bind_map_left, ih,
      heldUntil_onRecord]
    rfl

theorem collectClaimCandidates_mapRecords (run) :
    collectClaimCandidates now tenant run (t.mapRecords m.onRecord) =
      collectClaimCandidates now tenant run t := by
  simp only [collectClaimCandidates, scanCandidates_mapRecords]
  rfl

theorem tryCandidates_mapRecords (h : m.AgreesOn rd rd' t) (run worker total ids)
    (earliest) (missing) :
    tryCandidates debug now tenant run worker total rd' (t.mapRecords m.onRecord) ids earliest
        missing =
      m.onResult <$> tryCandidates debug now tenant run worker total rd t ids earliest missing := by
  induction ids generalizing earliest missing with
  | nil =>
    simp only [tryCandidates, map_bind]
    rfl
  | cons id rest ih =>
    unfold tryCandidates
    rw [acquire_mapRecords h]
    cases acquireAndRestoreInto debug now tenant ⟨run, id⟩ worker rd t with
    | ok result | panic p => rfl
    | err e =>
      cases e with
      | alreadyLeased owner deadline | shardTerminal shard status => exact ih _ _
      | tenantMismatch expected => rfl
      | shardNotFound shard =>
        simp [map_err, map_bind, ih]

theorem claimNextAvailable_mapRecords (h : m.AgreesOn rd rd' t) (run worker) :
    claimNextAvailable debug now tenant run worker rd' (t.mapRecords m.onRecord) =
      m.onResult <$> claimNextAvailable debug now tenant run worker rd t := by
  unfold claimNextAvailable
  rw [show checkCooldown (t.mapRecords m.onRecord) worker now = checkCooldown t worker now from rfl]
  cases checkCooldown t worker now with
  | some retryAfter => rfl
  | none =>
    simp only [defaultClaimNextAvailable, collectClaimCandidates_mapRecords,
      tryCandidates_mapRecords h, map_bind, bind_assoc, bind_map_left]
    refine bind_congr_ok fun found _ => bind_congr_ok fun _ _ =>
      bind_congr_ok fun result _ => ?_
    obtain ⟨result, t1⟩ := result
    have hr : (recordClaim debug worker now (t1.mapRecords m.onRecord) : Run ClaimError _) =
        Tables.mapRecords m.onRecord <$> recordClaim debug worker now t1 := by
      unfold recordClaim
      rw [show (t1.mapRecords m.onRecord).config = t1.config from rfl]
      split
      · simp only [map_bind]
        rfl
      · rfl
    simp only [Prod.map, id, hr, bind_map_left]
    rfl

/-! ## Runs -/

theorem createRun_mapRecords (run) (config) :
    createRun now tenant run config (t.mapRecords m.onRecord) =
      m.onResult <$> createRun now tenant run config t := by
  simp only [createRun, map_bind]
  rfl

theorem finishRun_mapRecords (payload) (target) (kind)
    (requireActive) (run) (opId) :
    finishRun env payload target kind requireActive now tenant run opId (t.mapRecords m.onRecord) =
      m.onResult <$> finishRun env payload target kind requireActive now tenant run opId t := by
  simp only [finishRun, map_bind]
  refine bind_congr_ok fun hash _ => bind_congr_ok fun record _ =>
    bind_congr_ok fun _ _ => bind_congr_ok fun found _ => ?_
  cases found with
  | some entry | none =>
    simp only [map_bind]
    rfl

/-! ## Read-only phases of the operations that allocate -/

theorem cursorOpPrelude_mapRecords (h : m.AgreesOn rd rd' t) (payload) (lease newCursor)
    (opId) :
    cursorOpPrelude env payload now tenant lease newCursor opId rd' (t.mapRecords m.onRecord) =
      Option.map (Prod.map id m.onRecord) <$>
        cursorOpPrelude env payload now tenant lease newCursor opId rd t := by
  simp only [cursorOpPrelude, Tables.getShard_mapRecords, okOr_map, bind_map_left, map_bind]
  refine bind_congr_ok fun r hr => bind_congr_ok fun hash _ => ?_
  rw [checkOpIdempotency_onRecord]
  refine bind_congr_ok fun found _ => ?_
  cases found with
  | some entry => rfl
  | none =>
    simp only [map_bind, validateLease_onRecord, (h _ _ r (okOr_eq_ok.mp hr)).validateCursor]
    rfl

theorem splitReplacePrelude_onRecord (h : m.Agrees rd rd' r) (lease) (plan)
    (opId) :
    splitReplacePrelude env now tenant lease plan opId rd' (m.onRecord r) =
      splitReplacePrelude env now tenant lease plan opId rd r := by
  have hl : rd'.spawnedLen (m.onRecord r).spawned = rd.spawnedLen r.spawned := h.spawnedLen
  simp only [splitReplacePrelude, checkOpIdempotency_onRecord, validateLease_onRecord, h.range, hl]
  rfl

theorem splitResidualPrelude_onRecord (h : m.Agrees rd rd' r) (lease) (plan)
    (opId) :
    splitResidualPrelude env now tenant lease plan opId rd' (m.onRecord r) =
      splitResidualPrelude env now tenant lease plan opId rd r := by
  have hle : rd'.spawnedLen (m.onRecord r).spawned = rd.spawnedLen r.spawned := h.spawnedLen
  have hs : rd'.spawned (m.onRecord r).spawned = rd.spawned r.spawned := h.spawned
  have hl : rd'.lastKey (m.onRecord r).cursor = rd.lastKey r.cursor := h.lastKey
  simp only [splitResidualPrelude, h.range, hle, hs, hl]
  rfl

theorem registerShardsPrelude_mapRecords (run shards) (opId) :
    registerShardsPrelude env tenant run shards opId (t.mapRecords m.onRecord) =
      registerShardsPrelude env tenant run shards opId t := by
  simp only [registerShardsPrelude, Tables.checkShardLimits_mapRecords]
  rfl

end

end GossipRs
