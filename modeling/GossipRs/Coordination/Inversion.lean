import GossipRs.Coordination.RunOps

/-! What a successful operation says: the checks it passed and the change it made, for any reader of
the stored fields. -/

namespace GossipRs

open Lib Stdx Outcome List
open Payload (hash_eq_ok park)

variable {ε σ κ ρ R : Type} {record record' : ShardRecord σ κ ρ}

structure LeaseValid (now : LogicalTime) (tenant : TenantId) (lease : Lease)
    (record : ShardRecord σ κ ρ) : Prop where
  now_pos : 0 < now
  tenant_eq : record.tenant = tenant
  active : record.status = .active
  fence_eq : lease.fence = record.fenceEpoch
  held : ∃ holder, record.lease = some holder ∧ now < holder.deadline ∧ holder.owner = lease.owner

theorem isTerminal_eq_false {status : ShardStatus} :
    status.isTerminal = false ↔ status = .active := by
  cases status <;> simp [ShardStatus.isTerminal]

variable {lease : Lease}

theorem validateLease_eq_ok :
    validateLease now tenant lease record = .ok u ↔ LeaseValid now tenant lease record := by
  simp only [validateLease, check_eq_ok]
  simp only [bind_eq_ok, assert_eq_ok, ensure_eq_ok, okOr_eq_ok, isTerminal_eq_false]
  constructor
  · rintro ⟨hn, ht, ha, hf, ho, hh, _, hl, how⟩
    exact ⟨hn, ht, ha, hf, ho, hh, hl, how⟩
  · rintro ⟨hn, ht, ha, hf, ho, hh, hl, how⟩
    exact ⟨hn, ht, ha, hf, ho, hh, (), hl, how⟩

@[simp] theorem fromCoordError_eq_ok {a : α} : fromCoordError accepts x = .ok a ↔ x = .ok a :=
  convertErr_eq_ok

variable {opId : OpId} {hash : UInt64}

theorem checkOpIdempotency_eq_ok : checkOpIdempotency record opId hash = .ok found ↔
    hash ≠ 0 ∧ record.opLogLookup opId = found ∧ ∀ e ∈ found, e.payloadHash = hash := by
  unfold checkOpIdempotency
  rw [check_eq_ok, assert_eq_ok]
  refine and_congr_right fun _ => ?_
  cases record.opLogLookup opId with
  | none => cases found <;> simp
  | some e =>
    simp only [check_eq_ok, ensure_eq_ok, pure_eq, Outcome.ok.injEq]
    grind

variable {worker : WorkerId}

theorem grantLease_eq_ok
    (h : grantLease now duration tenant key worker record = .ok (lease, record')) :
    record.tenant = tenant ∧ record.status = .active ∧ (∀ ho ∈ record.lease, ¬ now < ho.deadline) ∧
      (FenceEpoch.increment record.fenceEpoch : Run AcquireError _) = .ok lease.fence ∧
      lease.tenant = tenant ∧ lease.shardKey = key ∧ lease.owner = worker ∧
      lease.deadline = LogicalTime.saturatingAdd now duration ∧
      record' = { record with
        fenceEpoch := lease.fence
        lease := some ⟨worker, lease.deadline, lease.deadline_pos⟩ } := by
  unfold grantLease at h
  obtain ⟨ht, h⟩ := check_eq_ok.mp h
  obtain ⟨ha, h⟩ := check_eq_ok.mp h
  rw [ensure_eq_ok] at ht ha
  have hf : (∀ ho ∈ record.lease, ¬ now < ho.deadline) ∧ (do
      let record ← record.advanceFence
      let deadline := LogicalTime.saturatingAdd now duration
      let ho ← LeaseHolder.new worker deadline
      let lease ← Lease.new tenant key.run key.shard worker record.fenceEpoch deadline
      return (lease, { record with lease := some ho }) : Run AcquireError _) =
        .ok (lease, record') := by
    cases hl : record.lease with
    | none =>
      rw [hl] at h
      exact ⟨by simp, h⟩
    | some ho =>
      rw [hl] at h
      obtain ⟨hlt, h⟩ := check_eq_ok.mp h
      rw [ensure_eq_ok] at hlt
      exact ⟨by simpa using hlt, h⟩
  obtain ⟨hf, h⟩ := hf
  obtain ⟨_, hr1, h⟩ := bind_eq_ok.mp h
  obtain ⟨fence, hfe, rfl⟩ := ShardRecord.advanceFence_eq_ok hr1
  obtain ⟨ho, hh, h⟩ := bind_eq_ok.mp h
  obtain ⟨_, hle, h⟩ := bind_eq_ok.mp h
  cases h
  unfold LeaseHolder.new at hh
  split at hh
  · cases hh
    unfold Lease.new at hle
    split at hle
    · cases hle
      exact ⟨ht, ha, hf, hfe, rfl, rfl, rfl, rfl, rfl⟩
    · cases hle
  · cases hh

theorem extendLease_eq_ok
    (h : extendLease now duration tenant lease record = .ok (deadline, record')) :
    LeaseValid now tenant lease record ∧ deadline = LogicalTime.saturatingAdd now duration ∧
      ∃ hd, record' = { record with lease := some ⟨lease.owner, deadline, hd⟩ } := by
  obtain ⟨hl, h⟩ := check_eq_ok.mp h
  rw [fromCoordError_eq_ok, validateLease_eq_ok] at hl
  obtain ⟨_, hh, h⟩ := bind_eq_ok.mp h
  cases h
  unfold LeaseHolder.new at hh
  split at hh
  · cases hh
    exact ⟨hl, rfl, _, rfl⟩
  · cases hh

theorem markDone_eq_ok (h : (markDone record opId hash now : Run ε _) = .ok record') :
    ∃ (ht : 0 < now) (hh : hash ≠ 0), (∀ e ∈ record.opLog, e.opId ≠ opId) ∧
      record' = { record with status := .done, lease := none }.withEntry
        ⟨opId, .complete, .completed, hash, now, ht, hh⟩ :=
  ShardRecord.logOp_eq_ok (check_eq_ok.mp h).2

theorem markParked_eq_ok (h : (markParked record reason opId hash now : Run ε _) = .ok record') :
    ∃ (ht : 0 < now) (hh : hash ≠ 0), (∀ e ∈ record.opLog, e.opId ≠ opId) ∧
      record' = { record with
        status := .parked
        parkReason := some reason
        lease := none }.withEntry ⟨opId, .park, .completed, hash, now, ht, hh⟩ :=
  ShardRecord.logOp_eq_ok (check_eq_ok.mp h).2

theorem markUnparked_eq_ok (h : (markUnparked record opId hash now : Run ε _) = .ok record') :
    ∃ fence, (FenceEpoch.increment record.fenceEpoch : Run ε _) = .ok fence ∧
      ∃ (ht : 0 < now) (hh : hash ≠ 0), (∀ e ∈ record.opLog, e.opId ≠ opId) ∧
      record' = { record with
          fenceEpoch := fence, parkReason := none, status := .active, lease := none }.withEntry
        ⟨opId, .unpark, .completed, hash, now, ht, hh⟩ := by
  obtain ⟨_, hr1, h⟩ := bind_eq_ok.mp h
  obtain ⟨fence, hf, rfl⟩ := ShardRecord.advanceFence_eq_ok hr1
  exact ⟨fence, hf, ShardRecord.logOp_eq_ok h⟩

variable {result : AcquireResult} {outcome : IdempotentOutcome Unit}

section

variable {debug : Bool} {env : Env} {now : LogicalTime} {tenant : TenantId} {rd : Reader σ κ ρ}
  {t t' : Tables (ShardRecord σ κ ρ)}

theorem acquire_eq_ok
    (h : acquireAndRestoreInto debug now tenant key worker rd t = .ok (result, t')) :
    ∃ record record', t.getShard tenant key = some record ∧
      grantLease now t.config.defaultLeaseDuration tenant key worker record =
        .ok (result.lease, record') ∧
      (rd.snapshot record' : Run AcquireError _) = .ok result.snapshot ∧
      t' = t.setShard tenant key record' := by
  obtain ⟨record, hge, h⟩ := bind_eq_ok.mp h
  obtain ⟨⟨lease, record'⟩, hg, h⟩ := bind_eq_ok.mp h
  obtain ⟨snapshot, hs, h⟩ := bind_eq_ok.mp h
  obtain ⟨_, -, h⟩ := bind_eq_ok.mp h
  cases h
  exact ⟨record, record', okOr_eq_ok.mp hge, hg, hs, rfl⟩

theorem renew_eq_ok {result} (h : renew debug now tenant lease rd t = .ok (result, t')) :
    ∃ record record', t.getShard tenant lease.shardKey = some record ∧
      extendLease now t.config.defaultLeaseDuration tenant lease record =
        .ok (result.newDeadline, record') ∧
      (rd.assertInvariants record' : Run RenewError Unit) = .ok () ∧
      t' = t.setShard tenant lease.shardKey record' := by
  obtain ⟨record, hg, h⟩ := bind_eq_ok.mp h
  obtain ⟨⟨_, record'⟩, he, h⟩ := bind_eq_ok.mp h
  obtain ⟨hinv, h⟩ := check_eq_ok.mp h
  obtain ⟨_, -, h⟩ := bind_eq_ok.mp h
  cases h
  exact ⟨record, record', okOr_eq_ok.mp hg, he, hinv, rfl⟩

theorem parkShard_eq_ok (h : parkShard env now tenant lease reason opId rd t = .ok (outcome, t')) :
    ∃ record hash, t.getShard tenant lease.shardKey = some record ∧ (park reason).HashIs env hash ∧
      ((∃ entry, record.opLogLookup opId = some entry ∧ entry.payloadHash = hash ∧
          outcome = .replayed () ∧ t' = t) ∨
        (record.opLogLookup opId = none ∧ LeaseValid now tenant lease record ∧ ∃ record',
          (markParked record reason opId hash now : Run ParkError _) = .ok record' ∧
          (rd.assertInvariants record' : Run ParkError Unit) = .ok () ∧
          outcome = .executed () ∧ t' = t.setShard tenant lease.shardKey record')) := by
  obtain ⟨record, hg, h⟩ := bind_eq_ok.mp h
  obtain ⟨hash, hh, h⟩ := bind_eq_ok.mp h
  obtain ⟨found, hf, h⟩ := bind_eq_ok.mp h
  rw [fromCoordError_eq_ok] at hf
  refine ⟨record, hash, okOr_eq_ok.mp hg, hash_eq_ok.mp hh, ?_⟩
  cases found with
  | some entry =>
    cases h
    obtain ⟨-, hlo, hm⟩ := checkOpIdempotency_eq_ok.mp hf
    exact .inl ⟨entry, hlo, hm entry rfl, rfl, rfl⟩
  | none =>
    obtain ⟨hl, h⟩ := check_eq_ok.mp h
    obtain ⟨record', hma, h⟩ := bind_eq_ok.mp h
    obtain ⟨hinv, h⟩ := check_eq_ok.mp h
    cases h
    rw [fromCoordError_eq_ok, validateLease_eq_ok] at hl
    exact .inr ⟨(checkOpIdempotency_eq_ok.mp hf).2.1, hl, record', hma, hinv, rfl, rfl⟩

theorem unparkFromCoordError_eq_ok {a : α} : UnparkError.fromCoordError x = .ok a ↔ x = .ok a := by
  unfold UnparkError.fromCoordError
  split <;> simp

theorem unparkShard_eq_ok (h : unparkShard env now tenant key opId rd t = .ok (outcome, t')) :
    ∃ record runRecord hash, t.getShard tenant key = some record ∧ record.tenant = tenant ∧
      t.runs.lookup (tenant, key.run) = some runRecord ∧ runRecord.status.isTerminal = false ∧
      (Payload.unparkShard key).HashIs env hash ∧
      ((∃ entry, record.opLogLookup opId = some entry ∧ entry.payloadHash = hash ∧
          outcome = .replayed () ∧ t' = t) ∨
        (record.opLogLookup opId = none ∧ record.status = .parked ∧ ∃ record',
          (markUnparked record opId hash now : Run UnparkError _) = .ok record' ∧
          (rd.assertInvariants record' : Run UnparkError Unit) = .ok () ∧
          outcome = .executed () ∧ t' = t.setShard tenant key record')) := by
  obtain ⟨hash, hh, h⟩ := bind_eq_ok.mp h
  obtain ⟨record, hg, h⟩ := bind_eq_ok.mp h
  obtain ⟨ht, h⟩ := check_eq_ok.mp h
  obtain ⟨runRecord, hru, h⟩ := bind_eq_ok.mp h
  obtain ⟨hr, h⟩ := check_eq_ok.mp h
  obtain ⟨found, hf, h⟩ := bind_eq_ok.mp h
  rw [unparkFromCoordError_eq_ok] at hf
  refine ⟨record, runRecord, hash, okOr_eq_ok.mp hg, ensure_eq_ok.mp ht,
    expect_eq_ok.mp hru, ensure_eq_ok.mp hr, hash_eq_ok.mp hh, ?_⟩
  cases found with
  | some entry =>
    cases h
    obtain ⟨-, hl, hm⟩ := checkOpIdempotency_eq_ok.mp hf
    exact .inl ⟨entry, hl, hm entry rfl, rfl, rfl⟩
  | none =>
    obtain ⟨hp, h⟩ := check_eq_ok.mp h
    obtain ⟨record', hma, h⟩ := bind_eq_ok.mp h
    obtain ⟨hinv, h⟩ := check_eq_ok.mp h
    cases h
    exact .inr ⟨(checkOpIdempotency_eq_ok.mp hf).2.1, ensure_eq_ok.mp hp, record',
      hma, hinv, rfl, rfl⟩

theorem cursorOpPrelude_eq_ok
    (h : cursorOpPrelude env payload now tenant lease newCursor opId rd t = .ok found) :
    ∃ record hash, t.getShard tenant lease.shardKey = some record ∧ payload.HashIs env hash ∧
      ((∃ entry, record.opLogLookup opId = some entry ∧ entry.payloadHash = hash ∧ found = none) ∨
        (record.opLogLookup opId = none ∧ LeaseValid now tenant lease record ∧
          rd.validateCursor record newCursor = .ok () ∧ found = some (hash, record))) := by
  obtain ⟨record, hg, h⟩ := bind_eq_ok.mp h
  obtain ⟨hash, hh, h⟩ := bind_eq_ok.mp h
  obtain ⟨logged, hf, h⟩ := bind_eq_ok.mp h
  rw [fromCoordError_eq_ok] at hf
  refine ⟨record, hash, okOr_eq_ok.mp hg, hash_eq_ok.mp hh, ?_⟩
  cases logged with
  | some entry =>
    cases h
    obtain ⟨-, hlo, hm⟩ := checkOpIdempotency_eq_ok.mp hf
    exact .inl ⟨entry, hlo, hm entry rfl, rfl⟩
  | none =>
    obtain ⟨hl, h⟩ := check_eq_ok.mp h
    obtain ⟨hc, h⟩ := check_eq_ok.mp h
    cases h
    rw [fromCoordError_eq_ok] at hl hc
    exact .inr ⟨(checkOpIdempotency_eq_ok.mp hf).2.1, validateLease_eq_ok.mp hl, hc,
      rfl⟩

theorem length_splitChildOrder (plan) :
    (splitChildOrder plan).length = plan.children.length := length_insertionSort _ _

theorem map_spec_splitChildOrder (plan) :
    (splitChildOrder plan).map SplitReplaceChild.spec =
      orderedSpecs (plan.children.map SplitReplaceChild.spec) :=
  map_insertionSort _ _ _ _ fun _ _ _ _ => Iff.rfl

structure SplitReplaceReady (now : LogicalTime) (tenant : TenantId) (lease : Lease)
    (plan : SplitReplacePlan) (rd : Reader σ κ ρ) (parent : ShardRecord σ κ ρ) : Prop where
  lease : LeaseValid now tenant lease parent
  two_le : 2 ≤ plan.children.length
  chain : ∃ start stop, (rd.range parent.spec : Run CoordError _) = .ok (start, stop) ∧
    Chain start stop ((splitChildOrder plan).map SplitReplaceChild.spec)
  canSpawn : canSpawn (rd.spawnedLen parent.spawned) (splitChildOrder plan).length

theorem splitReplaceValidatePreconditions_eq_ok
    (h : splitReplaceValidatePreconditions env readRange spawnedLen plan = .ok sorted) :
    ∃ start stop, readRange = .ok (start, stop) ∧ 2 ≤ plan.children.length ∧
      Chain start stop ((splitChildOrder plan).map SplitReplaceChild.spec) ∧
      canSpawn spawnedLen (splitChildOrder plan).length ∧ sorted = splitChildOrder plan := by
  obtain ⟨⟨start, stop⟩, hr, h⟩ := bind_eq_ok.mp h
  obtain ⟨hc, h⟩ := check_eq_ok.mp h
  obtain ⟨hs, h⟩ := check_eq_ok.mp h
  cases h
  obtain ⟨ht, hch⟩ := validateSplitCoverageBounds_eq_ok (mapErr_eq_ok.mp hc)
  rw [length_map] at ht
  rw [map_spec_splitChildOrder]
  exact ⟨start, stop, hr, ht, hch, ensure_eq_ok.mp hs, rfl⟩

theorem splitReplacePrelude_eq_ok
    (h : splitReplacePrelude env now tenant lease plan opId rd record = .ok found) :
    ∃ hash, (Payload.splitReplace plan).HashIs env hash ∧
      ((∃ entry, record.opLogLookup opId = some entry ∧ entry.payloadHash = hash ∧
          plan.children.length ≤ rd.spawnedLen record.spawned ∧
          found = .inl (childIds env record.run record.shard opId
            (rd.spawnedLen record.spawned - plan.children.length) plan.children.length)) ∨
        (record.opLogLookup opId = none ∧ SplitReplaceReady now tenant lease plan rd record ∧
          found = .inr (hash, splitChildOrder plan))) := by
  obtain ⟨hash, hh, h⟩ := bind_eq_ok.mp h
  obtain ⟨logged, hf, h⟩ := bind_eq_ok.mp h
  rw [fromCoordError_eq_ok] at hf
  refine ⟨hash, hash_eq_ok.mp hh, ?_⟩
  cases logged with
  | some entry =>
    obtain ⟨-, hlo, hm⟩ := checkOpIdempotency_eq_ok.mp hf
    obtain ⟨_, hid, h⟩ := bind_eq_ok.mp h
    cases h
    obtain ⟨hle, hid⟩ := check_eq_ok.mp hid
    cases hid
    rw [assert_eq_ok, length_splitChildOrder] at hle
    exact .inl ⟨entry, hlo, hm entry rfl, hle, by rw [length_splitChildOrder]⟩
  | none =>
    obtain ⟨hl, h⟩ := check_eq_ok.mp h
    obtain ⟨_, hp, h⟩ := bind_eq_ok.mp h
    cases h
    rw [fromCoordError_eq_ok] at hl hp
    obtain ⟨start, stop, hr, ht, hc, hs, rfl⟩ :=
      splitReplaceValidatePreconditions_eq_ok hp
    exact .inr ⟨(checkOpIdempotency_eq_ok.mp hf).2.1,
      ⟨validateLease_eq_ok.mp hl, ht, ⟨start, stop, hr, hc⟩, hs⟩, rfl⟩

structure SplitResidualReady (now : LogicalTime) (tenant : TenantId) (lease : Lease)
    (plan : SplitResidualPlan) (rd : Reader σ κ ρ) (parent : ShardRecord σ κ ρ) : Prop where
  lease : LeaseValid now tenant lease parent
  parent_valid : plan.parentNewSpec.Valid
  residual_valid : plan.residualSpec.Valid
  chain : ∃ start stop, (rd.range parent.spec : Run CoordError _) = .ok (start, stop) ∧
    plan.parentNewSpec.keyRangeStart = start ∧ plan.residualSpec.keyRangeEnd = stop ∧
    Chain start stop (orderedSpecs [plan.parentNewSpec, plan.residualSpec])
  cursor : ∃ lastKey, rd.lastKey parent.cursor = .ok lastKey ∧
    ∀ key ∈ lastKey, plan.parentNewSpec.containsKey key
  canSpawn : canSpawn (rd.spawnedLen parent.spawned) 1

theorem splitResidualValidatePreconditions_eq_ok
    (h : splitResidualValidatePreconditions env now tenant lease record (rd.range record.spec)
      (rd.lastKey record.cursor).widen (rd.spawnedLen record.spawned) plan = .ok u) :
    SplitResidualReady now tenant lease plan rd record := by
  obtain ⟨hl, h⟩ := check_eq_ok.mp h
  obtain ⟨hp, h⟩ := check_eq_ok.mp h
  obtain ⟨hr, h⟩ := check_eq_ok.mp h
  obtain ⟨⟨start, stop⟩, hra, h⟩ := bind_eq_ok.mp h
  obtain ⟨hco, h⟩ := check_eq_ok.mp h
  obtain ⟨lastKey, hla, h⟩ := bind_eq_ok.mp h
  obtain ⟨hc, h⟩ := check_eq_ok.mp h
  refine ⟨validateLease_eq_ok.mp hl, ShardSpec.validateRef_eq_ok.mp (mapErr_eq_ok.mp hp),
    ShardSpec.validateRef_eq_ok.mp (mapErr_eq_ok.mp hr),
    ⟨start, stop, hra, validateResidualSplitBounds_eq_ok (mapErr_eq_ok.mp hco)⟩,
    ⟨lastKey, widen_eq_ok.mp hla, ?_⟩, ensure_eq_ok.mp h⟩
  intro key hk
  cases hk
  exact ensure_eq_ok.mp hc

theorem findReplayedResidual_eq_ok {spawned : Run ε (List ShardId)}
    (h : findReplayedResidual env record spawnedLen spawned opId = .ok found) :
    ∃ ids, spawned = .ok ids ∧ found = scanResidual env record.run record.shard opId ids 0 := by
  obtain ⟨-, h⟩ := check_eq_ok.mp h
  obtain ⟨ids, hid, h⟩ := bind_eq_ok.mp h
  cases h
  exact ⟨ids, hid, rfl⟩

theorem splitResidualPrelude_eq_ok
    (h : splitResidualPrelude env now tenant lease plan opId rd record = .ok found) :
    ∃ hash ids, (Payload.splitResidual plan).HashIs env hash ∧ rd.spawned record.spawned = .ok ids ∧
      ((∃ residual, scanResidual env record.run record.shard opId ids 0 = some residual ∧
          (∀ entry, record.opLogLookup opId = some entry → entry.payloadHash = hash) ∧
          found = .inl residual) ∨
        (record.opLogLookup opId = none ∧
          scanResidual env record.run record.shard opId ids 0 = none ∧
          SplitResidualReady now tenant lease plan rd record ∧ found = .inr hash)) := by
  obtain ⟨hash, hh, h⟩ := bind_eq_ok.mp h
  obtain ⟨found?, hf, h⟩ := bind_eq_ok.mp h
  rw [fromCoordError_eq_ok] at hf
  obtain ⟨logged, hen, hf⟩ := bind_eq_ok.mp hf
  cases logged with
  | some entry =>
    obtain ⟨-, hl, hm⟩ := checkOpIdempotency_eq_ok.mp hen
    obtain ⟨_, hs, hf⟩ := bind_eq_ok.mp hf
    obtain ⟨residual, hre, hf⟩ := bind_eq_ok.mp hf
    cases hf
    cases h
    rw [expect_eq_ok] at hre
    obtain ⟨ids, hid, hs⟩ := findReplayedResidual_eq_ok hs
    refine ⟨hash, ids, hash_eq_ok.mp hh, widen_eq_ok.mp hid,
      .inl ⟨residual, hs.symm.trans hre, ?_, rfl⟩⟩
    intro entry' he'
    cases hl.symm.trans he'
    exact hm entry rfl
  | none =>
    obtain ⟨-, hl, -⟩ := checkOpIdempotency_eq_ok.mp hen
    obtain ⟨ids, hid, rfl⟩ := findReplayedResidual_eq_ok hf
    refine ⟨hash, ids, hash_eq_ok.mp hh, widen_eq_ok.mp hid, ?_⟩
    cases hs : scanResidual env record.run record.shard opId ids 0 with
    | some residual =>
      rw [hs] at h
      cases h
      exact .inl ⟨residual, rfl, fun _ he => absurd (hl.symm.trans he) (by simp), rfl⟩
    | none =>
      rw [hs] at h
      obtain ⟨hr, h⟩ := check_eq_ok.mp h
      cases h
      rw [fromCoordError_eq_ok] at hr
      exact .inr ⟨hl, rfl, splitResidualValidatePreconditions_eq_ok hr, rfl⟩

theorem tryCandidates_eq_ok :
    ∀ {ids earliest missing},
    tryCandidates debug now tenant run worker total rd t ids earliest missing = .ok (result, t') →
    ∃ id ∈ ids, acquireAndRestoreInto debug now tenant ⟨run, id⟩ worker rd t = .ok (result, t')
  | [], _, _, h => by
    obtain ⟨-, h⟩ := check_eq_ok.mp h
    cases h
  | id :: rest, _, _, h => by
    unfold tryCandidates at h
    split at h
    next ha =>
      cases h
      exact ⟨id, mem_cons_self, ha⟩
    · cases h
    · obtain ⟨id', hm, ha⟩ := tryCandidates_eq_ok h
      exact ⟨id', mem_cons_of_mem _ hm, ha⟩
    · obtain ⟨id', hm, ha⟩ := tryCandidates_eq_ok h
      exact ⟨id', mem_cons_of_mem _ hm, ha⟩
    · obtain ⟨-, h⟩ := check_eq_ok.mp h
      obtain ⟨id', hm, ha⟩ := tryCandidates_eq_ok h
      exact ⟨id', mem_cons_of_mem _ hm, ha⟩
    · cases h

theorem claimNextAvailable_eq_ok
    (h : claimNextAvailable debug now tenant run worker rd t = .ok (result, t')) :
    ∃ id t1 cooldowns,
      acquireAndRestoreInto debug now tenant ⟨run, id⟩ worker rd t = .ok (result, t1) ∧
      t' = { t1 with claimCooldowns := cooldowns } := by
  unfold claimNextAvailable at h
  split at h
  · cases h
  obtain ⟨⟨_, t1⟩, hc, h⟩ := bind_eq_ok.mp h
  obtain ⟨_, hr, h⟩ := bind_eq_ok.mp h
  cases h
  obtain ⟨⟨_, _⟩, -, hc⟩ := bind_eq_ok.mp hc
  obtain ⟨-, hc⟩ := check_eq_ok.mp hc
  obtain ⟨id, -, ha⟩ := tryCandidates_eq_ok hc
  unfold recordClaim at hr
  split at hr
  · obtain ⟨-, hr⟩ := check_eq_ok.mp hr
    cases hr
    exact ⟨id, t1, _, ha, rfl⟩
  · cases hr
    exact ⟨id, t', t'.claimCooldowns, ha, rfl⟩

end

variable {entry : RunOpLogEntry}

section

variable {env : Env} {now : LogicalTime} {tenant : TenantId} {run : RunId} {t t' : Tables R}

def RunRecord.initial (tenant : TenantId) (run : RunId) (config : RunConfig) (now : LogicalTime) :
    RunRecord :=
  ⟨tenant, run, config, .initializing, now, none, [], []⟩

theorem createRun_eq_ok {record} (h : createRun now tenant run config t = .ok (record, t')) :
    t.runs.lookup (tenant, run) = none ∧ record = .initial tenant run config now ∧
      (record.assertInvariants : Run CreateRunError Unit) = .ok () ∧
      t' = { t with runs := t.runs.insert (tenant, run) record } := by
  obtain ⟨hn, h⟩ := check_eq_ok.mp h
  obtain ⟨hinv, h⟩ := check_eq_ok.mp h
  cases h
  exact ⟨ensure_eq_ok.mp hn, rfl, hinv, rfl⟩

theorem runCheckOpIdempotency_eq_ok {record : RunRecord} :
    record.checkOpIdempotency opId hash = .ok found ↔
      hash ≠ 0 ∧ record.opLogLookup opId = found ∧ ∀ e ∈ found, e.payloadHash = hash := by
  unfold RunRecord.checkOpIdempotency
  rw [check_eq_ok, assert_eq_ok]
  refine and_congr_right fun _ => ?_
  cases record.opLogLookup opId with
  | none => cases found <;> simp
  | some e =>
    simp only [check_eq_ok, ensure_eq_ok, pure_eq, Outcome.ok.injEq]
    grind

def RunRecord.withEntry (record : RunRecord) (entry : RunOpLogEntry) : RunRecord :=
  { record with opLog := pushOverwrite RunRecord.opLogCap record.opLog entry }

theorem runOpLogPush_eq_ok {record record' : RunRecord}
    (h : (record.opLogPush entry : Run ε _) = .ok record') :
    (∀ e ∈ record.opLog, e.opId ≠ entry.opId) ∧ record' = record.withEntry entry := by
  obtain ⟨hf, h⟩ := check_eq_ok.mp h
  obtain ⟨-, h⟩ := check_eq_ok.mp h
  cases h
  exact ⟨assert_eq_ok.mp hf, rfl⟩

theorem runOpLogEntry_new_eq_ok {result}
    (h : (RunOpLogEntry.new opId kind hash now result : Run ε _) = .ok entry) :
    entry.opId = opId ∧ entry.kind = kind ∧ entry.payloadHash = hash ∧
      entry.executedAt = now ∧ entry.result = result := by
  unfold RunOpLogEntry.new at h
  split at h
  · split at h
    · split at h
      · cases h
        exact ⟨rfl, rfl, rfl, rfl, rfl⟩
      · cases h
    · cases h
  · cases h

theorem activateRun_eq_ok {record record'}
    (h : (activateRun record ids opId hash now : Run ε _) = .ok record') :
    ∃ entry, entry.opId = opId ∧ entry.kind = .registerShards ∧ entry.payloadHash = hash ∧
      entry.executedAt = now ∧ entry.result = .registeredShards ids ∧
      (∀ e ∈ record.opLog, e.opId ≠ opId) ∧
      record' = { record with status := .active, rootShards := ids }.withEntry entry ∧
      (record'.assertInvariants : Run ε Unit) = .ok () := by
  obtain ⟨-, h⟩ := check_eq_ok.mp h
  obtain ⟨entry, he, h⟩ := bind_eq_ok.mp h
  obtain ⟨_, hp, h⟩ := bind_eq_ok.mp h
  obtain ⟨hinv, h⟩ := check_eq_ok.mp h
  cases h
  obtain ⟨ho, hk, hh, ht, hr⟩ := runOpLogEntry_new_eq_ok he
  obtain ⟨hf, rfl⟩ := runOpLogPush_eq_ok hp
  exact ⟨entry, ho, hk, hh, ht, hr, ho ▸ hf, rfl, hinv⟩

theorem finishRun_eq_ok (h : finishRun env payload target kind requireActive now tenant run opId t =
      .ok (outcome, t')) :
    ∃ record hash, t.runs.lookup (tenant, run) = some record ∧ record.tenant = tenant ∧
      payload.HashIs env hash ∧
      ((∃ entry, record.opLogLookup opId = some entry ∧ entry.payloadHash = hash ∧
          entry.kind = kind ∧ outcome = .replayed () ∧ t' = t) ∨
        (record.opLogLookup opId = none ∧ record.status.isTerminal = false ∧
          (requireActive = true → record.status = .active) ∧
          ∃ entry record', entry.opId = opId ∧ entry.kind = kind ∧ entry.payloadHash = hash ∧
            entry.executedAt = now ∧ entry.result = .ack ∧
            (∀ e ∈ record.opLog, e.opId ≠ opId) ∧
            record' = { record with status := target, completedAt := some now }.withEntry entry ∧
            (record'.assertInvariants : Run RunTransitionError Unit) = .ok () ∧
            outcome = .executed () ∧
            t' = { t with runs := t.runs.insert (tenant, run) record' })) := by
  obtain ⟨hash, hh, h⟩ := bind_eq_ok.mp h
  obtain ⟨record, hg, h⟩ := bind_eq_ok.mp h
  obtain ⟨ht, h⟩ := check_eq_ok.mp h
  obtain ⟨found, hf, h⟩ := bind_eq_ok.mp h
  rw [mapErr_eq_ok] at hf
  refine ⟨record, hash, okOr_eq_ok.mp hg, ensure_eq_ok.mp ht, hash_eq_ok.mp hh, ?_⟩
  cases found with
  | some entry =>
    obtain ⟨hk, h⟩ := check_eq_ok.mp h
    cases h
    obtain ⟨-, hl, hm⟩ := runCheckOpIdempotency_eq_ok.mp hf
    exact .inl ⟨entry, hl, hm entry rfl, assert_eq_ok.mp hk, rfl, rfl⟩
  | none =>
    obtain ⟨hr, h⟩ := check_eq_ok.mp h
    obtain ⟨hac, h⟩ := check_eq_ok.mp h
    obtain ⟨record', ha, h⟩ := bind_eq_ok.mp h
    cases h
    obtain ⟨-, ha⟩ := check_eq_ok.mp ha
    obtain ⟨entry, hen, ha⟩ := bind_eq_ok.mp ha
    obtain ⟨_, hp, ha⟩ := bind_eq_ok.mp ha
    obtain ⟨hinv, ha⟩ := check_eq_ok.mp ha
    cases ha
    obtain ⟨ho, hk, he, hti, hre⟩ := runOpLogEntry_new_eq_ok hen
    obtain ⟨hn, hrec⟩ := runOpLogPush_eq_ok hp
    exact .inr ⟨(runCheckOpIdempotency_eq_ok.mp hf).2.1, ensure_eq_ok.mp hr,
      ensure_eq_ok.mp hac, entry, record', ho, hk, he, hti, hre,
      ho ▸ hn, hrec, hinv, rfl, rfl⟩

theorem registerShardsPrelude_eq_ok
    (h : registerShardsPrelude env tenant run shards opId t = .ok found) :
    ∃ record hash, t.runs.lookup (tenant, run) = some record ∧ record.tenant = tenant ∧
      (Payload.ofManifest shards).HashIs env hash ∧
      ((∃ entry ids, record.opLogLookup opId = some entry ∧ entry.payloadHash = hash ∧
          entry.kind = .registerShards ∧ entry.result = .registeredShards ids ∧
          found = .inl ids) ∨
        (record.opLogLookup opId = none ∧ record.status = .initializing ∧
          validateManifest shards = .ok () ∧
          t.checkShardLimits tenant shards.length 0 = .ok () ∧ found = .inr (hash, record))) := by
  obtain ⟨hash, hh, h⟩ := bind_eq_ok.mp h
  obtain ⟨record, hg, h⟩ := bind_eq_ok.mp h
  obtain ⟨ht, h⟩ := check_eq_ok.mp h
  obtain ⟨logged, hf, h⟩ := bind_eq_ok.mp h
  rw [mapErr_eq_ok] at hf
  refine ⟨record, hash, okOr_eq_ok.mp hg, ensure_eq_ok.mp ht, hash_eq_ok.mp hh, ?_⟩
  cases logged with
  | some entry =>
    obtain ⟨hk, h⟩ := check_eq_ok.mp h
    obtain ⟨-, hl, hma⟩ := runCheckOpIdempotency_eq_ok.mp hf
    cases hr : entry.result with
    | ack =>
      rw [hr] at h
      cases h
    | registeredShards ids =>
      rw [hr] at h
      cases h
      exact .inl ⟨entry, ids, hl, hma entry rfl, assert_eq_ok.mp hk, hr, rfl⟩
  | none =>
    obtain ⟨hin, h⟩ := check_eq_ok.mp h
    obtain ⟨hm, h⟩ := check_eq_ok.mp h
    obtain ⟨hli, h⟩ := check_eq_ok.mp h
    cases h
    exact .inr ⟨(runCheckOpIdempotency_eq_ok.mp hf).2.1, ensure_eq_ok.mp hin,
      mapErr_eq_ok.mp hm, convertErr_eq_ok.mp hli, rfl⟩

end

end GossipRs
