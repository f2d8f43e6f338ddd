import GossipRs.Persistence.Observation
import GossipRs.Runtime.CheckpointAggregator
import GossipRs.Lib.Checks

/-! The in-memory findings sink (`gossip-persistence-inmemory/findings.rs`): findings and
occurrences are immutable, observations are merged. The source compares an observation's id with the
derived one; here the id is the derived one. -/

namespace GossipRs.Persistence

open Lib
open Option (none_or some_or)
open GossipRs.Runtime (FindingsCommitReceipt)

structure FindingRecord where
  tenantId : TenantId
  stableItemId : StableItemId
  ruleFingerprint : RuleFingerprint
  secretHash : SecretHash
deriving DecidableEq

@[ext]
structure OccurrenceRecord where
  tenantId : TenantId
  findingId : FindingId
  objectVersionId : ObjectVersionId
  byteOffset : UInt64
  byteLength : UInt64
  length_ne : byteLength ≠ 0

instance : DecidableEq OccurrenceRecord :=
  fun _ _ => decidable_of_iff _ OccurrenceRecord.ext_iff.symm

structure FindingsUpsertBatch where
  findings : List FindingRecord
  occurrences : List OccurrenceRecord
  observations : List ObservationRecord

structure FindingsDurable where
  findings : FMap (TenantId × FindingId) FindingRecord
  occurrences : FMap (TenantId × OccurrenceId) OccurrenceRecord
  observations : FMap (TenantId × ObservationId) ObservationRecord

def FindingsDurable.empty : FindingsDurable := ⟨∅, ∅, ∅⟩

variable (H : IdentityHash)

def FindingRecord.findingId (r : FindingRecord) : FindingId :=
  H.deriveFindingId r.tenantId r.stableItemId r.ruleFingerprint r.secretHash

def OccurrenceRecord.occurrenceId (r : OccurrenceRecord) : OccurrenceId :=
  H.deriveOccurrenceId r.findingId r.objectVersionId r.byteOffset r.byteLength

def FindingRecord.key (r : FindingRecord) : TenantId × FindingId := (r.tenantId, r.findingId H)

def OccurrenceRecord.key (r : OccurrenceRecord) : TenantId × OccurrenceId :=
  (r.tenantId, r.occurrenceId H)

def ObservationRecord.key (r : ObservationRecord) : TenantId × ObservationId :=
  (r.tenantId, r.observationId H)

namespace FindingsUpsertBatch

def expectedTenant (batch : FindingsUpsertBatch) : Option TenantId :=
  ((batch.findings.head?.map (·.tenantId)).or (batch.occurrences.head?.map (·.tenantId))).or
    (batch.observations.head?.map (·.tenantId))

def validateTenantConsistency (batch : FindingsUpsertBatch) : Except PersistenceInputError Unit :=
  match batch.expectedTenant with
  | none => .ok ()
  | some expected =>
    failIf (¬ ((∀ f ∈ batch.findings, f.tenantId = expected) ∧
        (∀ o ∈ batch.occurrences, o.tenantId = expected) ∧
        ∀ o ∈ batch.observations, o.tenantId = expected))
      .inconsistentTenant

def validateReferentialIntegrity (batch : FindingsUpsertBatch) :
    Except PersistenceInputError Unit := do
  batch.validateTenantConsistency
  failIf (¬ ∀ o ∈ batch.occurrences, ∃ f ∈ batch.findings, f.findingId H = o.findingId)
    (.orphanedReference "OccurrenceRecord" "FindingRecord")
  failIf (¬ ∀ obs ∈ batch.observations, ∃ o ∈ batch.occurrences,
      o.occurrenceId H = obs.occurrenceId)
    (.orphanedReference "ObservationRecord" "OccurrenceRecord")

def isEmpty (batch : FindingsUpsertBatch) : Bool :=
  batch.findings.isEmpty && batch.occurrences.isEmpty && batch.observations.isEmpty

end FindingsUpsertBatch

/-! ### Applying a payload -/

section Stage

variable {K R : Type} [DecidableEq K] [DecidableEq R]

/-- Collect the rows of an immutable layer: a row must pass the layer's check and agree with the row
of its key in the batch or the durable state. -/
def stageImmutable (key : R → K) (check : R → Except InMemoryPersistenceError Unit)
    (conflict : R → InMemoryPersistenceError) (durable batch : FMap K R) :
    List R → Except InMemoryPersistenceError (FMap K R)
  | [] => .ok batch
  | r :: rest =>
    match check r with
    | .error err => .error err
    | .ok () =>
      match batch.lookup (key r) with
      | some existing =>
        if existing ≠ r then .error (conflict r)
        else stageImmutable key check conflict durable batch rest
      | none =>
        if ∃ existing, durable.lookup (key r) = some existing ∧ existing ≠ r then
          .error (conflict r)
        else stageImmutable key check conflict durable (batch.insert (key r) r) rest

end Stage

def stageFindings (durable : FindingsDurable) (findings : List FindingRecord) :
    Except InMemoryPersistenceError (FMap (TenantId × FindingId) FindingRecord) :=
  stageImmutable (·.key H) (fun _ => .ok ()) (fun f => .findingConflict f.tenantId (f.findingId H))
    durable.findings ∅ findings

def stageOccurrences (durable : FindingsDurable)
    (findings : FMap (TenantId × FindingId) FindingRecord) (occurrences : List OccurrenceRecord) :
    Except InMemoryPersistenceError (FMap (TenantId × OccurrenceId) OccurrenceRecord) :=
  stageImmutable (·.key H)
    (fun o =>
      if (findings.lookup (o.tenantId, o.findingId)).isNone ∧
          (durable.findings.lookup (o.tenantId, o.findingId)).isNone then
        .error (.missingFinding o.tenantId o.findingId (o.occurrenceId H))
      else .ok ())
    (fun o => .occurrenceConflict o.tenantId (o.occurrenceId H)) durable.occurrences ∅ occurrences

def priorObservation (durable : FindingsDurable)
    (batch : FMap (TenantId × ObservationId) ObservationRecord) (o : ObservationRecord) :
    Option ObservationRecord :=
  (batch.lookup (o.key H)).or (durable.observations.lookup (o.key H))

def stageObservations (durable : FindingsDurable)
    (occurrences : FMap (TenantId × OccurrenceId) OccurrenceRecord)
    (batch : FMap (TenantId × ObservationId) ObservationRecord) : List ObservationRecord →
    Except InMemoryPersistenceError (FMap (TenantId × ObservationId) ObservationRecord)
  | [] => .ok batch
  | o :: rest =>
    if (occurrences.lookup (o.tenantId, o.occurrenceId)).isNone ∧
        (durable.occurrences.lookup (o.tenantId, o.occurrenceId)).isNone then
      .error (.missingOccurrence o.tenantId o.occurrenceId (o.observationId H))
    else
      match priorObservation H durable batch o with
      | some existing =>
        match mergeObservations H existing o with
        | .error err => .error err
        | .ok merged => stageObservations durable occurrences (batch.insert (o.key H) merged) rest
      | none => stageObservations durable occurrences (batch.insert (o.key H) o) rest

def stagePayload (durable : FindingsDurable) (payload : FindingsUpsertBatch) :
    Except InMemoryPersistenceError FindingsDurable := do
  let findings ← stageFindings H durable payload.findings
  let occurrences ← stageOccurrences H durable findings payload.occurrences
  let observations ← stageObservations H durable occurrences ∅ payload.observations
  return ⟨findings, occurrences, observations⟩

def writeStaged (durable batch : FindingsDurable) : FindingsDurable where
  findings := durable.findings ∪ batch.findings
  occurrences := durable.occurrences ∪ batch.occurrences
  observations := batch.observations ∪ durable.observations

def applyFindingsPayload (durable : FindingsDurable) (failCommitRemaining : Nat)
    (payload : FindingsUpsertBatch) :
    Except InMemoryPersistenceError FindingsCommitReceipt × FindingsDurable × Nat :=
  if 0 < failCommitRemaining then
    (.error (.injectedCommitFailure .findings), durable, failCommitRemaining - 1)
  else
    match stagePayload H durable payload with
    | .error err => (.error err, durable, failCommitRemaining)
    | .ok batch =>
      (.ok ⟨FMap.size batch.findings, FMap.size batch.occurrences, FMap.size batch.observations⟩,
        writeStaged durable batch, failCommitRemaining)

def findingsBackend : StoreBackend FindingsUpsertBatch FindingsCommitReceipt FindingsDurable where
  kind := .findings
  apply := applyFindingsPayload H

abbrev InMemoryFindingsSink := StoreState FindingsUpsertBatch FindingsCommitReceipt FindingsDurable

/-- `upsert_batch`: the checks that need no durable state, then the submission. -/
def InMemoryFindingsSink.upsertBatch (sink : InMemoryFindingsSink) (batch : FindingsUpsertBatch) :
    Except InMemoryPersistenceError Nat × InMemoryFindingsSink × List FindingsUpsertBatch :=
  match batch.validateTenantConsistency with
  | .error err => (.error (.batchValidation err), sink, [])
  | .ok () => sink.submit (findingsBackend H) batch

/-! ### What an application leaves -/

section Stage

variable {K R : Type} [DecidableEq K] [DecidableEq R]

def AgreesWith (durable batch : FMap K R) : Prop :=
  ∀ k r, batch.lookup k = some r → ∀ existing, durable.lookup k = some existing → existing = r

theorem stageImmutable_spec {batch batch' : FMap K R} (hag : AgreesWith durable batch)
    (h : stageImmutable key check conflict durable batch rows = .ok batch') :
    AgreesWith durable batch' ∧ (∀ k r, batch.lookup k = some r → batch'.lookup k = some r) ∧
      ∀ r ∈ rows, batch'.lookup (key r) = some r := by
  induction rows generalizing batch with
  | nil =>
    cases h
    refine ⟨hag, fun k r hr => hr, fun r hr => ?_⟩
    cases hr
  | cons r rest ih =>
    rw [stageImmutable] at h
    split at h
    · cases h
    split at h
    next existing he =>
      split at h
      · cases h
      next hs =>
        obtain ⟨ha, hke, hro⟩ := ih hag h
        refine ⟨ha, hke, fun x hx => ?_⟩
        rcases List.mem_cons.mp hx with rfl | hx
        · rw [← not_not.mp hs]
          exact hke _ _ (by rw [not_not.mp hs] at he ⊢; exact he)
        · exact hro x hx
    next hn =>
      split at h
      · cases h
      next hd =>
        have ha' : AgreesWith durable (batch.insert (key r) r) := by
          intro k x hx existing he
          rw [FMap.lookup_insert_eq] at hx
          split at hx
          · next hk =>
            cases hx
            subst hk
            by_contra hne
            exact hd ⟨existing, he, hne⟩
          · exact hag k x hx existing he
        obtain ⟨ha, hke, hro⟩ := ih ha' h
        refine ⟨ha, fun k x hx => hke k x ?_, fun x hx => ?_⟩
        · rw [FMap.lookup_insert_eq, if_neg, hx]
          rintro rfl
          rw [hn] at hx
          cases hx
        rcases List.mem_cons.mp hx with rfl | hx
        · exact hke _ _ (Finmap.lookup_insert batch)
        · exact hro x hx

omit [DecidableEq R] in
theorem lookup_union (a b : FMap K R) (k : K) :
    (a ∪ b).lookup k = (a.lookup k).or (b.lookup k) := by
  cases h : a.lookup k with
  | none => rw [Finmap.lookup_union_right (Finmap.lookup_eq_none.mp h), none_or]
  | some r =>
    rw [Finmap.lookup_union_left (Finmap.mem_of_lookup_eq_some h), h, some_or]

omit [DecidableEq R] in
theorem lookup_written {durable batch : FMap K R} (ha : AgreesWith durable batch) {k : K} {r : R}
    (h : batch.lookup k = some r) : (durable ∪ batch).lookup k = some r := by
  rw [lookup_union]
  cases hd : durable.lookup k with
  | none => rw [none_or, h]
  | some existing => rw [some_or, ha k r h existing hd]

end Stage

variable {H}

theorem mergeObservations_identity (h : mergeObservations H a b = .ok m) :
    SameIdentity a m ∧ SameIdentity b m ∧ a.seenAt ≤ m.seenAt ∧ b.seenAt ≤ m.seenAt := by
  rw [mergeObservations] at h
  split at h
  · cases h
  next hs =>
    simp only [ne_eq, not_or, not_not] at hs
    obtain ⟨ht, -, hoc, hp, ho⟩ := hs
    cases h
    have hseen := seenAt_merge a b
    exact ⟨⟨rfl, rfl, rfl, rfl⟩, ⟨ht.symm, hoc.symm, hp.symm, ho.symm⟩,
      (le_max_left _ _).trans_eq hseen.symm, (le_max_right _ _).trans_eq hseen.symm⟩

def Covers (o : ObservationRecord) (row : Option ObservationRecord) : Prop :=
  ∃ stored, row = some stored ∧ SameIdentity o stored ∧ o.seenAt ≤ stored.seenAt

theorem Covers.trans (hid : SameIdentity a b) (hl : a.seenAt ≤ b.seenAt) (h : Covers b row) :
    Covers a row := by
  obtain ⟨stored, hr, hs, hse⟩ := h
  exact ⟨stored, hr, hid.trans hs, hl.trans hse⟩

theorem Covers.refl (o) : Covers o (some o) :=
  ⟨o, rfl, .refl o, le_refl _⟩

def CoversDurable (durable : FindingsDurable)
    (batch : FMap (TenantId × ObservationId) ObservationRecord) : Prop :=
  ∀ k o r, durable.observations.lookup k = some o → batch.lookup k = some r → Covers o (some r)

theorem stageObservations_spec (hc : CoversDurable durable batch)
    (h : stageObservations H durable occurrences batch rows = .ok batch') :
    CoversDurable durable batch' ∧ (∀ k o, batch.lookup k = some o → Covers o (batch'.lookup k)) ∧
      ∀ o ∈ rows, Covers o (batch'.lookup (o.key H)) := by
  induction rows generalizing batch with
  | nil =>
    cases h
    refine ⟨hc, fun k o ho => ho ▸ Covers.refl o, fun o ho => ?_⟩
    cases ho
  | cons o rest ih =>
    rw [stageObservations] at h
    split at h
    · cases h
    -- either way a row is written that covers the observation and the row before it
    have hst : ∃ row, (∀ prior, priorObservation H durable batch o = some prior →
          Covers prior (some row)) ∧ Covers o (some row) ∧
        stageObservations H durable occurrences (batch.insert (o.key H) row) rest = .ok batch' := by
      split at h
      next existing hpr =>
        split at h
        · cases h
        next merged hm =>
          obtain ⟨he, ho, hl, hl'⟩ := mergeObservations_identity hm
          refine ⟨merged, fun prior hp => ?_, ⟨merged, rfl, ho, hl'⟩, h⟩
          rw [hpr] at hp
          cases hp
          exact ⟨merged, rfl, he, hl⟩
      next hpr =>
        refine ⟨o, fun prior hp => ?_, .refl o, h⟩
        rw [hpr] at hp
        cases hp
    obtain ⟨row, hpr, ho, hre⟩ := hst
    have hc' : CoversDurable durable (batch.insert (o.key H) row) := by
      intro k x r hx hr
      rw [FMap.lookup_insert_eq] at hr
      split at hr
      · next hk =>
        cases hr
        subst hk
        cases hb : batch.lookup (o.key H) with
        | none =>
          refine hpr x ?_
          rw [priorObservation, hb, none_or, hx]
        | some kept =>
          obtain ⟨stored, hs, hid, hl⟩ := hc _ x kept hx hb
          cases hs
          refine Covers.trans hid hl (hpr kept ?_)
          rw [priorObservation, hb, some_or]
      · exact hc k x r hx hr
    obtain ⟨hd, hke, hro⟩ := ih hc' hre
    have hrow : Covers row (batch'.lookup (o.key H)) := hke _ row (Finmap.lookup_insert batch)
    refine ⟨hd, fun k x hx => ?_, fun x hx => ?_⟩
    · by_cases hk : k = o.key H
      · subst hk
        obtain ⟨stored, hs, hid, hl⟩ := hpr x (by rw [priorObservation, hx, some_or])
        cases hs
        exact Covers.trans hid hl hrow
      · refine hke k x ?_
        rw [FMap.lookup_insert_eq, if_neg hk, hx]
    rcases List.mem_cons.mp hx with rfl | hx
    · obtain ⟨stored, hs, hid, hl⟩ := ho
      cases hs
      exact Covers.trans hid hl hrow
    · exact hro x hx

/-- A later state keeps the immutable rows and covers the observations. -/
structure Extends (before after : FindingsDurable) : Prop where
  findings : ∀ k r, before.findings.lookup k = some r → after.findings.lookup k = some r
  occurrences : ∀ k r, before.occurrences.lookup k = some r → after.occurrences.lookup k = some r
  observations : ∀ k o, before.observations.lookup k = some o →
    Covers o (after.observations.lookup k)

theorem Extends.refl (d) : Extends d d :=
  ⟨fun _ _ h => h, fun _ _ h => h, fun _ o h => h ▸ Covers.refl o⟩

structure Holds (H : IdentityHash) (batch : FindingsUpsertBatch) (d : FindingsDurable) : Prop where
  findings : ∀ f ∈ batch.findings, d.findings.lookup (f.key H) = some f
  occurrences : ∀ o ∈ batch.occurrences, d.occurrences.lookup (o.key H) = some o
  observations : ∀ o ∈ batch.observations, Covers o (d.observations.lookup (o.key H))

theorem agreesWith_empty [DecidableEq K] (durable) :
    AgreesWith durable (∅ : FMap K R) := by
  intro k r hr
  cases hr

theorem stagePayload_spec (h : stagePayload H durable payload = .ok batch) :
    Extends durable (writeStaged durable batch) ∧ Holds H payload (writeStaged durable batch) := by
  obtain ⟨_, hf, h⟩ := checks_eq_ok.mp h
  obtain ⟨_, ho, h⟩ := checks_eq_ok.mp h
  obtain ⟨observations, hob, h⟩ := checks_eq_ok.mp h
  cases h
  obtain ⟨hfa, -, hfr⟩ := stageImmutable_spec (agreesWith_empty _) hf
  obtain ⟨hoa, -, hor⟩ := stageImmutable_spec (agreesWith_empty _) ho
  have he : CoversDurable durable ∅ := by
    intro k o r _ hr
    cases hr
  obtain ⟨hc, -, hro⟩ := stageObservations_spec he hob
  refine ⟨⟨fun k r hr => ?_, fun k r hr => ?_, fun k o hk => ?_⟩,
    ⟨fun f hm => lookup_written hfa (hfr f hm),
      fun o hm => lookup_written hoa (hor o hm), fun o hm => ?_⟩⟩
  · rw [writeStaged, lookup_union, hr, some_or]
  · rw [writeStaged, lookup_union, hr, some_or]
  · rw [writeStaged, lookup_union]
    cases hb : observations.lookup k with
    | none =>
      rw [none_or, hk]
      exact .refl o
    | some r =>
      rw [some_or]
      exact hc k o r hk hb
  obtain ⟨stored, hs, hid, hl⟩ := hro o hm
  rw [writeStaged, lookup_union, hs, some_or]
  exact ⟨stored, rfl, hid, hl⟩

/-- A failed application changes nothing, a success makes the whole batch durable and loses nothing.
-/
theorem applyFindingsPayload_spec
    (h : applyFindingsPayload H durable n payload = (result, durable', n')) :
    Extends durable durable' ∧ (result.isOk → Holds H payload durable') := by
  rw [applyFindingsPayload] at h
  split at h
  · cases h
    refine ⟨.refl durable, fun ho => ?_⟩
    cases ho
  split at h
  · cases h
    refine ⟨.refl durable, fun ho => ?_⟩
    cases ho
  next batch hs =>
    cases h
    obtain ⟨he, hh⟩ := stagePayload_spec hs
    exact ⟨he, fun _ => hh⟩

end GossipRs.Persistence
