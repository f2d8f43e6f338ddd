import GossipRs.Persistence.Store

/-! Observation records (`persistence/findings.rs`), their merge in the in-memory sink
(`gossip-persistence-inmemory/findings.rs`) and the row merge of the PostgreSQL sink
(`gossip-findings-postgres/backend.rs`, `schema.rs`). Ids are derived from the other fields when a
record is built, so a record holds only those. -/

namespace GossipRs.Persistence

open Lib List

abbrev StableItemId := BitVec 256

abbrev RuleFingerprint := BitVec 256

abbrev SecretHash := BitVec 256

abbrev ObjectVersionId := BitVec 256

structure IdentityHash where
  deriveFindingId : TenantId → StableItemId → RuleFingerprint → SecretHash → FindingId
  deriveOccurrenceId : FindingId → ObjectVersionId → UInt64 → UInt64 → OccurrenceId
  deriveObservationId : TenantId → PolicyHash → OccurrenceId → ObservationId

structure Location where
  display : String
  url : Option String
deriving DecidableEq

structure ObservationRecord where
  tenantId : TenantId
  occurrenceId : OccurrenceId
  policyHash : PolicyHash
  ovidHash : OvidHash
  runId : RunId
  shardId : ShardId
  fenceEpoch : FenceEpoch
  seenAt : LogicalTime
  location : Option Location
deriving DecidableEq

variable (H : IdentityHash)

def ObservationRecord.observationId (r : ObservationRecord) : ObservationId :=
  H.deriveObservationId r.tenantId r.policyHash r.occurrenceId

/-! ### The in-memory merge -/

def provenanceSource (existing incoming : ObservationRecord) : ObservationRecord :=
  if existing.seenAt < incoming.seenAt then incoming
  else if incoming.seenAt < existing.seenAt then existing
  else if existing.location.isNone ∧ incoming.location.isSome then incoming
  else existing

def mergeObservations (existing incoming : ObservationRecord) :
    Except InMemoryPersistenceError ObservationRecord :=
  if existing.tenantId ≠ incoming.tenantId ∨
      existing.observationId H ≠ incoming.observationId H ∨
      existing.occurrenceId ≠ incoming.occurrenceId ∨
      existing.policyHash ≠ incoming.policyHash ∨
      existing.ovidHash ≠ incoming.ovidHash then
    .error (.observationConflict incoming.tenantId (incoming.observationId H))
  else
    let source := provenanceSource existing incoming
    .ok
      { tenantId := existing.tenantId
        occurrenceId := existing.occurrenceId
        policyHash := existing.policyHash
        ovidHash := existing.ovidHash
        runId := source.runId
        shardId := source.shardId
        fenceEpoch := source.fenceEpoch
        seenAt := source.seenAt
        location := (source.location.or existing.location).or incoming.location }

def foldObservations (stored : ObservationRecord) (records : List ObservationRecord) :
    Except InMemoryPersistenceError ObservationRecord :=
  records.foldlM (mergeObservations H) stored

/-! ### The PostgreSQL rows -/

structure ObservationRow where
  tenantId : TenantId
  observationId : ObservationId
  occurrenceId : OccurrenceId
  policyHash : PolicyHash
  ovidHash : OvidHash
  runId : Int
  shardId : Int
  fenceEpoch : Int
  seenAt : Int
  locationDisplay : Option String
  locationUrl : Option String
deriving DecidableEq

/-- `PgU64ConversionError::OrderedOutOfRange`. -/
structure PgU64ConversionError where
  field : String
  value : UInt64
deriving DecidableEq

inductive FindingsPgError where
  | schema (err : PgU64ConversionError)
  | observationConflict (tenantId : TenantId) (observationId : ObservationId)
deriving DecidableEq

def u64ToPgBigintBits (value : UInt64) : Int := value.toBitVec.toInt

def u64ToPgBigintChecked (value : UInt64) (field : String) : Except PgU64ConversionError Int :=
  if value.toNat < 2 ^ 63 then .ok value.toNat else .error ⟨field, value⟩

namespace ObservationRow

def fromRecord (r : ObservationRecord) : Except PgU64ConversionError ObservationRow := do
  let fenceEpoch ← u64ToPgBigintChecked r.fenceEpoch "fence_epoch"
  let seenAt ← u64ToPgBigintChecked r.seenAt "seen_at"
  return {
    tenantId := r.tenantId
    observationId := r.observationId H
    occurrenceId := r.occurrenceId
    policyHash := r.policyHash
    ovidHash := r.ovidHash
    runId := u64ToPgBigintBits r.runId.raw
    shardId := u64ToPgBigintBits r.shardId.raw
    fenceEpoch
    seenAt
    locationDisplay := r.location.map Location.display
    locationUrl := r.location.bind Location.url }

end ObservationRow

def mergeObservationRows (existing incoming : ObservationRow) :
    Except FindingsPgError ObservationRow :=
  if existing.tenantId ≠ incoming.tenantId ∨
      existing.observationId ≠ incoming.observationId ∨
      existing.occurrenceId ≠ incoming.occurrenceId ∨
      existing.policyHash ≠ incoming.policyHash ∨
      existing.ovidHash ≠ incoming.ovidHash then
    .error (.observationConflict incoming.tenantId incoming.observationId)
  else
    let useIncomingProvenance := existing.seenAt < incoming.seenAt ∨
      (incoming.seenAt = existing.seenAt ∧ existing.locationDisplay.isNone ∧
        incoming.locationDisplay.isSome)
    let winner := if useIncomingProvenance then incoming else existing
    let loser := if useIncomingProvenance then existing else incoming
    let locationSource := if winner.locationDisplay.isSome then winner else loser
    .ok
      { tenantId := existing.tenantId
        observationId := existing.observationId
        occurrenceId := existing.occurrenceId
        policyHash := existing.policyHash
        ovidHash := existing.ovidHash
        runId := winner.runId
        shardId := winner.shardId
        fenceEpoch := winner.fenceEpoch
        seenAt := max existing.seenAt incoming.seenAt
        locationDisplay := locationSource.locationDisplay
        locationUrl := locationSource.locationUrl }

/-- Merge a row into the rows kept so far, which are in the order of their first appearance. -/
def dedupeInto (row : ObservationRow) :
    List ObservationRow → Except FindingsPgError (List ObservationRow)
  | [] => .ok [row]
  | kept :: rest =>
    if kept.tenantId = row.tenantId ∧ kept.observationId = row.observationId then do
      let merged ← mergeObservationRows kept row
      return merged :: rest
    else do
      let rest ← dedupeInto row rest
      return kept :: rest

def dedupeObservationRows (rows : List ObservationRow) :
    Except FindingsPgError (List ObservationRow) :=
  rows.foldlM (fun kept row => dedupeInto row kept) []

/-- The PostgreSQL sink on one stored row: each batch is folded, and the upsert merges the rest into
the row. -/
def commitObservationBatches (stored : ObservationRow) (batches : List (List ObservationRow)) :
    Except FindingsPgError ObservationRow :=
  batches.foldlM (fun row batch => do
    let deduped ← dedupeObservationRows batch
    deduped.foldlM mergeObservationRows row) stored

/-! ### The two merges agree -/

structure SameIdentity (a b : ObservationRecord) : Prop where
  tenantId : a.tenantId = b.tenantId
  occurrenceId : a.occurrenceId = b.occurrenceId
  policyHash : a.policyHash = b.policyHash
  ovidHash : a.ovidHash = b.ovidHash

def rowOf (r : ObservationRecord) : ObservationRow where
  tenantId := r.tenantId
  observationId := r.observationId H
  occurrenceId := r.occurrenceId
  policyHash := r.policyHash
  ovidHash := r.ovidHash
  runId := u64ToPgBigintBits r.runId.raw
  shardId := u64ToPgBigintBits r.shardId.raw
  fenceEpoch := r.fenceEpoch.toNat
  seenAt := r.seenAt.toNat
  locationDisplay := r.location.map Location.display
  locationUrl := r.location.bind Location.url

def FitsColumns (r : ObservationRecord) : Prop :=
  r.fenceEpoch.toNat < 2 ^ 63 ∧ r.seenAt.toNat < 2 ^ 63

variable {H}

theorem fromRecord_eq_ok :
    ObservationRow.fromRecord H r = .ok row ↔ FitsColumns r ∧ row = rowOf H r := by
  rw [ObservationRow.fromRecord, u64ToPgBigintChecked, u64ToPgBigintChecked, FitsColumns]
  constructor
  · intro h
    split at h
    · split at h
      · cases h
        exact ⟨⟨‹_›, ‹_›⟩, rfl⟩
      · cases h
    · cases h
  rintro ⟨⟨hf, hs⟩, rfl⟩
  rw [if_pos hf, if_pos hs]
  rfl

theorem not_conflict (h : SameIdentity a b) :
    ¬ (a.tenantId ≠ b.tenantId ∨ a.observationId H ≠ b.observationId H ∨
      a.occurrenceId ≠ b.occurrenceId ∨ a.policyHash ≠ b.policyHash ∨ a.ovidHash ≠ b.ovidHash) := by
  have hid : a.observationId H = b.observationId H := by
    rw [ObservationRecord.observationId, ObservationRecord.observationId, h.tenantId, h.policyHash,
      h.occurrenceId]
  simp [h.tenantId, hid, h.occurrenceId, h.policyHash, h.ovidHash]

/-! ### The merge of records of one observation -/

/-- Time and provenance of a source, with a location, under the identity of a record. -/
def under (a source : ObservationRecord) (location : Option Location) : ObservationRecord :=
  { a with
    runId := source.runId
    shardId := source.shardId
    fenceEpoch := source.fenceEpoch
    seenAt := source.seenAt
    location }

def merge (a b : ObservationRecord) : ObservationRecord :=
  under a (provenanceSource a b)
    (((provenanceSource a b).location.or a.location).or b.location)

def SameProvenance (a b : ObservationRecord) : Prop :=
  a.runId = b.runId ∧ a.shardId = b.shardId ∧ a.fenceEpoch = b.fenceEpoch

@[simp] theorem under_seenAt : (under a x l).seenAt = x.seenAt := rfl

@[simp] theorem under_location : (under a x l).location = l := rfl

@[simp] theorem under_of_under : under a (under b y l) l' = under a y l' := rfl

theorem under_inj : under a x l = under a y l' ↔
    (SameProvenance x y ∧ x.seenAt = y.seenAt) ∧ l = l' := by
  simp [under, SameProvenance, and_assoc]

theorem merge_later (h : a.seenAt < b.seenAt) :
    merge a b = under a b (b.location.or a.location) := by
  cases hb : b.location <;> cases ha : a.location <;> simp [merge, provenanceSource, h, ha, hb]

theorem merge_earlier (h : b.seenAt < a.seenAt) :
    merge a b = under a a (a.location.or b.location) := by
  cases hb : b.location <;> cases ha : a.location <;>
    simp [merge, provenanceSource, h, not_lt.mpr h.le, ha, hb]

theorem merge_tie (h : b.seenAt = a.seenAt) (hl : a.location = none) :
    merge a b = under a (if b.location = none then a else b) b.location := by
  cases hb : b.location <;> simp [merge, provenanceSource, h, hl, hb]

theorem merge_located (h : b.seenAt ≤ a.seenAt) (hl : a.location ≠ none) : merge a b = a := by
  obtain ⟨l, hl⟩ := Option.ne_none_iff_exists'.mp hl
  rcases lt_or_eq_of_le h with hlt | he
  · rw [merge_earlier hlt, hl, Option.some_or, ← hl]
    rfl
  · have hsource : provenanceSource a b = a := by simp [provenanceSource, he, hl]
    rw [merge, hsource, hl, Option.some_or, Option.some_or, ← hl]
    rfl

theorem merge_bare (h : b.seenAt ≤ a.seenAt) (ha : a.location = none) (hb : b.location = none) :
    merge a b = a := by
  rcases lt_or_eq_of_le h with hlt | he
  · rw [merge_earlier hlt, hb, Option.or_none]
    rfl
  · rw [merge_tie he ha, if_pos hb, hb, ← ha]
    rfl

theorem seenAt_merge (a b) : (merge a b).seenAt = max a.seenAt b.seenAt := by
  rcases lt_trichotomy a.seenAt b.seenAt with h | h | h
  · rw [merge_later h, max_eq_right h.le]
    rfl
  · rw [h, max_self]
    simp only [merge, provenanceSource, under_seenAt, h, lt_irrefl, if_false]
    split_ifs <;> simp [h]
  · rw [merge_earlier h, max_eq_left h.le]
    rfl

theorem location_merge_eq_none :
    (merge a b).location = none ↔ a.location = none ∧ b.location = none := by
  simp only [merge, under_location, provenanceSource]
  split_ifs <;> cases a.location <;> cases b.location <;> simp

/-! ### Folding a batch -/

def newest (x : ObservationRecord) (l : List ObservationRecord) : ObservationRecord :=
  l.foldl (fun a b => if a.seenAt < b.seenAt then b else a) x

def firstLocated (l : List ObservationRecord) : Option ObservationRecord :=
  l.find? (·.location.isSome)

/-- The location of the last located record that is newer than a time and than all before it. -/
def risenLocation : LogicalTime → List ObservationRecord → Option Location
  | _, [] => none
  | t, r :: rest =>
    if t < r.seenAt then (risenLocation r.seenAt rest).or r.location else risenLocation t rest

def firstLocation (l : List ObservationRecord) : Option Location := l.findSome? (·.location)

/-- The location of a batch: of its last located record that is newer than all before it, or else
of its first located one. -/
def batchLocation (x : ObservationRecord) (l : List ObservationRecord) : Option Location :=
  ((risenLocation x.seenAt l).or x.location).or (firstLocation l)

/-- The record that a batch has its provenance from: the first located one if none is newer, or else
the first of the newest. -/
def origin (x : ObservationRecord) (l : List ObservationRecord) : ObservationRecord :=
  ((firstLocated (x :: l)).filter fun r => r.seenAt = (newest x l).seenAt).getD (newest x l)

theorem location_foldl (s) (l : List ObservationRecord) :
    (l.foldl merge s).location =
      (risenLocation s.seenAt l).or (s.location.or (firstLocation l)) := by
  induction l generalizing s with
  | nil => cases h : s.location <;> simp [risenLocation, firstLocation, h]
  | cons r rest ih =>
    rw [foldl_cons, ih, seenAt_merge, risenLocation]
    rcases lt_or_ge s.seenAt r.seenAt with h | h
    · rw [if_pos h, max_eq_right h.le, merge_later h]
      cases risenLocation r.seenAt rest <;> cases hr : r.location <;> cases s.location <;>
        simp [firstLocation, hr]
    · rw [if_neg (not_lt.mpr h), max_eq_left h]
      have hl : (merge s r).location = s.location.or r.location := by
        cases hs : s.location with
        | some l => rw [merge_located h (by simp [hs]), hs, Option.some_or]
        | none =>
          rcases lt_or_eq_of_le h with hlt | he
          · rw [merge_earlier hlt, hs]
            rfl
          · rw [merge_tie he hs]
            rfl
      rw [hl]
      cases risenLocation s.seenAt rest <;> cases hr : r.location <;> cases s.location <;>
        simp [firstLocation, hr]

theorem newest_concat (x l c) :
    newest x (l ++ [c]) = if (newest x l).seenAt < c.seenAt then c else newest x l := by
  rw [newest, foldl_concat]
  rfl

theorem seenAt_foldl (s) (l : List ObservationRecord) :
    (l.foldl merge s).seenAt = (newest s l).seenAt := by
  induction l using reverseRecOn with
  | nil => rfl
  | append_singleton l c ih =>
    rw [foldl_concat, seenAt_merge, ih, newest_concat]
    split
    next h => exact max_eq_right h.le
    next h => exact max_eq_left (not_lt.mp h)

theorem le_newest (x l) :
    x.seenAt ≤ (newest x l).seenAt ∧ ∀ r ∈ l, r.seenAt ≤ (newest x l).seenAt := by
  induction l using reverseRecOn with
  | nil => exact ⟨le_rfl, by simp⟩
  | append_singleton l c ih =>
    rw [newest_concat]
    split
    next h =>
      refine ⟨ih.1.trans h.le, fun r hr => ?_⟩
      rcases mem_append.mp hr with hr | hr
      · exact (ih.2 r hr).trans h.le
      · rw [mem_singleton.mp hr]
    next h =>
      refine ⟨ih.1, fun r hr => ?_⟩
      rcases mem_append.mp hr with hr | hr
      · exact ih.2 r hr
      · rw [mem_singleton.mp hr]
        exact not_lt.mp h

theorem firstLocated_concat (x l c) :
    firstLocated (x :: (l ++ [c])) =
      (firstLocated (x :: l)).or (if c.location = none then none else some c) := by
  rw [← cons_append, firstLocated, find?_append]
  cases hc : c.location <;> simp [firstLocated, hc]

theorem firstLocated_eq_none {x : ObservationRecord} {l} :
    firstLocated (x :: l) = none ↔ (l.foldl merge x).location = none := by
  induction l using reverseRecOn with
  | nil => cases h : x.location <;> simp [firstLocated, h]
  | append_singleton l c ih =>
    rw [foldl_concat, location_merge_eq_none, ← ih, firstLocated_concat]
    cases firstLocated (x :: l) <;> cases c.location <;> simp

theorem le_newest_of_firstLocated (h : firstLocated (x :: l) = some k) :
    k.seenAt ≤ (newest x l).seenAt := by
  rcases mem_cons.mp (mem_of_find?_eq_some h) with rfl | hk
  · exact (le_newest k l).1
  · exact (le_newest x l).2 k hk

theorem origin_of_none (h : firstLocated (x :: l) = none) : origin x l = newest x l := by
  rw [origin, h]
  rfl

theorem origin_of_some (h : firstLocated (x :: l) = some k) :
    origin x l = if k.seenAt = (newest x l).seenAt then k else newest x l := by
  rw [origin, h]
  by_cases he : k.seenAt = (newest x l).seenAt <;> simp [he, Option.filter]

theorem seenAt_origin (x l) : (origin x l).seenAt = (newest x l).seenAt := by
  cases h : firstLocated (x :: l) with
  | none => rw [origin_of_none h]
  | some k =>
    rw [origin_of_some h]
    split
    next he => exact he
    next => rfl

theorem origin_concat_of_newer (h : (newest s l).seenAt < c.seenAt) : origin s (l ++ [c]) = c := by
  have hn : newest s (l ++ [c]) = c := by rw [newest_concat, if_pos h]
  cases hk : firstLocated (s :: (l ++ [c])) with
  | none => rw [origin_of_none hk, hn]
  | some k =>
    rw [origin_of_some hk, hn]
    split
    next he =>
      rw [firstLocated_concat] at hk
      cases hk' : firstLocated (s :: l) with
      | some k' =>
        rw [hk'] at hk
        cases hk
        exact absurd (le_newest_of_firstLocated hk') (not_le.mpr (he ▸ h))
      | none =>
        rw [hk'] at hk
        split at hk <;> cases hk
        rfl
    next => rfl

/-- One by one, records come to the record they have their provenance from, with their location. -/
theorem foldl_merge (s) (l : List ObservationRecord) :
    l.foldl merge s = under s (origin s l) (l.foldl merge s).location := by
  induction l using reverseRecOn with
  | nil =>
    have ho : origin s [] = s := by
      cases h : s.location <;> simp [origin, firstLocated, newest, h, Option.filter]
    rw [ho]
    rfl
  | append_singleton l c ih =>
    rw [foldl_concat]
    have hf := @firstLocated_concat s l c
    have ht := seenAt_foldl s l
    rcases lt_or_ge (newest s l).seenAt c.seenAt with hc | hc
    · rw [origin_concat_of_newer hc, merge_later (ht ▸ hc), ih]
      rfl
    · have hn : newest s (l ++ [c]) = newest s l := by rw [newest_concat, if_neg (not_lt.mpr hc)]
      rw [← ht] at hc
      cases hk : firstLocated (s :: l) with
      | some k =>
        rw [hk, Option.some_or] at hf
        have hl : (l.foldl merge s).location ≠ none := fun hl => by
          rw [firstLocated_eq_none.mpr hl] at hk
          cases hk
        rw [merge_located hc hl, origin_of_some hf, hn, ← origin_of_some hk]
        exact ih
      | none =>
        have hl := firstLocated_eq_none.mp hk
        rw [hk, Option.none_or] at hf
        rw [origin_of_none hk] at ih
        cases hcl : c.location with
        | none =>
          rw [hcl, if_pos rfl] at hf
          rw [merge_bare hc hl hcl, origin_of_none hf, hn]
          exact ih
        | some loc =>
          rw [hcl, if_neg (Option.some_ne_none _)] at hf
          rw [origin_of_some hf, hn, ← ht]
          rcases lt_or_eq_of_le hc with hlt | he
          · rw [merge_earlier hlt, if_neg hlt.ne, ih]
            rfl
          · rw [merge_tie he hl, if_pos he, if_neg (by simp [hcl]), ih]
            rfl

/-! ### When a batch may be folded first -/

/-- Folding the batch `x :: l` before it is merged into the row `s` makes no difference: its
location is the one that would be kept, and a tie in time is not decided by a location that one side
has inherited. -/
@[mk_iff]
structure Settled (s x : ObservationRecord) (l : List ObservationRecord) : Prop where
  location : batchLocation x l ≠ none → risenLocation s.seenAt (x :: l) = none →
    (s.location = none ∨ s.seenAt < (newest x l).seenAt) →
    batchLocation x l = s.location.or (firstLocation (x :: l))
  newer : s.location ≠ none → s.seenAt < (newest x l).seenAt →
    ∀ k ∈ firstLocated (x :: l), k.seenAt = (newest x l).seenAt → SameProvenance k (newest x l)
  tie : s.location = none → s.seenAt = (newest x l).seenAt →
    ∀ k ∈ firstLocated (x :: l), k.seenAt < s.seenAt → SameProvenance (newest x l) s

@[simp] theorem sameProvenance_self : SameProvenance a a := ⟨rfl, rfl, rfl⟩

theorem newest_cons (s x l) :
    newest s (x :: l) = if s.seenAt < (newest x l).seenAt then newest x l else s := by
  induction l using reverseRecOn with
  | nil => rfl
  | append_singleton l c ih =>
    rw [← cons_append, newest_concat, newest_concat, ih]
    split_ifs with h1 h2 h3 h4 <;> first | rfl | (exfalso; order)

theorem risenLocation_eq_none (h : ∀ r ∈ l, r.seenAt ≤ t) : risenLocation t l = none := by
  induction l with
  | nil => rfl
  | cons r rest ih =>
    obtain ⟨hr, hrest⟩ := forall_mem_cons.mp h
    rw [risenLocation, if_neg (not_lt.mpr hr), ih hrest]

/-- A location that rises above a later time is the last one above an earlier time too. -/
theorem risenLocation_mono (ht : t ≤ t') (h : risenLocation t' l ≠ none) :
    risenLocation t l = risenLocation t' l := by
  induction l generalizing t t' with
  | nil => rfl
  | cons r rest ih =>
    rw [risenLocation] at h
    rw [risenLocation, risenLocation]
    rcases lt_or_ge t' r.seenAt with hr | hr
    · rw [if_pos hr, if_pos (ht.trans_lt hr)]
    rw [if_neg (not_lt.mpr hr)] at h ⊢
    split
    · obtain ⟨location, hl⟩ := Option.ne_none_iff_exists'.mp h
      rw [ih hr h, hl, Option.some_or]
    · exact ih ht h

theorem batchLocation_of_risen (h : risenLocation t (x :: l) ≠ none) :
    batchLocation x l = risenLocation t (x :: l) := by
  obtain ⟨location, hl⟩ := Option.ne_none_iff_exists'.mp h
  rw [hl]
  rw [risenLocation] at hl
  split at hl
  · rw [batchLocation, hl, Option.some_or]
  next hx =>
    have hr := risenLocation_mono (not_lt.mp hx) (hl ▸ Option.some_ne_none location)
    rw [batchLocation, hr, hl, Option.some_or, Option.some_or]

theorem firstLocation_of_batch (h : batchLocation x l = none) : firstLocation (x :: l) = none := by
  simp only [batchLocation, Option.or_eq_none_iff] at h
  rw [firstLocation, findSome?_cons, h.1.2]
  exact h.2

theorem location_batch (x l) : (foldl merge x l).location = batchLocation x l := by
  rw [location_foldl, batchLocation, Option.or_assoc]

theorem firstLocated_batch (x l) : firstLocated (x :: l) = none ↔ batchLocation x l = none := by
  rw [firstLocated_eq_none, location_batch]

theorem firstLocated_cons (s l) :
    firstLocated (s :: l) = if s.location = none then firstLocated l else some s := by
  cases h : s.location <;> simp [firstLocated, h]

theorem foldl_batch (x l) : foldl merge x l = under x (origin x l) (batchLocation x l) := by
  rw [← location_batch]
  exact foldl_merge x l

theorem foldl_row (s) (l : List ObservationRecord) : l.foldl merge s =
    under s (origin s l) ((risenLocation s.seenAt l).or (s.location.or (firstLocation l))) := by
  rw [← location_foldl]
  exact foldl_merge s l

theorem seenAt_batch (x l) :
    (under x (origin x l) (batchLocation x l)).seenAt = (newest x l).seenAt :=
  seenAt_origin x l

theorem risenLocation_batch (h : (newest x l).seenAt ≤ t) : risenLocation t (x :: l) = none :=
  risenLocation_eq_none (forall_mem_cons.mpr
    ⟨(le_newest x l).1.trans h, fun r hr => ((le_newest x l).2 r hr).trans h⟩)

/-- An older batch gives at most a location. -/
theorem merge_older_iff (h : (newest x l).seenAt < s.seenAt) :
    merge s (l.foldl merge x) = (x :: l).foldl merge s ↔ Settled s x l := by
  have hnewest : newest s (x :: l) = s := by rw [newest_cons, if_neg (not_lt.mpr h.le)]
  have horigin : origin s (x :: l) = s := by
    cases hk : firstLocated (s :: x :: l) with
    | none => rw [origin_of_none hk, hnewest]
    | some k =>
      rw [origin_of_some hk, hnewest]
      split
      next he =>
        rw [firstLocated_cons] at hk
        split at hk
        · exact absurd (le_newest_of_firstLocated hk) (not_le.mpr (he ▸ h))
        · exact (Option.some.inj hk).symm
      next => rfl
  rw [foldl_row s (x :: l), foldl_batch x l, settled_iff, horigin, risenLocation_batch h.le,
    merge_earlier ((seenAt_batch x l).trans_lt h), under_inj]
  simp only [sameProvenance_self, under_location, Option.none_or, true_and, not_lt.mpr h.le,
    or_false, true_imp_iff, false_imp_iff, imp_true_iff, and_true, h.ne', ne_eq]
  cases hs : s.location with
  | some location => simp
  | none =>
    simp only [Option.none_or, true_imp_iff]
    refine ⟨fun he _ => he, fun he => ?_⟩
    cases hb : batchLocation x l with
    | none => rw [firstLocation_of_batch hb]
    | some location => exact hb ▸ he (by simp [hb])

/-- A batch as new as the row counts only for a row without a location. -/
theorem merge_tie_iff (h : (newest x l).seenAt = s.seenAt) :
    merge s (l.foldl merge x) = (x :: l).foldl merge s ↔ Settled s x l := by
  have hnewest : newest s (x :: l) = s := by rw [newest_cons, if_neg (not_lt.mpr h.le)]
  have hcons := firstLocated_cons s (x :: l)
  have htime := (seenAt_batch x l).trans h
  rw [foldl_row s (x :: l), foldl_batch x l, settled_iff, risenLocation_batch h.le]
  cases hs : s.location with
  | some location =>
    have hl : s.location ≠ none := by simp [hs]
    have hsame : under s s (some location) = s := by
      rw [← hs]
      rfl
    rw [if_neg hl] at hcons
    rw [merge_located htime.le hl, origin_of_some hcons, hnewest, if_pos rfl]
    simp [hsame, h.not_gt]
  | none =>
    rw [if_pos hs] at hcons
    rw [merge_tie htime hs]
    cases hk : firstLocated (x :: l) with
    | none =>
      have hb := (firstLocated_batch x l).mp hk
      rw [origin_of_none (hcons.trans hk), hnewest, firstLocation_of_batch hb, hb]
      simp
    | some k =>
      have hb : batchLocation x l ≠ none := fun hb => by
        rw [(firstLocated_batch x l).mpr hb] at hk
        cases hk
      rw [origin_of_some (hcons.trans hk), hnewest, origin_of_some hk, h, under_location,
        if_neg hb, under_of_under, under_inj]
      by_cases he : k.seenAt = s.seenAt
      · simp [he, hb]
      · have hlt : k.seenAt < s.seenAt :=
          lt_of_le_of_ne (h ▸ le_newest_of_firstLocated hk) he
        simp [he, hlt, hb, h, and_comm]

theorem newer_location_iff (s x : ObservationRecord) (l) :
    (batchLocation x l).or s.location =
        (risenLocation s.seenAt (x :: l)).or (s.location.or (firstLocation (x :: l))) ↔
      (batchLocation x l ≠ none → risenLocation s.seenAt (x :: l) = none →
        batchLocation x l = s.location.or (firstLocation (x :: l))) := by
  cases hr : risenLocation s.seenAt (x :: l) with
  | some location =>
    have hb := batchLocation_of_risen (hr ▸ Option.some_ne_none location)
    simp [hb, hr]
  | none =>
    cases hb : batchLocation x l with
    | none => simp [firstLocation_of_batch hb]
    | some location => simp

theorem newer_origin_iff (h : s.seenAt < (newest x l).seenAt) :
    SameProvenance (origin x l) (origin s (x :: l)) ↔ (s.location ≠ none →
      ∀ k ∈ firstLocated (x :: l), k.seenAt = (newest x l).seenAt →
        SameProvenance k (newest x l)) := by
  have hnewest : newest s (x :: l) = newest x l := by rw [newest_cons, if_pos h]
  have hcons := firstLocated_cons s (x :: l)
  cases hs : s.location with
  | none =>
    rw [if_pos hs] at hcons
    rw [origin, origin, hcons, hnewest]
    simp
  | some location =>
    rw [if_neg (by simp [hs])] at hcons
    rw [origin_of_some hcons, hnewest, if_neg h.ne]
    cases hk : firstLocated (x :: l) with
    | none => simp [origin_of_none hk]
    | some k =>
      rw [origin_of_some hk]
      split <;> simp [*]

/-- A newer batch takes over. -/
theorem merge_newer_iff (h : s.seenAt < (newest x l).seenAt) :
    merge s (l.foldl merge x) = (x :: l).foldl merge s ↔ Settled s x l := by
  have htime : (origin x l).seenAt = (origin s (x :: l)).seenAt := by
    rw [seenAt_origin, seenAt_origin, newest_cons, if_pos h]
  rw [foldl_row s (x :: l), foldl_batch x l, settled_iff,
    merge_later (h.trans_eq (seenAt_batch x l).symm), under_location, under_of_under, under_inj,
    newer_location_iff, newer_origin_iff h, and_iff_left htime]
  simp [h, h.ne, and_comm]

theorem merge_batch_iff (s x l) :
    merge s (l.foldl merge x) = (x :: l).foldl merge s ↔ Settled s x l := by
  rcases lt_trichotomy (newest x l).seenAt s.seenAt with h | h | h
  · exact merge_older_iff h
  · exact merge_tie_iff h
  · exact merge_newer_iff h

/-! ### The sinks -/

theorem mergeObservations_eq (hid : SameIdentity a b) :
    mergeObservations H a b = .ok (merge a b) :=
  if_neg (not_conflict hid)

theorem mergeObservationRows_eq (hid : SameIdentity a b) :
    mergeObservationRows (rowOf H a) (rowOf H b) = .ok (rowOf H (merge a b)) := by
  refine (if_neg (not_conflict (H := H) hid)).trans ?_
  rcases lt_trichotomy a.seenAt b.seenAt with h | h | h
  · have hlt := UInt64.lt_iff_toNat_lt.mp h
    rw [merge_later h]
    cases hb : b.location <;> cases ha : a.location <;>
      simp [rowOf, under, ha, hb, hlt, hlt.le, ObservationRecord.observationId]
  · cases ha : a.location with
    | some location =>
      rw [merge_located h.ge (by simp [ha])]
      simp [rowOf, ha, h]
    | none =>
      rw [merge_tie h.symm ha]
      cases hb : b.location <;>
        simp [rowOf, under, ha, hb, h, ObservationRecord.observationId]
  · have hlt := UInt64.lt_iff_toNat_lt.mp h
    have hne : (b.seenAt.toNat : Int) ≠ a.seenAt.toNat := by omega
    rw [merge_earlier h]
    cases hb : b.location <;> cases ha : a.location <;>
      simp [rowOf, under, ha, hb, hlt.le, hlt.not_gt, hlt.ne, ObservationRecord.observationId]

theorem rowOf_inj (hid : SameIdentity a b) : rowOf H a = rowOf H b ↔ a = b := by
  refine ⟨fun h => ?_, congrArg _⟩
  simp only [rowOf, u64ToPgBigintBits, ObservationRow.mk.injEq, Int.natCast_inj,
    UInt64.toNat_inj, BitVec.toInt_inj, UInt64.toBitVec_inj] at h
  obtain ⟨-, -, -, -, -, hrun, hshard, hfence, hseen, hdisplay, hurl⟩ := h
  have hruns : a.runId = b.runId := congrArg RunId.mk hrun
  have hshards : a.shardId = b.shardId := congrArg ShardId.mk hshard
  have hlocation : a.location = b.location := by
    cases ha : a.location <;> cases hb : b.location <;> simp_all
    next x y =>
      cases x
      cases y
      simp_all
  cases a
  cases b
  cases hid
  simp_all

theorem SameIdentity.refl (o) : SameIdentity o o := ⟨rfl, rfl, rfl, rfl⟩

theorem SameIdentity.symm (h : SameIdentity a b) : SameIdentity b a :=
  ⟨h.tenantId.symm, h.occurrenceId.symm, h.policyHash.symm, h.ovidHash.symm⟩

theorem SameIdentity.trans (h : SameIdentity a b) (h' : SameIdentity b c) : SameIdentity a c :=
  ⟨h.tenantId.trans h'.tenantId, h.occurrenceId.trans h'.occurrenceId,
    h.policyHash.trans h'.policyHash, h.ovidHash.trans h'.ovidHash⟩

theorem SameIdentity.merge (h : SameIdentity a b) : SameIdentity (Persistence.merge a c) b :=
  ⟨h.tenantId, h.occurrenceId, h.policyHash, h.ovidHash⟩

theorem SameIdentity.foldl {f : ObservationRecord → α → ObservationRecord}
    (hf : ∀ a x, SameIdentity a b → SameIdentity (f a x) b) (h : SameIdentity a b) (l : List α) :
    SameIdentity (l.foldl f a) b := by
  induction l generalizing a with
  | nil => exact h
  | cons x rest ih => exact ih (hf a x h)

/-- A fold whose steps merge records of one observation. -/
theorem foldlM_merge {β γ ε : Type} {f : β → γ → Except ε β} {g : ObservationRecord → β}
    {e : ObservationRecord → γ} {l : List ObservationRecord}
    (hf : ∀ a b, SameIdentity a b → f (g a) (e b) = .ok (g (merge a b)))
    (hl : ∀ r ∈ l, SameIdentity s r) : (l.map e).foldlM f (g s) = .ok (g (l.foldl merge s)) := by
  induction l generalizing s with
  | nil => rfl
  | cons x rest ih =>
    obtain ⟨hx, hr⟩ := forall_mem_cons.mp hl
    rw [map_cons, foldlM_cons, hf s x hx]
    exact ih fun r hm => (hr r hm).merge

theorem foldObservations_eq (hl : ∀ r ∈ l, SameIdentity s r) :
    foldObservations H s l = .ok (l.foldl merge s) := by
  have h : (l.map id).foldlM (mergeObservations H) (id s) = .ok (id (l.foldl merge s)) :=
    foldlM_merge (fun a b => mergeObservations_eq) hl
  rwa [map_id] at h

theorem dedupeRows_eq (hl : ∀ r ∈ l, SameIdentity x r) :
    dedupeObservationRows ((x :: l).map (rowOf H)) = .ok [rowOf H (l.foldl merge x)] := by
  have hf : ∀ a b, SameIdentity a b →
      dedupeInto (rowOf H b) [rowOf H a] = .ok [rowOf H (merge a b)] := by
    intro a b hid
    rw [dedupeInto, if_pos, mergeObservationRows_eq hid]
    · rfl
    refine ⟨hid.tenantId, ?_⟩
    show a.observationId H = b.observationId H
    rw [ObservationRecord.observationId, ObservationRecord.observationId, hid.tenantId,
      hid.policyHash, hid.occurrenceId]
  exact foldlM_merge (f := fun rows row => dedupeInto row rows) (g := fun r => [rowOf H r]) hf hl

/-- A batch folded first, then merged into the row. -/
def mergeBatch (s : ObservationRecord) : List ObservationRecord → ObservationRecord
  | [] => s
  | x :: l => merge s (l.foldl merge x)

theorem SameIdentity.mergeBatch (h : SameIdentity a b) (batch) :
    SameIdentity (Persistence.mergeBatch a batch) b := by
  cases batch with
  | nil => exact h
  | cons x l => exact h.merge

theorem commitBatches_eq {batches : List (List ObservationRecord)}
    (hl : ∀ r ∈ batches.flatten, SameIdentity s r) :
    commitObservationBatches (rowOf H s) (batches.map (·.map (rowOf H))) =
      .ok (rowOf H (batches.foldl mergeBatch s)) := by
  rw [commitObservationBatches]
  induction batches generalizing s with
  | nil => rfl
  | cons batch rest ih =>
    rw [flatten_cons] at hl
    have hrest : ∀ r ∈ rest.flatten, SameIdentity (mergeBatch s batch) r := fun r hr =>
      (hl r (mem_append_right batch hr)).mergeBatch batch
    rw [map_cons, foldlM_cons, foldl_cons, ← ih hrest]
    cases batch with
    | nil => rfl
    | cons x l =>
      have hx : SameIdentity s x := hl x (mem_append_left _ mem_cons_self)
      have hxs : ∀ r ∈ l, SameIdentity x r := fun r hr =>
        hx.symm.trans (hl r (mem_append_left _ (mem_cons_of_mem x hr)))
      have hbatch : SameIdentity (l.foldl merge x) x :=
        SameIdentity.foldl (fun _ _ h => h.merge) (.refl x) l
      have hmerged : SameIdentity s (l.foldl merge x) := hx.trans hbatch.symm
      rw [dedupeRows_eq hxs]
      show (do
        let row ← mergeObservationRows (rowOf H s) (rowOf H (l.foldl merge x)) >>= pure
        _ : Except FindingsPgError ObservationRow) = _
      rw [mergeObservationRows_eq hmerged]
      rfl

/-- Folding batch by batch follows folding record by record as long as every batch is settled. -/
theorem foldl_mergeBatch_iff (s) (batches : List (List ObservationRecord)) :
    (∀ n, (batches.take n).flatten.foldl merge s = (batches.take n).foldl mergeBatch s) ↔
      ∀ n x l, batches[n]? = some (x :: l) →
        Settled ((batches.take n).flatten.foldl merge s) x l := by
  constructor
  · intro h n x l hx
    have hn := h (n + 1)
    rw [take_add_one, hx, flatten_append, foldl_append, foldl_append, ← h n] at hn
    simp only [Option.toList_some, flatten_singleton] at hn
    exact (merge_batch_iff _ x l).mp hn.symm
  · intro h n
    induction n with
    | zero => rfl
    | succ n ih =>
      rw [take_add_one, flatten_append, foldl_append, foldl_append, ← ih]
      cases hb : batches[n]? with
      | none => rfl
      | some batch =>
        cases batch with
        | nil => rfl
        | cons x l =>
          simp only [Option.toList_some, flatten_singleton]
          exact ((merge_batch_iff _ x l).mpr (h n x l hb)).symm

theorem mapM_fromRecord {l : List ObservationRecord}
    (h : l.mapM (ObservationRow.fromRecord H) = .ok rows) :
    rows = l.map (rowOf H) ∧ ∀ r ∈ l, FitsColumns r := by
  induction l generalizing rows with
  | nil =>
    cases h
    refine ⟨rfl, fun r hr => ?_⟩
    cases hr
  | cons r rest ih =>
    rw [mapM_cons] at h
    cases hr : ObservationRow.fromRecord H r with
    | error err =>
      rw [hr] at h
      cases h
    | ok row =>
      rw [hr] at h
      cases hre : rest.mapM (ObservationRow.fromRecord H) with
      | error err =>
        rw [hre] at h
        cases h
      | ok rows' =>
        rw [hre] at h
        cases h
        obtain ⟨hf, rfl⟩ := fromRecord_eq_ok.mp hr
        obtain ⟨rfl, ha⟩ := ih hre
        refine ⟨rfl, fun x hx => ?_⟩
        rcases mem_cons.mp hx with rfl | hx
        · exact hf
        · exact ha x hx

theorem FitsColumns.merge (ha : FitsColumns a) (hb : FitsColumns b) :
    FitsColumns (Persistence.merge a b) := by
  have h : provenanceSource a b = a ∨ provenanceSource a b = b := by
    rw [provenanceSource]
    split_ifs <;> simp
  rcases h with h | h
  · exact (congrArg (fun r => FitsColumns r) h).mpr ha
  · exact (congrArg (fun r => FitsColumns r) h).mpr hb

theorem FitsColumns.foldl {l : List ObservationRecord} (hs : FitsColumns s)
    (hl : ∀ r ∈ l, FitsColumns r) : FitsColumns (l.foldl Persistence.merge s) := by
  induction l generalizing s with
  | nil => exact hs
  | cons x rest ih =>
    exact ih (hs.merge (hl x mem_cons_self)) fun y hy => hl y (mem_cons_of_mem x hy)

theorem rows_of_batches (h : List.Forall₂
      (fun batch rows => batch.mapM (ObservationRow.fromRecord H) = .ok rows) batches rowBatches) :
    rowBatches = batches.map (·.map (rowOf H)) ∧ ∀ r ∈ batches.flatten, FitsColumns r := by
  induction h with
  | nil => exact ⟨rfl, fun r hr => absurd hr not_mem_nil⟩
  | cons hbatch _ ih =>
    obtain ⟨rfl, hfits⟩ := mapM_fromRecord hbatch
    obtain ⟨rfl, hall⟩ := ih
    refine ⟨rfl, fun r hr => ?_⟩
    rw [flatten_cons] at hr
    rcases mem_append.mp hr with hr | hr
    · exact hfits r hr
    · exact hall r hr

/-- Both sinks hold the same row after every batch if and only if every batch is settled at the row
before it. -/
theorem observation_sinks_agree (H : IdentityHash) (stored : ObservationRecord)
    (batches : List (List ObservationRecord)) (storedRow : ObservationRow)
    (rowBatches : List (List ObservationRow))
    (hstored : ObservationRow.fromRecord H stored = .ok storedRow)
    (hrows : List.Forall₂ (fun batch rows => batch.mapM (ObservationRow.fromRecord H) = .ok rows)
      batches rowBatches)
    (hid : ∀ r ∈ batches.flatten, SameIdentity stored r) :
    (∀ n, ∃ row pgRow, foldObservations H stored (batches.take n).flatten = .ok row ∧
      ObservationRow.fromRecord H row = .ok pgRow ∧
      commitObservationBatches storedRow (rowBatches.take n) = .ok pgRow) ↔
    ∀ n row x l, foldObservations H stored (batches.take n).flatten = .ok row →
      batches[n]? = some (x :: l) → Settled row x l := by
  obtain ⟨rfl, hfits⟩ := rows_of_batches hrows
  obtain ⟨hstoredFits, rfl⟩ := fromRecord_eq_ok.mp hstored
  have hsub : ∀ n, ∀ r ∈ (batches.take n).flatten, r ∈ batches.flatten := fun n r hr => by
    obtain ⟨batch, hb, hr⟩ := mem_flatten.mp hr
    exact mem_flatten.mpr ⟨batch, mem_of_mem_take hb, hr⟩
  have hmem : ∀ n, foldObservations H stored (batches.take n).flatten =
      .ok ((batches.take n).flatten.foldl merge stored) := fun n =>
    foldObservations_eq fun r hr => hid r (hsub n r hr)
  have hpg : ∀ n, commitObservationBatches (rowOf H stored)
      ((batches.map (·.map (rowOf H))).take n) =
        .ok (rowOf H ((batches.take n).foldl mergeBatch stored)) := fun n => by
    rw [← map_take]
    exact commitBatches_eq fun r hr => hid r (hsub n r hr)
  have hsame : ∀ n, SameIdentity ((batches.take n).flatten.foldl merge stored)
      ((batches.take n).foldl mergeBatch stored) := fun n =>
    (SameIdentity.foldl (f := merge) (fun _ _ h => h.merge) (.refl stored) _).trans
      (SameIdentity.foldl (fun _ x h => h.mergeBatch x) (.refl stored) _).symm
  refine Iff.trans (forall_congr' fun n => ?_) ((foldl_mergeBatch_iff stored batches).trans ?_)
  · rw [hmem, hpg, ← rowOf_inj (H := H) (hsame n)]
    constructor
    · rintro ⟨row, pgRow, ⟨⟩, hrow, ⟨⟩⟩
      exact (fromRecord_eq_ok.mp hrow).2.symm
    · intro he
      refine ⟨_, _, rfl, fromRecord_eq_ok.mpr ⟨?_, rfl⟩, by rw [he]⟩
      exact hstoredFits.foldl fun r hr => hfits r (hsub n r hr)
  · refine forall_congr' fun n => ⟨fun h row x l hrow => ?_, fun h x l => h _ x l (hmem n)⟩
    rw [hmem] at hrow
    cases hrow
    exact h x l

def sampleObservation (run : UInt64) (seenAt : LogicalTime) (location : Option Location) :
    ObservationRecord :=
  ⟨⟨0⟩, 0, 0, 0, ⟨run⟩, ⟨1⟩, 1, seenAt, location⟩

def zeroHash : IdentityHash := ⟨fun _ _ _ _ => 0, fun _ _ _ _ => 0, fun _ _ _ => 0⟩

/-- A located row, then a newer record without a location, then a batch of two that tie. -/
theorem observation_sinks_agree_settled :
    ∃ row pgRow, foldObservations zeroHash (sampleObservation 1 1 (some ⟨"a", none⟩))
        [sampleObservation 2 2 none, sampleObservation 3 3 (some ⟨"b", none⟩),
          sampleObservation 4 3 none] = .ok row ∧
      ObservationRow.fromRecord zeroHash row = .ok pgRow ∧
      commitObservationBatches (rowOf zeroHash (sampleObservation 1 1 (some ⟨"a", none⟩)))
        [[rowOf zeroHash (sampleObservation 2 2 none)],
          [rowOf zeroHash (sampleObservation 3 3 (some ⟨"b", none⟩)),
            rowOf zeroHash (sampleObservation 4 3 none)]] = .ok pgRow := by
  refine (observation_sinks_agree zeroHash (sampleObservation 1 1 (some ⟨"a", none⟩))
    [[sampleObservation 2 2 none],
      [sampleObservation 3 3 (some ⟨"b", none⟩), sampleObservation 4 3 none]] _ _ rfl
    (.cons rfl (.cons rfl .nil)) ?_).mpr ?_ 2
  · intro r hr
    fin_cases hr <;> exact ⟨rfl, rfl, rfl, rfl⟩
  · intro n row x l hrow hbatch
    rcases n with _ | _ | n
    · cases hbatch
      cases hrow
      exact ⟨fun h => absurd rfl h, fun _ _ k hk => (by cases hk), fun h => (by cases h)⟩
    · cases hbatch
      cases hrow
      refine ⟨fun _ h => absurd h (by decide), ?_, fun h => absurd h (by decide)⟩
      intro _ _ k hk _
      cases hk
      exact ⟨rfl, rfl, rfl⟩
    · cases hbatch

/-- A record without a location that is as new as a located one, after an older located row: one by
one the row keeps the first record's run and the old location, as one batch it takes those of the
second. -/
theorem observation_sinks_diverge :
    ∃ (stored first second final : ObservationRecord)
        (storedRow row row' finalRow pgRow : ObservationRow),
      SameIdentity stored first ∧ SameIdentity stored second ∧
      ObservationRow.fromRecord zeroHash stored = .ok storedRow ∧
      ObservationRow.fromRecord zeroHash first = .ok row ∧
      ObservationRow.fromRecord zeroHash second = .ok row' ∧
      foldObservations zeroHash stored [first, second] = .ok final ∧
      ObservationRow.fromRecord zeroHash final = .ok finalRow ∧
      commitObservationBatches storedRow [[row, row']] = .ok pgRow ∧
      finalRow.runId ≠ pgRow.runId ∧ finalRow.locationDisplay ≠ pgRow.locationDisplay := by
  refine ⟨sampleObservation 1 1 (some ⟨"a", none⟩), sampleObservation 2 2 none,
    sampleObservation 3 2 (some ⟨"b", none⟩), _, _, _, _, _, _, ⟨rfl, rfl, rfl, rfl⟩,
    ⟨rfl, rfl, rfl, rfl⟩, rfl, rfl, rfl, rfl, rfl, rfl, ?_, ?_⟩
  · decide
  · decide

end GossipRs.Persistence
