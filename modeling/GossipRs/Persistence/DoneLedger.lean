import GossipRs.Contracts.Identity

/-! The done-ledger record (`persistence/done_ledger.rs`) and its merge. On validated records of one
key the merge is a join: a record is determined by its winner key, byte count and ranked finding
count, and the merge takes the maximum of each. -/

namespace GossipRs.Persistence

open Lib

abbrev PolicyHash := BitVec 256

abbrev OvidHash := BitVec 256

structure DoneLedgerKey where
  tenantId : TenantId
  policyHash : PolicyHash
  ovidHash : OvidHash
deriving DecidableEq

inductive DoneLedgerStatus where
  | failedRetryable
  | failedPermanent
  | skipped
  | scannedClean
  | scannedWithFindings
deriving DecidableEq

namespace DoneLedgerStatus

def rank : DoneLedgerStatus → Nat
  | failedRetryable => 1
  | failedPermanent => 2
  | skipped => 3
  | scannedClean => 10
  | scannedWithFindings => 11

def isScanned : DoneLedgerStatus → Bool
  | scannedClean | scannedWithFindings => true
  | _ => false

def merge (a b : DoneLedgerStatus) : DoneLedgerStatus := if b.rank ≤ a.rank then a else b

def name : DoneLedgerStatus → String
  | failedRetryable => "FailedRetryable"
  | failedPermanent => "FailedPermanent"
  | skipped => "Skipped"
  | scannedClean => "ScannedClean"
  | scannedWithFindings => "ScannedWithFindings"

theorem rank_injective : Function.Injective rank := by
  intro a b h
  cases a <;> cases b <;> first | rfl | exact absurd h (by decide)

theorem rank_merge (a b : DoneLedgerStatus) : (a.merge b).rank = max a.rank b.rank := by
  rw [merge]
  split
  · exact (max_eq_left ‹_›).symm
  · exact (max_eq_right (Nat.le_of_not_le ‹_›)).symm

end DoneLedgerStatus

def maxDoneLedgerErrorCodeSize : Nat := 128

inductive PersistenceInputError where
  | empty (field : String)
  | tooLarge (field : String) (size max : Nat)
  | invalidByte (field : String) (index : Nat) (byte : UInt8)
  | observationIdMismatch
  | inconsistentFindingsCount (status : String) (findingsCount : Nat)
  | missingErrorCode (status : String)
  | unexpectedErrorCode (status : String)
  | orphanedReference (childType parentType : String)
  | inconsistentTenant
  | provenanceOrdering (startedAt finishedAt : UInt64)
  | keyMismatch (existing incoming : DoneLedgerKey)
deriving DecidableEq

def isErrorCodeByte (b : UInt8) : Bool :=
  (48 ≤ b && b ≤ 57) || (65 ≤ b && b ≤ 90) || (97 ≤ b && b ≤ 122) ||
    [32, 95, 45, 46, 58, 47].contains b

structure DoneLedgerErrorCode where
  bytes : Bytes
  size_le : bytes.length ≤ maxDoneLedgerErrorCodeSize
  alphabet : bytes.all isErrorCodeByte = true
  notBlank : bytes.any (· != 32) = true

theorem DoneLedgerErrorCode.bytes_ne_nil (code : DoneLedgerErrorCode) : code.bytes ≠ [] := by
  intro h
  have ha := code.notBlank
  rw [h] at ha
  cases ha

theorem DoneLedgerErrorCode.eq_of_bytes {a b : DoneLedgerErrorCode} (h : a.bytes = b.bytes) :
    a = b := by
  cases a
  cases h
  rfl

structure DoneLedgerProvenance where
  runId : RunId
  shardId : ShardId
  fenceEpoch : FenceEpoch
  startedAt : LogicalTime
  finishedAt : LogicalTime
deriving DecidableEq

theorem DoneLedgerProvenance.eq_of_fields {a b : DoneLedgerProvenance}
    (hr : a.runId.raw = b.runId.raw) (hs : a.shardId.raw = b.shardId.raw)
    (hf : a.fenceEpoch = b.fenceEpoch) (hst : a.startedAt = b.startedAt)
    (hfi : a.finishedAt = b.finishedAt) : a = b := by
  obtain ⟨⟨_⟩, ⟨_⟩, _, _, _⟩ := a
  cases hr
  cases hs
  cases hf
  cases hst
  cases hfi
  rfl

structure DoneLedgerRecord where
  key : DoneLedgerKey
  status : DoneLedgerStatus
  bytesScanned : UInt64
  findingsCount : Nat
  provenance : DoneLedgerProvenance
  errorCode : Option DoneLedgerErrorCode

/-- `pg_bigint_bits_sort_key`: the bits read as a signed number. -/
def pgBigintBitsSortKey (raw : UInt64) : Int := raw.toBitVec.toInt

theorem pgBigintBitsSortKey_injective : Function.Injective pgBigintBitsSortKey := by
  intro a b h
  exact UInt64.toBitVec_inj.mp (BitVec.eq_of_toInt_eq h)

abbrev WinnerKey := Nat ×ₗ UInt64 ×ₗ UInt64 ×ₗ UInt64 ×ₗ Int ×ₗ Int ×ₗ Bytes

namespace DoneLedgerRecord

def tryNew (key : DoneLedgerKey) (status : DoneLedgerStatus) (bytesScanned : UInt64)
    (findingsCount : Nat) (provenance : DoneLedgerProvenance)
    (errorCode : Option DoneLedgerErrorCode) : Except PersistenceInputError DoneLedgerRecord :=
  if status = .scannedWithFindings ∧ findingsCount = 0 then
    .error (.inconsistentFindingsCount "ScannedWithFindings" findingsCount)
  else if status = .scannedClean ∧ 0 < findingsCount then
    .error (.inconsistentFindingsCount "ScannedClean" findingsCount)
  else .ok ⟨key, status, bytesScanned, findingsCount, provenance, errorCode⟩

def validate (r : DoneLedgerRecord) : Except PersistenceInputError Unit :=
  match r.status with
  | .scannedClean =>
    if r.findingsCount ≠ 0 then .error (.inconsistentFindingsCount r.status.name r.findingsCount)
    else if r.errorCode.isSome then .error (.unexpectedErrorCode r.status.name)
    else .ok ()
  | .scannedWithFindings =>
    if r.findingsCount = 0 then .error (.inconsistentFindingsCount r.status.name r.findingsCount)
    else if r.errorCode.isSome then .error (.unexpectedErrorCode r.status.name)
    else .ok ()
  | .failedRetryable | .failedPermanent | .skipped =>
    if r.errorCode.isNone then .error (.missingErrorCode r.status.name) else .ok ()

def provenanceWinnerKey (r : DoneLedgerRecord) : WinnerKey :=
  toLex (r.status.rank, toLex (r.provenance.finishedAt, toLex (r.provenance.startedAt,
    toLex (r.provenance.fenceEpoch, toLex (pgBigintBitsSortKey r.provenance.runId.raw,
      toLex (pgBigintBitsSortKey r.provenance.shardId.raw,
        r.errorCode.elim [] DoneLedgerErrorCode.bytes))))))

def swfFindingsCount (r : DoneLedgerRecord) : Nat :=
  if r.status = .scannedWithFindings then r.findingsCount else 0

def mergedFindingsCount (r incoming : DoneLedgerRecord) : DoneLedgerStatus → Nat
  | .scannedClean => 0
  | .scannedWithFindings => max (max r.swfFindingsCount incoming.swfFindingsCount) 1
  | _ => max r.findingsCount incoming.findingsCount

def merge (r incoming : DoneLedgerRecord) : Except PersistenceInputError DoneLedgerRecord := do
  r.validate
  incoming.validate
  if r.key ≠ incoming.key then .error (.keyMismatch r.key incoming.key)
  else
    let mergedStatus := r.status.merge incoming.status
    let chooseIncoming := r.provenanceWinnerKey < incoming.provenanceWinnerKey
    let chosen := if chooseIncoming then incoming else r
    let fallback := if chooseIncoming then r else incoming
    let errorCode :=
      if mergedStatus.isScanned then none else chosen.errorCode.or fallback.errorCode
    tryNew r.key mergedStatus (max r.bytesScanned incoming.bytesScanned)
      (r.mergedFindingsCount incoming mergedStatus) chosen.provenance errorCode

/-! ### Validated records -/

def Valid (r : DoneLedgerRecord) : Prop := r.validate = .ok ()

theorem valid_iff {r : DoneLedgerRecord} :
    r.Valid ↔ (r.status = .scannedClean → r.findingsCount = 0) ∧
      (r.status = .scannedWithFindings → r.findingsCount ≠ 0) ∧
      (r.errorCode.isSome = !r.status.isScanned) := by
  rw [Valid, validate]
  cases r.status <;> cases r.errorCode <;> by_cases hc : r.findingsCount = 0 <;>
    simp [DoneLedgerStatus.isScanned, hc]

def tier : DoneLedgerStatus → Nat
  | .scannedWithFindings => 2
  | .scannedClean => 1
  | _ => 0

def rankedCount (r : DoneLedgerRecord) : Nat ×ₗ Nat := toLex (tier r.status, r.findingsCount)

abbrev Coords := WinnerKey × UInt64 × (Nat ×ₗ Nat)

def coords (r : DoneLedgerRecord) : Coords :=
  (r.provenanceWinnerKey, r.bytesScanned, r.rankedCount)

theorem winnerKey_injective {a b : DoneLedgerRecord}
    (h : a.provenanceWinnerKey = b.provenanceWinnerKey) :
    a.status = b.status ∧ a.provenance = b.provenance ∧ a.errorCode = b.errorCode := by
  simp only [provenanceWinnerKey, EmbeddingLike.apply_eq_iff_eq, Prod.mk.injEq] at h
  obtain ⟨hr, hfi, hs, hf, hru, hsh, hc⟩ := h
  refine ⟨DoneLedgerStatus.rank_injective hr, ?_, ?_⟩
  · exact DoneLedgerProvenance.eq_of_fields (pgBigintBitsSortKey_injective hru)
      (pgBigintBitsSortKey_injective hsh) hf hs hfi
  cases ha : a.errorCode with
  | none =>
    cases hb : b.errorCode with
    | none => rfl
    | some c =>
      rw [ha, hb] at hc
      exact absurd hc.symm c.bytes_ne_nil
  | some c =>
    cases hb : b.errorCode with
    | none =>
      rw [ha, hb] at hc
      exact absurd hc c.bytes_ne_nil
    | some d =>
      rw [ha, hb] at hc
      rw [DoneLedgerErrorCode.eq_of_bytes hc]

theorem eq_of_coords {a b : DoneLedgerRecord} (hk : a.key = b.key) (h : a.coords = b.coords) :
    a = b := by
  simp only [coords, Prod.mk.injEq] at h
  obtain ⟨hw, hb, hc⟩ := h
  obtain ⟨hs, hp, hco⟩ := winnerKey_injective hw
  simp only [rankedCount, EmbeddingLike.apply_eq_iff_eq, Prod.mk.injEq] at hc
  cases a
  cases hk
  cases hb
  cases hs
  cases hp
  cases hco
  cases hc.2
  rfl

/-! ### The merge is a join -/

def join (a b : DoneLedgerRecord) : DoneLedgerRecord :=
  let chosen := if a.provenanceWinnerKey < b.provenanceWinnerKey then b else a
  { key := a.key
    status := chosen.status
    bytesScanned := max a.bytesScanned b.bytesScanned
    findingsCount := (ofLex (max a.rankedCount b.rankedCount)).2
    provenance := chosen.provenance
    errorCode := chosen.errorCode }

theorem rank_le_of_winnerKey_le {a b : DoneLedgerRecord}
    (h : a.provenanceWinnerKey ≤ b.provenanceWinnerKey) : a.status.rank ≤ b.status.rank := by
  rcases Prod.Lex.le_iff.mp h with hl | ⟨he, -⟩
  · exact Nat.le_of_lt hl
  · exact Nat.le_of_eq he

theorem status_chosen (a b : DoneLedgerRecord) :
    (if a.provenanceWinnerKey < b.provenanceWinnerKey then b else a).status =
      a.status.merge b.status := by
  apply DoneLedgerStatus.rank_injective
  rw [DoneLedgerStatus.rank_merge]
  split
  · exact (max_eq_right (rank_le_of_winnerKey_le (le_of_lt ‹_›))).symm
  · exact (max_eq_left (rank_le_of_winnerKey_le (not_lt.mp ‹_›))).symm

theorem tier_merge (a b) : tier (a.merge b) = max (tier a) (tier b) := by
  cases a <;> cases b <;> rfl

/-- On validated records the merged finding count is the second part of the larger ranked count. -/
theorem mergedFindingsCount_eq {a b : DoneLedgerRecord} (ha : a.Valid) (hb : b.Valid) :
    a.mergedFindingsCount b (a.status.merge b.status) =
      (ofLex (max a.rankedCount b.rankedCount)).2 := by
  obtain ⟨_, _, -⟩ := valid_iff.mp ha
  obtain ⟨_, _, -⟩ := valid_iff.mp hb
  rcases le_total a.rankedCount b.rankedCount with hl | hl
  · rw [max_eq_right hl]
    rw [rankedCount, rankedCount, Prod.Lex.toLex_le_toLex] at hl
    cases hs : a.status <;> cases hsb : b.status <;>
      simp_all [DoneLedgerStatus.merge, DoneLedgerStatus.rank, swfFindingsCount, rankedCount,
        mergedFindingsCount, tier] <;>
      omega
  rw [max_eq_left hl]
  rw [rankedCount, rankedCount, Prod.Lex.toLex_le_toLex] at hl
  cases hs : a.status <;> cases hsb : b.status <;>
    simp_all [DoneLedgerStatus.merge, DoneLedgerStatus.rank, swfFindingsCount, rankedCount,
      mergedFindingsCount, tier] <;>
    omega

theorem status_join (a b : DoneLedgerRecord) : (a.join b).status = a.status.merge b.status :=
  status_chosen a b

theorem findingsCount_join {a b : DoneLedgerRecord} (ha : a.Valid) (hb : b.Valid) :
    (a.join b).findingsCount = a.mergedFindingsCount b (a.join b).status := by
  rw [status_join, mergedFindingsCount_eq ha hb]
  rfl

theorem valid_join {a b : DoneLedgerRecord} (ha : a.Valid) (hb : b.Valid) : (a.join b).Valid := by
  have hc := findingsCount_join ha hb
  refine valid_iff.mpr ⟨fun h => ?_, fun h => ?_, ?_⟩
  · rw [hc, h, mergedFindingsCount]
  · rw [hc, h, mergedFindingsCount]
    omega
  show Option.isSome (if _ then b else a).errorCode = !(if _ then b else a).status.isScanned
  split
  · exact (valid_iff.mp hb).2.2
  · exact (valid_iff.mp ha).2.2

theorem rankedCount_join (a b : DoneLedgerRecord) :
    (a.join b).rankedCount = max a.rankedCount b.rankedCount := by
  have ht : tier (a.join b).status = (ofLex (max a.rankedCount b.rankedCount)).1 := by
    rw [status_join, tier_merge]
    rcases le_total a.rankedCount b.rankedCount with hl | hl
    · rw [max_eq_right hl]
      rcases Prod.Lex.le_iff.mp hl with hlt | ⟨he, -⟩
      · exact max_eq_right (Nat.le_of_lt hlt)
      · exact max_eq_right (Nat.le_of_eq he)
    rw [max_eq_left hl]
    rcases Prod.Lex.le_iff.mp hl with hlt | ⟨he, -⟩
    · exact max_eq_left (Nat.le_of_lt hlt)
    · exact max_eq_left (Nat.le_of_eq he)
  rw [rankedCount, ht]
  rfl

theorem coords_join (a b : DoneLedgerRecord) : (a.join b).coords = a.coords ⊔ b.coords := by
  refine Prod.ext ?_ (Prod.ext rfl (rankedCount_join a b))
  show (a.join b).provenanceWinnerKey = max a.provenanceWinnerKey b.provenanceWinnerKey
  have hk : (a.join b).provenanceWinnerKey =
      (if a.provenanceWinnerKey < b.provenanceWinnerKey then b else a).provenanceWinnerKey := rfl
  rw [hk]
  split
  · exact (max_eq_right (le_of_lt ‹_›)).symm
  · exact (max_eq_left (not_lt.mp ‹_›)).symm

theorem merge_eq_join {a b : DoneLedgerRecord} (ha : a.Valid) (hb : b.Valid) (hk : a.key = b.key) :
    a.merge b = .ok (a.join b) := by
  have hv := valid_iff.mp (valid_join ha hb)
  have hc := findingsCount_join ha hb
  have hco : (a.join b).errorCode = if (a.status.merge b.status).isScanned then none
      else (if a.provenanceWinnerKey < b.provenanceWinnerKey then b else a).errorCode.or
        (if a.provenanceWinnerKey < b.provenanceWinnerKey then a else b).errorCode := by
    rw [← status_join]
    have hp := hv.2.2
    cases hsc : (a.join b).status.isScanned with
    | true =>
      rw [hsc] at hp
      exact Option.not_isSome_iff_eq_none.mp (by rw [hp]; decide)
    | false =>
      rw [hsc] at hp
      exact (Option.or_of_isSome hp).symm
  rw [merge, ha, hb]
  show (if a.key ≠ b.key then _ else _) = _
  rw [if_neg (not_not_intro hk), ← hco, ← status_join, ← hc, tryNew, if_neg, if_neg]
  · rfl
  · rintro ⟨hs, hpo⟩
    rw [hv.1 hs] at hpo
    cases hpo
  · rintro ⟨hs, hz⟩
    exact hv.2.1 hs hz

section Laws

variable {a b c : DoneLedgerRecord}

theorem join_comm (hk : a.key = b.key) : a.join b = b.join a :=
  eq_of_coords hk (by rw [coords_join, coords_join, sup_comm])

theorem join_assoc : (a.join b).join c = a.join (b.join c) :=
  eq_of_coords rfl (by rw [coords_join, coords_join, coords_join, coords_join, sup_assoc])

theorem join_self : a.join a = a :=
  eq_of_coords rfl (by rw [coords_join, sup_idem])

end Laws

end DoneLedgerRecord

end GossipRs.Persistence
