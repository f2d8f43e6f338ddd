import GossipRs.Lib.Word
import GossipRs.Stdx.TimingWheel

/-! Accounting of lost findings (`shared_core.rs`, `scan_helpers.rs` and the finding buffer of
`scratch.rs`). The engine keeps the first findings of a chunk and counts the others; what the
scheduler prunes from the kept ones is subtracted from that count, although these were not dropped.
-/

namespace GossipRs.Scheduler

open Lib List
open Stdx (satAdd u64Max)

structure Finding where
  ruleId : Nat
  rootHintStart : Nat
  rootHintEnd : Nat
  spanStart : Nat
  spanEnd : Nat
  dedupeWithSpan : Bool
  normHash : Bytes
  confidenceScore : Int
  dropHintEnd : Nat
deriving DecidableEq

namespace Finding

def span (f : Finding) : Nat × Nat := if f.dedupeWithSpan then (f.spanStart, f.spanEnd) else (0, 0)

def key (f : Finding) : Nat × Nat × (Nat × Nat) × Bytes :=
  (f.rootHintStart, f.rootHintEnd, f.span, f.normHash)

/-- The order of the sort before it: by key, then the better score, the rule's name and its id. -/
def rank (ruleName : Nat → Bytes) (f : Finding) :
    Nat ×ₗ Nat ×ₗ (Nat ×ₗ Nat) ×ₗ Bytes ×ₗ Intᵒᵈ ×ₗ Bytes ×ₗ Nat :=
  toLex (f.rootHintStart, toLex (f.rootHintEnd, toLex (toLex f.span, toLex (f.normHash,
    toLex (.toDual f.confidenceScore, toLex (ruleName f.ruleId, f.ruleId))))))

end Finding

structure UnstableSort [LinearOrder β] (rank : α → β) where
  sort : List α → List α
  perm : ∀ l, (sort l).Perm l
  sorted : ∀ l, (sort l).Pairwise fun a b => rank a ≤ rank b

/-- The buffer of a scan: findings up to a cap, and the number of those beyond it. -/
structure ScanScratch where
  out : List Finding
  findingsDropped : Nat

/-- The end of `push_finding_with_drop_hint`, for a finding that is new. -/
def pushFinding (maxFindings : Nat) (s : ScanScratch) (f : Finding) : ScanScratch :=
  if s.out.length < maxFindings then { s with out := s.out ++ [f] }
  else { s with findingsDropped := satAdd s.findingsDropped 1 }

def scanChunkInto (maxFindings : Nat) (produced : List Finding) : ScanScratch :=
  produced.foldl (pushFinding maxFindings) ⟨[], 0⟩

def dropPrefixFindings (newBytesStart : Nat) (out : List Finding) : List Finding :=
  if newBytesStart = 0 then out else out.filter fun f => newBytesStart < f.dropHintEnd

variable {ruleName : Nat → Bytes} (sort : UnstableSort (Finding.rank ruleName))

def dedupeFindingsCrossRule (findings : List Finding) : List Finding :=
  if findings.length ≤ 1 then findings
  else (sort.sort findings).destutter fun a b => a.key ≠ b.key

structure WorkerMetricsLocal where
  findingsDropped : Nat
  findingsEmitted : Nat
  chunksScanned : Nat
  bytesScanned : Nat

/-- The findings kept of a chunk, without the overlap prefix and the duplicates. -/
def pending (newBytesStart : Nat) (kept : List Finding) : List Finding :=
  dedupeFindingsCrossRule sort (dropPrefixFindings newBytesStart kept)

def schedulerPruned (newBytesStart : Nat) (kept : List Finding) : Nat :=
  let rest := dropPrefixFindings newBytesStart kept
  satAdd (kept.length - rest.length) (rest.length - (dedupeFindingsCrossRule sort rest).length)

def accountDropped (m : WorkerMetricsLocal) (engineDropped pruned : Nat) : WorkerMetricsLocal :=
  { m with findingsDropped := satAdd m.findingsDropped (engineDropped - pruned) }

def scanChunkPostprocess (maxFindings : Nat) (produced : List Finding)
    (baseOffset prefixLen dataLen : Nat) (m : WorkerMetricsLocal) :
    List Finding × WorkerMetricsLocal :=
  let scratch := scanChunkInto maxFindings produced
  let newBytesStart := satAdd baseOffset prefixLen
  let emitted := pending sort newBytesStart scratch.out
  let m := accountDropped m scratch.findingsDropped (schedulerPruned sort newBytesStart scratch.out)
  (emitted, { m with
    findingsEmitted := satAdd m.findingsEmitted emitted.length
    chunksScanned := satAdd m.chunksScanned 1
    bytesScanned := satAdd m.bytesScanned (dataLen - prefixLen) })

/-! ### What is kept and what is emitted -/

theorem foldl_pushFinding {produced : List Finding} (s) (hs : s.findingsDropped ≤ u64Max) :
    produced.foldl (pushFinding maxFindings) s =
      ⟨s.out ++ produced.take (maxFindings - s.out.length),
        satAdd s.findingsDropped (produced.length - (maxFindings - s.out.length))⟩ := by
  induction produced generalizing s with
  | nil => simp [satAdd, Nat.min_eq_left hs]
  | cons f produced ih =>
    rw [foldl_cons, pushFinding]
    split
    next h =>
      obtain ⟨n, hn⟩ := Nat.exists_eq_add_of_lt h
      rw [ih ⟨s.out ++ [f], s.findingsDropped⟩ hs, length_append, length_singleton, length_cons,
        show maxFindings - s.out.length = n + 1 by omega, take_succ_cons, append_assoc,
        show maxFindings - (s.out.length + 1) = n by omega, Nat.add_sub_add_right]
      rfl
    next h =>
      rw [ih _ (Nat.min_le_right _ _), Nat.sub_eq_zero_of_le (not_lt.mp h), length_cons]
      simp only [take_zero, satAdd, ScanScratch.mk.injEq, true_and]
      omega

theorem scanChunkInto_eq (maxFindings produced) : scanChunkInto maxFindings produced =
    ⟨produced.take maxFindings, min (produced.length - maxFindings) u64Max⟩ := by
  rw [scanChunkInto, foldl_pushFinding _ (Nat.zero_le _)]
  simp [satAdd]

theorem exists_mem_destutter {l : List Finding} (h : f ∈ l) :
    ∃ g ∈ l.destutter fun a b => a.key ≠ b.key, g.key = f.key := by
  cases l with
  | nil => cases h
  | cons a l =>
    rw [destutter_cons']
    induction l generalizing a f with
    | nil => exact ⟨a, mem_cons_self, by rw [mem_singleton.mp h]⟩
    | cons b l ih =>
      rw [destutter'_cons]
      split
      next =>
        rcases mem_cons.mp h with rfl | h
        · exact ⟨f, mem_cons_self, rfl⟩
        · obtain ⟨g, hg, hk⟩ := ih b h
          exact ⟨g, mem_cons_of_mem _ hg, hk⟩
      next ha =>
        rcases mem_cons.mp h with rfl | h
        · exact ih f mem_cons_self
        rcases mem_cons.mp h with rfl | h
        · obtain ⟨g, hg, hk⟩ := ih a mem_cons_self
          exact ⟨g, hg, hk.trans (not_not.mp ha)⟩
        · exact ih a (mem_cons_of_mem _ h)

theorem mem_of_mem_dedupe (h : g ∈ dedupeFindingsCrossRule sort l) : g ∈ l := by
  rw [dedupeFindingsCrossRule] at h
  split at h
  next => exact h
  next => exact (sort.perm l).mem_iff.mp ((destutter_sublist _ _).subset h)

theorem exists_mem_dedupe (h : f ∈ l) : ∃ g ∈ dedupeFindingsCrossRule sort l, g.key = f.key := by
  rw [dedupeFindingsCrossRule]
  split
  next => exact ⟨f, h, rfl⟩
  next => exact exists_mem_destutter ((sort.perm _).mem_iff.mpr h)

/-! ### Equal keys are neighbours once sorted -/

namespace Finding

def keyRank (f : Finding) : Nat ×ₗ Nat ×ₗ (Nat ×ₗ Nat) ×ₗ Bytes :=
  toLex (f.rootHintStart, toLex (f.rootHintEnd, toLex (toLex f.span, f.normHash)))

theorem keyRank_le {a b : Finding} (h : a.rank ruleName ≤ b.rank ruleName) :
    a.keyRank ≤ b.keyRank := by
  simp only [rank, keyRank, Prod.Lex.toLex_le_toLex] at h ⊢
  rcases h with h | ⟨h₁, h | ⟨h₂, h | ⟨h₃, h⟩⟩⟩
  · exact .inl h
  · exact .inr ⟨h₁, .inl h⟩
  · exact .inr ⟨h₁, .inr ⟨h₂, .inl h⟩⟩
  · exact .inr ⟨h₁, .inr ⟨h₂, .inr ⟨h₃, h.elim le_of_lt fun h => h.1.le⟩⟩⟩

theorem key_eq_of_keyRank {a b : Finding} (h : a.keyRank = b.keyRank) : a.key = b.key := by
  simpa [keyRank, key] using h

end Finding

/-- After dedupe no two findings have the same key. -/
theorem nodup_dedupe (l : List Finding) :
    ((dedupeFindingsCrossRule sort l).map Finding.key).Nodup := by
  rw [dedupeFindingsCrossRule]
  split
  next h =>
    cases l with
    | nil => exact .nil
    | cons f l =>
      rw [length_eq_zero_iff.mp (Nat.le_zero.mp (Nat.le_of_succ_le_succ h))]
      exact nodup_singleton _
  next =>
    have hsorted := (sort.sorted l).sublist (destutter_sublist (fun a b => a.key ≠ b.key) _)
    have hchain := isChain_destutter (fun a b : Finding => a.key ≠ b.key) (sort.sort l)
    have hlt : ((sort.sort l).destutter fun a b => a.key ≠ b.key).IsChain
        fun a b => a.keyRank < b.keyRank := by
      rw [isChain_iff_getElem] at hchain ⊢
      intro i hi
      have hle := Finding.keyRank_le
        (pairwise_iff_getElem.mp hsorted i (i + 1) (Nat.lt_of_succ_lt hi) hi (Nat.lt_succ_self i))
      exact lt_of_le_of_ne hle fun he => hchain i hi (Finding.key_eq_of_keyRank he)
    have htrans : IsTrans Finding fun a b => a.keyRank < b.keyRank := ⟨fun _ _ _ => lt_trans⟩
    refine pairwise_map.mpr ((isChain_iff_pairwise.mp hlt).imp fun {a b} h he => ?_)
    have hrank : a.keyRank = b.keyRank := by simpa [Finding.keyRank, Finding.key] using he
    exact absurd h (hrank ▸ lt_irrefl _)

theorem length_dedupe (l : List Finding) :
    (dedupeFindingsCrossRule sort l).length = (l.map Finding.key).dedup.length := by
  rw [← length_map Finding.key]
  refine Perm.length_eq ((perm_ext_iff_of_nodup (nodup_dedupe sort l) (nodup_dedup _)).mpr ?_)
  intro key
  rw [mem_dedup, mem_map, mem_map]
  constructor
  · rintro ⟨g, hg, rfl⟩
    exact ⟨g, mem_of_mem_dedupe sort hg, rfl⟩
  · rintro ⟨f, hf, rfl⟩
    exact exists_mem_dedupe sort hf

/-! ### When a loss shows -/

/-- Not in the overlap with the chunk before. -/
def Finding.Beyond (start : Nat) (f : Finding) : Prop := start = 0 ∨ start < f.dropHintEnd

instance (start : Nat) (f : Finding) : Decidable (f.Beyond start) :=
  inferInstanceAs (Decidable (_ ∨ _))

theorem dropPrefixFindings_eq (start : Nat) (out : List Finding) :
    dropPrefixFindings start out = out.filter fun f => f.Beyond start := by
  rw [dropPrefixFindings]
  split
  next h => simp [Finding.Beyond, h]
  next h => simp [Finding.Beyond, h]

/-- The kept findings that are in the overlap or repeat the key of another beyond it. -/
def redundant (start : Nat) (kept : List Finding) : Nat :=
  kept.length - ((kept.filter fun f => f.Beyond start).map Finding.key).dedup.length

theorem schedulerPruned_eq (start : Nat) (kept : List Finding) :
    schedulerPruned sort start kept = min (redundant start kept) u64Max := by
  have hd : ((kept.filter fun f => f.Beyond start).map Finding.key).dedup.length ≤
      (kept.filter fun f => f.Beyond start).length :=
    (dedup_sublist _).length_le.trans_eq (length_map _)
  have hf := length_filter_le (fun f : Finding => decide (f.Beyond start)) kept
  simp only [schedulerPruned, redundant, length_dedupe, dropPrefixFindings_eq, satAdd]
  congr 1
  omega

theorem exists_mem_pending_iff (start : Nat) (kept : List Finding) (key) :
    (∃ g ∈ pending sort start kept, g.key = key) ↔
      ∃ g ∈ kept, g.Beyond start ∧ g.key = key := by
  rw [pending, dropPrefixFindings_eq]
  constructor
  · rintro ⟨g, hg, rfl⟩
    obtain ⟨hm, hb⟩ := mem_filter.mp (mem_of_mem_dedupe sort hg)
    exact ⟨g, hm, of_decide_eq_true hb, rfl⟩
  · rintro ⟨g, hm, hb, rfl⟩
    exact exists_mem_dedupe sort (mem_filter.mpr ⟨hm, decide_eq_true hb⟩)

/-- Every dropped finding beyond the overlap has the key of a kept one. -/
def NothingLost (maxFindings : Nat) (produced : List Finding) (start : Nat) : Prop :=
  ∀ f ∈ produced.drop maxFindings, start < f.dropHintEnd →
    ∃ g ∈ produced.take maxFindings, g.Beyond start ∧ g.key = f.key

theorem satAdd_eq_self_iff (hm : m ≤ u64Max) : satAdd m n = m ↔ n = 0 ∨ m = u64Max := by
  rw [satAdd]
  omega

/-- **Losses of findings.** A counter that has not moved means that every finding is represented,
exactly if no dropped finding is lost, or if more were dropped than kept ones are redundant and the
counter can still move. -/
theorem finding_loss_shown_iff (maxFindings produced baseOffset prefixLen dataLen m)
    (hcap : maxFindings < u64Max) (hm : m.findingsDropped ≤ u64Max) :
    ((scanChunkPostprocess sort maxFindings produced baseOffset prefixLen dataLen
        m).2.findingsDropped = m.findingsDropped →
      ∀ f ∈ produced, satAdd baseOffset prefixLen < f.dropHintEnd →
        ∃ g ∈ (scanChunkPostprocess sort maxFindings produced baseOffset prefixLen dataLen m).1,
          g.key = f.key) ↔
      NothingLost maxFindings produced (satAdd baseOffset prefixLen) ∨
        redundant (satAdd baseOffset prefixLen) (produced.take maxFindings) <
          produced.length - maxFindings ∧ m.findingsDropped ≠ u64Max := by
  simp only [scanChunkPostprocess, scanChunkInto_eq, accountDropped, schedulerPruned_eq,
    exists_mem_pending_iff]
  generalize satAdd baseOffset prefixLen = start
  have hle : redundant start (produced.take maxFindings) ≤ maxFindings := by
    rw [redundant, length_take]
    omega
  have hmoves : satAdd m.findingsDropped (min (produced.length - maxFindings) u64Max -
      min (redundant start (produced.take maxFindings)) u64Max) = m.findingsDropped ↔
      ¬ (redundant start (produced.take maxFindings) < produced.length - maxFindings ∧
        m.findingsDropped ≠ u64Max) := by
    rw [satAdd_eq_self_iff hm]
    omega
  rw [hmoves]
  constructor
  · intro h
    by_contra hno
    obtain ⟨hlost, hstill⟩ := not_or.mp hno
    refine hlost fun f hf hb => h hstill f (mem_of_mem_drop hf) hb
  · intro h hstill f hf hb
    have hnothing := h.resolve_right hstill
    rw [← take_append_drop maxFindings produced] at hf
    rcases mem_append.mp hf with hf | hf
    · exact ⟨f, hf, .inr hb, rfl⟩
    · exact hnothing f hf hb

def insertionSorted (ruleName : Nat → Bytes) : UnstableSort (Finding.rank ruleName) where
  sort l := l.insertionSort fun a b => a.rank ruleName ≤ b.rank ruleName
  perm := perm_insertionSort _
  sorted := pairwise_insertionSort _

def findingAt (ruleId start : Nat) : Finding :=
  ⟨ruleId, start, start + 4, 0, 0, false, [7], 0, start + 4⟩

/-- Of five findings three are kept; one kept finding repeats another, two are dropped, so the loss
is counted. -/
theorem finding_loss_shown_five :
    (scanChunkPostprocess (insertionSorted fun _ => []) 3
      [findingAt 0 1, findingAt 1 1, findingAt 0 9, findingAt 0 20, findingAt 2 30] 0 0 40
      ⟨0, 0, 0, 0⟩).2.findingsDropped ≠ 0 := by
  intro h
  have hshown := (finding_loss_shown_iff (insertionSorted fun _ => []) 3
    [findingAt 0 1, findingAt 1 1, findingAt 0 9, findingAt 0 20, findingAt 2 30] 0 0 40
    ⟨0, 0, 0, 0⟩ (by decide) (by decide)).mpr (.inr (by decide))
  obtain ⟨g, hg, hk⟩ := hshown h (findingAt 0 20) (by decide) (by decide)
  revert g
  decide

/-- Two rules find the same secret and fill the buffer; the third finding is lost, and the pruned
duplicate hides it. -/
theorem pruned_duplicate_hides_loss :
    let out := scanChunkPostprocess (insertionSorted fun _ => []) 2
      [findingAt 0 1, findingAt 1 1, findingAt 0 20] 0 0 30 ⟨0, 0, 0, 0⟩
    out.2.findingsDropped = 0 ∧ 0 < (findingAt 0 20).dropHintEnd ∧
      ∀ g ∈ out.1, g.key ≠ (findingAt 0 20).key := by
  decide

end GossipRs.Scheduler
