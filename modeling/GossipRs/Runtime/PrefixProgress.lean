import GossipRs.Runtime.CheckpointAggregator

/-! Whole histories of the prefix checkpoint aggregator, for receipts in any order. A history also
keeps the receipts accepted into the buffer and the checkpoints acknowledged, newest first. -/

namespace GossipRs.Runtime

open Lib PrefixCheckpointAggregator Outcome List
open Prog (wp_bind wp_get wp_lift wp_set wp_mono wp_ok wp_err)

/-! ## Totals -/

namespace Totals

def add (a b : Totals) : Totals :=
  ⟨a.findingCount + b.findingCount, a.occurrenceCount + b.occurrenceCount,
    a.observationCount + b.observationCount, a.recordCount + b.recordCount,
    a.scannedCount + b.scannedCount, a.doneLedgerFindingsCount + b.doneLedgerFindingsCount,
    a.committedUnits + b.committedUnits⟩

def ofPage (page : ItemCommitReceipt) : Totals :=
  ⟨page.findings.findingCount, page.findings.occurrenceCount, page.findings.observationCount,
    page.doneLedger.recordCount, page.doneLedger.scannedCount, page.doneLedger.findingsCount,
    page.scope.committedUnits⟩

def ofReceipt (receipt : UnitCommitReceipt) : Totals := ofPage receipt.durable

def sum (units : List UnitCommitReceipt) : Totals :=
  units.foldr (fun receipt totals => (ofReceipt receipt).add totals) zero

@[simp] theorem sum_nil : sum [] = zero := rfl

@[simp] theorem sum_cons (receipt) (units) :
    sum (receipt :: units) = (ofReceipt receipt).add (sum units) := rfl

@[simp] theorem add_zero (a : Totals) : a.add zero = a := rfl

@[simp] theorem zero_add (a) : zero.add a = a := by
  simp [add, zero]

theorem add_assoc (a b c : Totals) : (a.add b).add c = a.add (b.add c) := by
  simp [add, Nat.add_assoc]

theorem add_comm (a b : Totals) : a.add b = b.add a := by
  simp [add, Nat.add_comm]

theorem sum_append (l l' : List UnitCommitReceipt) :
    sum (l ++ l') = (sum l).add (sum l') := by
  induction l with
  | nil => rw [nil_append, sum_nil, zero_add]
  | cons receipt l ih => rw [cons_append, sum_cons, sum_cons, ih, add_assoc]

theorem sum_committedUnits (h : ∀ u ∈ units, u.durable.scope.committedUnits = 1) :
    (sum units).committedUnits = units.length := by
  induction units with
  | nil => rfl
  | cons u units ih =>
    have hr := ih fun v hv => h v (mem_cons_of_mem u hv)
    have hu := h u mem_cons_self
    rw [sum_cons, length_cons, ← hr, Nat.add_comm, ← hu]
    rfl

end Totals

theorem checkedAdd_eq_ok {next} (h : checkedAdd total next seq field = .ok n) :
    n = total + next := by
  rw [checkedAdd, check_eq_ok] at h
  cases h.2
  rfl

theorem Totals.accumulate_eq_ok {totals totals' : Totals}
    (h : totals.accumulate receipt = .ok totals') : totals' = totals.add (.ofReceipt receipt) := by
  unfold Totals.accumulate at h
  obtain ⟨_, h1, h⟩ := bind_eq_ok.mp h
  obtain ⟨_, h2, h⟩ := bind_eq_ok.mp h
  obtain ⟨_, h3, h⟩ := bind_eq_ok.mp h
  obtain ⟨_, h4, h⟩ := bind_eq_ok.mp h
  obtain ⟨_, h5, h⟩ := bind_eq_ok.mp h
  obtain ⟨_, h6, h⟩ := bind_eq_ok.mp h
  obtain ⟨_, h7, h⟩ := bind_eq_ok.mp h
  cases h
  rw [checkedAdd_eq_ok h1, checkedAdd_eq_ok h2, checkedAdd_eq_ok h3, checkedAdd_eq_ok h4,
    checkedAdd_eq_ok h5, checkedAdd_eq_ok h6, checkedAdd_eq_ok h7]
  rfl

/-! ## The scan of the buffer -/

def KeyAfter (kind : Option CheckpointBoundaryKind) (prev : Option Bytes) (key : Bytes) : Prop :=
  ∀ p ∈ prev, p ≤ key ∧ (kind = some .orderedContent → p < key)

variable {kind : Option CheckpointBoundaryKind}

theorem KeyAfter.trans {prev} (h1 : KeyAfter kind prev a) (h2 : KeyAfter kind (some a) b) :
    KeyAfter kind prev b := by
  intro p hp
  obtain ⟨hpa, hp'⟩ := h1 p hp
  obtain ⟨ha, ha'⟩ := h2 a rfl
  exact ⟨hpa.trans ha, fun hk => (hp' hk).trans (ha' hk)⟩

theorem keyAfter_of_checkKey {prev} (h : checkKey kind seq key prev = .ok u) :
    KeyAfter kind prev key := by
  intro p hp
  cases hp
  rw [checkKey, check_eq_ok, ensure_eq_ok, ensure_eq_ok] at h
  have hl : p ≤ key := not_lt.mp h.1
  refine ⟨hl, fun hk => lt_of_le_of_ne hl fun he => h.2 ⟨he.symm, hk⟩⟩

structure Scanned (kind : Option CheckpointBoundaryKind) (l : List UnitCommitReceipt)
    (scan scan' : PrefixScan) (units : List UnitCommitReceipt) : Prop where
  mem : ∀ u ∈ units, u ∈ l
  seqs : units.map UnitCommitReceipt.sequenceNo = List.range' scan.expected units.length
  totals : scan'.totals = scan.totals.add (.sum units)
  last : scan'.last = units.getLast?.or scan.last
  key : ∀ u ∈ units.getLast?, ∃ key, u.lastKey = some key ∧ scan'.previousKey = some key ∧
    KeyAfter kind scan.previousKey key
  idle : units = [] → scan' = scan

variable {l : List UnitCommitReceipt}

theorem scanPrefix_eq_ok : ∀ {scan scan'}, scanPrefix kind l scan = .ok scan' →
      ∃ units, Scanned kind l scan scan' units := by
  induction l with
  | nil =>
    intro scan scan' h
    cases h
    exact ⟨[], fun u hu => hu, rfl, rfl, rfl, fun u hu => (by cases hu), fun _ => rfl⟩
  | cons receipt rest ih =>
    intro scan scan' h
    rw [scanPrefix] at h
    by_cases hs : receipt.sequenceNo ≠ scan.expected
    · rw [if_pos hs] at h
      cases h
      exact ⟨[], fun u hu => absurd hu not_mem_nil, rfl, rfl, rfl,
        fun u hu => (by cases hu), fun _ => rfl⟩
    rw [if_neg hs] at h
    rw [ne_eq, not_not] at hs
    obtain ⟨key, hk, h⟩ := bind_eq_ok.mp h
    rw [check_eq_ok] at h
    obtain ⟨hc, h⟩ := h
    obtain ⟨totals, ht, h⟩ := bind_eq_ok.mp h
    rw [okOr_eq_ok] at hk
    have ha := keyAfter_of_checkKey hc
    have hsu := Totals.accumulate_eq_ok ht
    split at h
    · obtain ⟨units, hun⟩ := ih h
      refine ⟨receipt :: units, ?_, ?_, ?_, ?_, ?_, fun hn => by cases hn⟩
      · intro u hu
        rcases mem_cons.mp hu with rfl | hu
        · exact mem_cons_self
        · exact mem_cons_of_mem _ (hun.mem u hu)
      · rw [map_cons, hun.seqs, length_cons, range'_succ, hs]
      · rw [hun.totals, hsu, Totals.sum_cons, Totals.add_assoc]
      · rw [hun.last]
        cases units with
        | nil => rfl
        | cons u us => rw [getLast?_cons_cons]; rfl
      intro u hu
      cases units with
      | nil =>
        cases hu
        rw [hun.idle rfl]
        exact ⟨key, hk, rfl, ha⟩
      | cons v vs =>
        rw [getLast?_cons_cons] at hu
        obtain ⟨key', hl, hp, ha'⟩ := hun.key u hu
        exact ⟨key', hl, hp, ha.trans ha'⟩
    · cases h
      refine ⟨[receipt], ?_, ?_, ?_, rfl, ?_, fun hn => by cases hn⟩
      · intro u hu
        rw [mem_singleton.mp hu]
        exact mem_cons_self
      · rw [map_singleton, length_singleton, hs]
        rfl
      · rw [hsu]
        rfl
      intro u hu
      cases hu
      exact ⟨key, hk, rfl, ha⟩

/-! ## A prepared prefix -/

structure Prepared (kind : Option CheckpointBoundaryKind) (lastKey : Option Bytes) (first : Nat)
    (units : List UnitCommitReceipt) (p : PendingPrefixCheckpoint) : Prop where
  nonempty : units ≠ []
  seqs : units.map UnitCommitReceipt.sequenceNo = List.range' first units.length
  last_eq : p.lastSequenceNo + 1 = first + units.length
  counts : Totals.ofPage p.page = .sum units
  kind_eq : ∃ u ∈ units, p.page.scope.checkpointBoundary.kind = u.boundary.kind
  key : ∃ key, p.page.scope.checkpointBoundary.cursor.lastKey = some key ∧
    KeyAfter kind lastKey key

theorem normalizeCheckpointCursor_eq_some (h : normalizeCheckpointCursor boundary = some normal) :
    normal.cursor.lastKey = boundary.cursor.lastKey ∧ normal.kind = boundary.kind := by
  cases boundary with
  | orderedContent cursor =>
    obtain ⟨_, hk, rfl⟩ := Option.map_eq_some_iff.mp h
    exact ⟨hk.symm, rfl⟩
  | repoFrontier cursor =>
    cases h
    exact ⟨rfl, rfl⟩

variable {context : WriteContext}

theorem pageOf_eq_ok (h : pageOf context totals last = .ok page) :
    Totals.ofPage page = totals ∧ page.scope.checkpointBoundary.cursor.lastKey = last.lastKey ∧
      page.scope.checkpointBoundary.kind = last.boundary.kind := by
  unfold pageOf at h
  obtain ⟨boundary, hn, h⟩ := bind_eq_ok.mp h
  rw [okOr_eq_ok] at hn
  split at h
  · rw [mapErr_eq_ok, recordDoneLedger, check_eq_ok] at h
    cases h.2
    exact ⟨rfl, normalizeCheckpointCursor_eq_some hn⟩
  · cases h

theorem last_of_seqs {units : List UnitCommitReceipt}
    (hs : units.map UnitCommitReceipt.sequenceNo = range' first units.length)
    (hl : units.getLast? = some last) : last.sequenceNo + 1 = first + units.length := by
  have hm := congrArg getLast? hs
  rw [getLast?_map, hl, Option.map_some, getLast?_range'] at hm
  split at hm
  · cases hm
  · have := Option.some.inj hm
    omega

theorem buildContiguousPrefix_eq_ok {agg : PrefixCheckpointAggregator}
    (h : agg.buildContiguousPrefix = .ok (some p)) :
    ∃ units, (∀ u ∈ units, u ∈ agg.receipts) ∧
      Prepared agg.boundaryKind agg.lastCheckpointKey agg.nextSequenceNo units p := by
  obtain ⟨scan, hs, h⟩ := bind_eq_ok.mp h
  obtain ⟨units, hun⟩ := scanPrefix_eq_ok hs
  cases hl : scan.last with
  | none =>
    rw [hl] at h
    cases h
  | some last =>
    rw [hl] at h
    obtain ⟨_, hp, h⟩ := bind_eq_ok.mp h
    cases h
    have hg : units.getLast? = some last := by
      have ho := hun.last
      rw [hl, Option.or_none] at ho
      exact ho.symm
    have ht : scan.totals = .sum units := by
      rw [hun.totals, Totals.zero_add]
    obtain ⟨hc, hpk, hk⟩ := pageOf_eq_ok hp
    obtain ⟨key, hlk, -, ha⟩ := hun.key last hg
    refine ⟨units, fun u hu => (dropWhile_sublist _).subset (hun.mem u hu), ?_,
      hun.seqs, last_of_seqs hun.seqs hg, hc.trans ht,
      ⟨last, List.mem_of_getLast? hg, hk⟩, key, hpk.trans hlk, ha⟩
    intro hn
    rw [hn] at hg
    cases hg

/-! ## The buffer -/

abbrev Ascending (l : List UnitCommitReceipt) : Prop :=
  l.Pairwise fun a b => a.sequenceNo < b.sequenceNo

theorem receiptsFrom_eq_filter (n : Nat) (h : Ascending l) :
    receiptsFrom n l = l.filter fun receipt => decide (n ≤ receipt.sequenceNo) := by
  induction l with
  | nil => rfl
  | cons receipt l ih =>
    have hc := pairwise_cons.mp h
    rw [receiptsFrom, dropWhile_cons]
    by_cases hn : receipt.sequenceNo < n
    · rw [if_pos (decide_eq_true hn), filter_cons_of_neg (by simp [hn])]
      exact ih hc.2
    rw [if_neg (by simp [hn]), eq_comm, filter_eq_self]
    intro x hx
    rcases mem_cons.mp hx with rfl | hx
    · exact decide_eq_true (not_lt.mp hn)
    · exact decide_eq_true ((not_lt.mp hn).trans (hc.1 x hx).le)

theorem insertReceipt_perm (receipt) (l) :
    (insertReceipt receipt l).Perm (receipt :: l) := by
  have h : (insertReceipt receipt l).Perm
      (receipt :: (receiptsBefore receipt.sequenceNo l ++ receiptsFrom receipt.sequenceNo l)) :=
    perm_middle
  rwa [receiptsBefore, receiptsFrom, takeWhile_append_dropWhile] at h

theorem findReceipt_eq_none (h : findReceipt n l = none) : ∀ x ∈ l, x.sequenceNo ≠ n := by
  intro x hx he
  exact List.find?_eq_none.mp h x hx (decide_eq_true he)

theorem Ascending.insertReceipt (h : Ascending l) (hn : findReceipt receipt.sequenceNo l = none) :
    Ascending (insertReceipt receipt l) := by
  have hb : ∀ x ∈ receiptsBefore receipt.sequenceNo l, x.sequenceNo < receipt.sequenceNo := by
    intro x hx
    have hl := mem_takeWhile_imp hx
    exact of_decide_eq_true hl
  have hf : ∀ x ∈ receiptsFrom receipt.sequenceNo l, receipt.sequenceNo < x.sequenceNo := by
    intro x hx
    rw [receiptsFrom_eq_filter _ h, mem_filter] at hx
    exact lt_of_le_of_ne (of_decide_eq_true hx.2) (findReceipt_eq_none hn x hx.1).symm
  refine pairwise_append.mpr ⟨h.sublist (takeWhile_sublist _),
    pairwise_cons.mpr ⟨hf, h.sublist (dropWhile_sublist _)⟩, ?_⟩
  intro x hx y hy
  rcases mem_cons.mp hy with rfl | hy
  · exact hb x hx
  · exact (hb x hx).trans (hf y hy)

/-! ## What one call does -/

structure Admitted (agg : PrefixCheckpointAggregator) (receipt : UnitCommitReceipt) : Prop where
  single : receipt.durable.scope.committedUnits = 1
  ahead : agg.nextSequenceNo ≤ receipt.sequenceNo
  kind_eq : agg.boundaryKind = none ∨ agg.boundaryKind = some receipt.boundary.kind
  absent : findReceipt receipt.sequenceNo agg.receipts = none
  room : receipt.sequenceNo = agg.nextSequenceNo ∨ agg.receipts.length < agg.maxBuffered

theorem validateReceipt_eq_ok {kind} (h : validateReceipt context receipt = .ok kind) :
    receipt.durable.scope.committedUnits = 1 ∧ kind = receipt.boundary.kind := by
  simp only [validateReceipt, check_eq_ok] at h
  exact ⟨ensure_eq_ok.mp h.2.1, (Outcome.ok.inj h.2.2.2.2).symm⟩

section Calls

variable {agg : PrefixCheckpointAggregator} {P : Empty → Prop}

theorem wp_bufferReceipt :
    Prog.wp (bufferReceipt receipt) agg
      (fun outcome agg' => (outcome ≠ .buffered ∧ agg' = agg ∧ agg.receipts ≠ []) ∨
        (outcome = .buffered ∧ findReceipt receipt.sequenceNo agg.receipts = none ∧
          (receipt.sequenceNo = agg.nextSequenceNo ∨ agg.receipts.length < agg.maxBuffered) ∧
          agg' = { agg with receipts := insertReceipt receipt agg.receipts }))
      (fun _ agg' => agg' = agg ∧ agg.receipts ≠ []) P := by
  rw [bufferReceipt, wp_bind, wp_get]
  dsimp only
  cases hfi : findReceipt receipt.sequenceNo agg.receipts with
  | some existing =>
    have hne : agg.receipts ≠ [] := ne_nil_of_mem (List.mem_of_find?_eq_some hfi)
    dsimp only
    split
    · exact .inl ⟨nofun, rfl, hne⟩
    · exact ⟨rfl, hne⟩
  | none =>
    dsimp only
    split
    case isTrue hf =>
      refine ⟨rfl, fun hn => ?_⟩
      have hp := agg.maxBuffered_pos
      rw [hn, length_nil] at hf
      omega
    case isFalse hf =>
      refine .inr ⟨rfl, rfl, ?_, rfl⟩
      omega

/-- Before the kind is pinned the buffer is empty, so that nothing fails after pinning it. -/
theorem wp_recordReceipt (hf : agg.boundaryKind = none → agg.receipts = []) :
    Prog.wp (recordReceipt receipt) agg (fun outcome agg' => (outcome ≠ .buffered ∧ agg' = agg) ∨
        (outcome = .buffered ∧ Admitted agg receipt ∧ agg' = { agg with
            boundaryKind := some receipt.boundary.kind
            receipts := insertReceipt receipt agg.receipts }))
      (fun _ agg' => agg' = agg) P := by
  rw [recordReceipt, wp_bind, wp_get, wp_bind, wp_lift]
  refine (post_of_eq _).mono (fun kind _ hv => ?_) (fun _ _ _ => rfl) (fun p _ _ => p.elim)
  obtain ⟨hs, rfl⟩ := validateReceipt_eq_ok hv
  by_cases hse : receipt.sequenceNo < agg.nextSequenceNo
  · rw [if_pos hse]
    exact .inl ⟨nofun, rfl⟩
  rw [if_neg hse, wp_bind, pinBoundaryKind, wp_bind, wp_get]
  cases hk : agg.boundaryKind with
  | none =>
    have he := hf hk
    rw [wp_set]
    refine wp_mono wp_bufferReceipt ?_ (fun _ _ h => absurd he h.2) (fun _ h => h)
    rintro outcome agg' (⟨-, -, hn⟩ | ⟨rfl, ha, hr, rfl⟩)
    · exact absurd he hn
    · exact .inr ⟨rfl, ⟨hs, not_lt.mp hse, .inl hk, ha, hr⟩, rfl⟩
  | some expected =>
    dsimp only
    split
    case isTrue heq =>
      rw [Prog.wp_pure]
      refine wp_mono wp_bufferReceipt ?_ (fun _ _ h => h.1) (fun _ h => h)
      rintro outcome agg' (⟨hn, rfl, -⟩ | ⟨rfl, ha, hr, rfl⟩)
      · exact .inl ⟨hn, rfl⟩
      rw [heq] at hk
      refine .inr ⟨rfl, ⟨hs, not_lt.mp hse, .inr hk, ha, hr⟩, ?_⟩
      rw [← hk]
    case isFalse => exact rfl

theorem wp_prepareCheckpoint :
    Prog.wp prepareCheckpoint agg
      (fun _ agg' => agg' = agg ∨ ∃ built, agg.buildContiguousPrefix = .ok built ∧
        agg' = { agg with pending := built })
      (fun _ agg' => agg' = agg) P := by
  rw [prepareCheckpoint, wp_bind, wp_get]
  split
  · exact .inl rfl
  rw [wp_bind, wp_lift]
  exact (post_of_eq _).mono (fun built hb _ => .inr ⟨built, hb, rfl⟩)
    (fun _ _ _ => rfl) (fun p _ _ => p.elim)

theorem checkAcknowledged_eq_ok (h : agg.checkAcknowledged p receipt = .ok checked) :
    checked = (p.lastSequenceNo + 1, agg.checkpointedUnits + p.page.scope.committedUnits,
      ⟨p.page, receipt⟩) := by
  obtain ⟨_, hn, h⟩ := bind_eq_ok.mp h
  obtain ⟨_, hu, h⟩ := bind_eq_ok.mp h
  obtain ⟨page, hp, h⟩ := bind_eq_ok.mp h
  cases h
  rw [mapErr_eq_ok, recordCheckpoint, check_eq_ok] at hp
  cases hp.2
  rw [checkedAdd_eq_ok hn, checkedAdd_eq_ok hu]

theorem wp_acknowledgeCheckpoint :
    Prog.wp (acknowledgeCheckpoint receipt) agg
      (fun page agg' => ∃ p, agg.pending = some p ∧ page.itemCommit = p.page ∧ agg' = { agg with
          pending := none
          receipts := receiptsFrom (p.lastSequenceNo + 1) agg.receipts
          nextSequenceNo := p.lastSequenceNo + 1
          checkpointedUnits := agg.checkpointedUnits + p.page.scope.committedUnits
          lastCheckpointKey := p.page.scope.checkpointBoundary.cursor.lastKey })
      (fun _ agg' => agg' = agg) P := by
  rw [acknowledgeCheckpoint, wp_bind, wp_get, wp_bind, wp_set]
  cases hp : agg.pending with
  | none =>
    refine (?_ : { agg with pending := none } = agg)
    rw [← hp]
  | some p =>
    rw [wp_bind, Prog.wp_onErr, wp_lift]
    refine (post_of_eq _).mono (fun checked hc _ => ?_) (fun _ _ _ => ?_) (fun p _ _ => p.elim)
    · rw [checkAcknowledged_eq_ok hc]
      exact ⟨p, rfl, rfl, rfl⟩
    · refine (?_ : { agg with pending := some p } = agg)
      rw [← hp]

end Calls

/-! ## Histories -/

inductive AggregatorCall where
  | recordReceipt (receipt : UnitCommitReceipt)
  | prepareCheckpoint
  | discardPending
  | acknowledgeCheckpoint (receipt : CheckpointCommitReceipt)

structure Acknowledged where
  before : Nat
  after : Nat
  page : PageCommitReceipt

namespace Acknowledged

def boundary (ack : Acknowledged) : CheckpointBoundary :=
  ack.page.itemCommit.scope.checkpointBoundary

def key (ack : Acknowledged) : Option Bytes := ack.boundary.cursor.lastKey

def totals (ack : Acknowledged) : Totals := .ofPage ack.page.itemCommit

def sumTotals (acks : List Acknowledged) : Totals :=
  acks.foldr (fun ack sums => ack.totals.add sums) .zero

end Acknowledged

/-- An aggregator with what its calls reported so far, newest first. -/
structure Progress where
  agg : PrefixCheckpointAggregator
  recorded : List UnitCommitReceipt
  acks : List Acknowledged

inductive Progress.Step (s : Progress) : AggregatorCall → Progress → Prop where
  | buffered {receipt agg'} (h : recordReceipt receipt s.agg = .ok (.buffered, agg')) :
    Step s (.recordReceipt receipt) { s with agg := agg', recorded := receipt :: s.recorded }
  | known {receipt outcome agg'} (h : recordReceipt receipt s.agg = .ok (outcome, agg'))
      (hknown : outcome ≠ .buffered) : Step s (.recordReceipt receipt) { s with agg := agg' }
  | refused {receipt e agg'} (h : recordReceipt receipt s.agg = .err (e, agg')) :
    Step s (.recordReceipt receipt) { s with agg := agg' }
  | prepared {p agg'} (h : prepareCheckpoint s.agg = .ok (p, agg')) :
    Step s .prepareCheckpoint { s with agg := agg' }
  | unprepared {e agg'} (h : prepareCheckpoint s.agg = .err (e, agg')) :
    Step s .prepareCheckpoint { s with agg := agg' }
  | discarded {p agg'} (h : discardPending s.agg = .ok (p, agg')) :
    Step s .discardPending { s with agg := agg' }
  | acknowledged {receipt page agg'} (h : acknowledgeCheckpoint receipt s.agg = .ok (page, agg')) :
    Step s (.acknowledgeCheckpoint receipt) { s with
      agg := agg'
      acks := ⟨s.agg.nextSequenceNo, agg'.nextSequenceNo, page⟩ :: s.acks }
  | unacknowledged {receipt e agg'}
      (h : acknowledgeCheckpoint receipt s.agg = .err (e, agg')) :
    Step s (.acknowledgeCheckpoint receipt) { s with agg := agg' }

inductive Progress.Run (context : WriteContext) (start maxBuffered : Nat) (h : 0 < maxBuffered) :
    List AggregatorCall → Progress → Prop where
  | new : Run context start maxBuffered h [] ⟨.new context start maxBuffered h, [], []⟩
  | call {calls s call s'} (hrun : Run context start maxBuffered h calls s)
      (hstep : s.Step call s') : Run context start maxBuffered h (call :: calls) s'

def Consecutive (start : Nat) : List Acknowledged → Nat → Prop
  | [], next => next = start
  | ack :: acks, next => ack.after = next ∧ ack.before < ack.after ∧
    Consecutive start acks ack.before

def Acknowledged.Exact (recorded : List UnitCommitReceipt) (ack : Acknowledged) : Prop :=
  ∃ units, (∀ u ∈ units, u ∈ recorded) ∧
    units.map UnitCommitReceipt.sequenceNo = List.range' ack.before (ack.after - ack.before) ∧
    ack.page.itemCommit.scope.committedUnits = ack.after - ack.before ∧
    ack.totals = .sum units

/-- `newer` may follow `older`: keys never decrease, and increase for ordered content. -/
def Acknowledged.Follows (newer older : Acknowledged) : Prop :=
  ∃ key older_key, newer.key = some key ∧ older.key = some older_key ∧ older_key ≤ key ∧
    (newer.boundary.kind = .orderedContent → older_key < key)

structure Progress.Inv (start maxBuffered : Nat) (s : Progress) : Prop where
  capacity : s.agg.maxBuffered = maxBuffered
  ascending : Ascending s.agg.receipts
  ahead : ∀ r ∈ s.agg.receipts, s.agg.nextSequenceNo ≤ r.sequenceNo
  kinds : ∀ r ∈ s.agg.receipts, s.agg.boundaryKind = some r.boundary.kind
  room : (s.agg.receipts.filter fun r =>
    decide (r.sequenceNo ≠ s.agg.nextSequenceNo)).length ≤ s.agg.maxBuffered
  prepared : ∀ p ∈ s.agg.pending, ∃ units, (∀ u ∈ units, u ∈ s.agg.receipts) ∧
    Prepared s.agg.boundaryKind s.agg.lastCheckpointKey s.agg.nextSequenceNo units p
  fresh : s.agg.boundaryKind = none → s.agg.receipts = [] ∧ s.acks = []
  buffered : ∀ r ∈ s.agg.receipts, r ∈ s.recorded
  single : ∀ r ∈ s.recorded, r.durable.scope.committedUnits = 1
  settled : ∀ r ∈ s.recorded, r.sequenceNo < s.agg.nextSequenceNo ∨ r ∈ s.agg.receipts
  once : (s.recorded.map UnitCommitReceipt.sequenceNo).Nodup
  consecutive : Consecutive start s.acks s.agg.nextSequenceNo
  exact : ∀ ack ∈ s.acks, ack.Exact s.recorded
  ackKinds : ∀ ack ∈ s.acks, s.agg.boundaryKind = some ack.boundary.kind
  lastKey : s.agg.lastCheckpointKey = s.acks.head?.bind Acknowledged.key
  keyed : ∀ ack ∈ s.acks, ack.key.isSome
  follows : s.acks.Pairwise Acknowledged.Follows

theorem Acknowledged.Exact.mono {ack : Acknowledged} (h : ack.Exact recorded)
    (hs : recorded ⊆ recorded') : ack.Exact recorded' := by
  obtain ⟨units, hun, hr⟩ := h
  exact ⟨units, fun u hu => hs (hun u hu), hr⟩

/-- The buffer with one more receipt keeps its bound: only the receipt that the prefix waits for
enters a full buffer, and it is not counted. -/
theorem Admitted.room_insert (h : Admitted agg receipt)
    (hr : (agg.receipts.filter fun r => decide (r.sequenceNo ≠ agg.nextSequenceNo)).length ≤
      agg.maxBuffered) :
    ((insertReceipt receipt agg.receipts).filter fun r =>
      decide (r.sequenceNo ≠ agg.nextSequenceNo)).length ≤ agg.maxBuffered := by
  rw [((insertReceipt_perm receipt agg.receipts).filter _).length_eq]
  rcases h.room with he | hl
  · rwa [filter_cons_of_neg (by simp [he])]
  · exact (length_filter_le _ _).trans (by rw [length_cons]; omega)

namespace Progress

section Preservation

variable {start maxBuffered : Nat} {s : Progress}

theorem inv_new (context) (start maxBuffered) (h : 0 < maxBuffered) :
    Inv start maxBuffered ⟨.new context start maxBuffered h, [], []⟩ where
  capacity := rfl
  ascending := List.Pairwise.nil
  ahead := fun _ hr => absurd hr not_mem_nil
  kinds := fun _ hr => absurd hr not_mem_nil
  room := Nat.zero_le _
  prepared := fun _ hp => by cases hp
  fresh := fun _ => ⟨rfl, rfl⟩
  buffered := fun _ hr => absurd hr not_mem_nil
  single := fun _ hr => absurd hr not_mem_nil
  settled := fun _ hr => absurd hr not_mem_nil
  once := nodup_nil
  consecutive := rfl
  exact := fun _ hr => absurd hr not_mem_nil
  ackKinds := fun _ hr => absurd hr not_mem_nil
  lastKey := rfl
  keyed := fun _ hr => absurd hr not_mem_nil
  follows := List.Pairwise.nil

section

variable (hinv : s.Inv start maxBuffered)

include hinv

theorem Inv.setPending {pending} (h : ∀ p ∈ pending, ∃ units, (∀ u ∈ units, u ∈ s.agg.receipts) ∧
      Prepared s.agg.boundaryKind s.agg.lastCheckpointKey s.agg.nextSequenceNo units p) :
    Inv start maxBuffered { s with agg := { s.agg with pending := pending } } :=
  { hinv with prepared := h }

theorem Inv.buffer (h : Admitted s.agg receipt) :
    Inv start maxBuffered { s with
        agg := { s.agg with
          boundaryKind := some receipt.boundary.kind
          receipts := insertReceipt receipt s.agg.receipts }
        recorded := receipt :: s.recorded } := by
  have hm : ∀ r, r ∈ insertReceipt receipt s.agg.receipts ↔ r = receipt ∨ r ∈ s.agg.receipts :=
    fun r => (insertReceipt_perm receipt s.agg.receipts).mem_iff.trans mem_cons
  -- the kind changes only when nothing depends on it yet
  have hk : (s.agg.receipts = [] ∧ s.acks = []) ∨
      s.agg.boundaryKind = some receipt.boundary.kind := h.kind_eq.imp hinv.fresh id
  refine ⟨hinv.capacity, hinv.ascending.insertReceipt h.absent, ?_, ?_,
    h.room_insert hinv.room, ?_, nofun, ?_, ?_, ?_, ?_, hinv.consecutive, ?_, ?_, hinv.lastKey,
    hinv.keyed, hinv.follows⟩
  case refine_1 =>
    intro r hr
    rcases (hm r).mp hr with rfl | hr
    · exact h.ahead
    · exact hinv.ahead r hr
  case refine_2 =>
    intro r hr
    rcases (hm r).mp hr with rfl | hr
    · rfl
    rcases hk with hn | hk
    · rw [hn.1] at hr
      exact absurd hr not_mem_nil
    · exact hk.symm.trans (hinv.kinds r hr)
  case refine_3 =>
    intro p hp
    obtain ⟨units, hun, hpr⟩ := hinv.prepared p hp
    rcases hk with hn | hk
    · rw [hn.1] at hun
      exact absurd (eq_nil_iff_forall_not_mem.mpr fun u hu =>
        not_mem_nil (hun u hu)) hpr.nonempty
    · rw [hk] at hpr
      exact ⟨units, fun u hu => (hm u).mpr (.inr (hun u hu)), hpr⟩
  case refine_4 =>
    intro r hr
    rcases (hm r).mp hr with rfl | hr
    · exact mem_cons_self
    · exact mem_cons_of_mem _ (hinv.buffered r hr)
  case refine_5 =>
    intro r hr
    rcases mem_cons.mp hr with rfl | hr
    · exact h.single
    · exact hinv.single r hr
  case refine_6 =>
    intro r hr
    rcases mem_cons.mp hr with rfl | hr
    · exact .inr ((hm r).mpr (.inl rfl))
    · exact (hinv.settled r hr).imp id fun hb => (hm r).mpr (.inr hb)
  case refine_7 =>
    rw [map_cons, nodup_cons]
    refine ⟨fun hs => ?_, hinv.once⟩
    obtain ⟨r, hr, he⟩ := mem_map.mp hs
    rcases hinv.settled r hr with hl | hb
    · have := h.ahead
      omega
    · exact findReceipt_eq_none h.absent r hb he
  case refine_8 =>
    exact fun ack ha => (hinv.exact ack ha).mono (subset_cons_self _ _)
  case refine_9 =>
    intro ack ha
    rcases hk with hn | hk
    · rw [hn.2] at ha
      exact absurd ha not_mem_nil
    · exact hk.symm.trans (hinv.ackKinds ack ha)

theorem Inv.newKey_after (ha : KeyAfter s.agg.boundaryKind s.agg.lastCheckpointKey key) :
    ∀ older ∈ s.acks, ∃ older_key, older.key = some older_key ∧ older_key ≤ key ∧
      (s.agg.boundaryKind = some .orderedContent → older_key < key) := by
  intro older ho
  have hk := hinv.keyed
  have hki := hinv.ackKinds
  have hf := hinv.follows
  rw [hinv.lastKey] at ha
  cases hac : s.acks with
  | nil =>
    rw [hac] at ho
    exact absurd ho not_mem_nil
  | cons newest acks =>
    rw [hac] at ho ha hf hk hki
    obtain ⟨last, hl⟩ := Option.isSome_iff_exists.mp (hk newest mem_cons_self)
    obtain ⟨hle, hlt⟩ := ha last hl
    rcases mem_cons.mp ho with rfl | ho
    · exact ⟨last, hl, hle, hlt⟩
    obtain ⟨_, older_key, hl', hke, hle', hlt'⟩ :=
      (pairwise_cons.mp hf).1 older ho
    cases hl.symm.trans hl'
    refine ⟨older_key, hke, hle'.trans hle, fun hor => ?_⟩
    have hkin := (hki newest mem_cons_self).symm.trans hor
    exact (hlt' (Option.some.inj hkin)).trans_le hle

theorem Inv.acknowledge (hp : s.agg.pending = some p) (hpa : page.itemCommit = p.page)
    (checkpointed : Nat) :
    Inv start maxBuffered { s with
        agg := { s.agg with
          pending := none
          receipts := receiptsFrom (p.lastSequenceNo + 1) s.agg.receipts
          nextSequenceNo := p.lastSequenceNo + 1
          checkpointedUnits := checkpointed
          lastCheckpointKey := p.page.scope.checkpointBoundary.cursor.lastKey }
        acks := ⟨s.agg.nextSequenceNo, p.lastSequenceNo + 1, page⟩ :: s.acks } := by
  obtain ⟨units, hun, hpr⟩ := hinv.prepared p hp
  obtain ⟨v, hv, hvk⟩ := hpr.kind_eq
  obtain ⟨key, hke, ha⟩ := hpr.key
  have hla := hpr.last_eq
  have hl := length_pos_of_ne_nil hpr.nonempty
  have hk : s.agg.boundaryKind = some page.itemCommit.scope.checkpointBoundary.kind := by
    rw [hpa, hvk]
    exact hinv.kinds v (hun v hv)
  have hf := receiptsFrom_eq_filter (p.lastSequenceNo + 1) hinv.ascending
  have hm : ∀ r, r ∈ receiptsFrom (p.lastSequenceNo + 1) s.agg.receipts ↔
      r ∈ s.agg.receipts ∧ p.lastSequenceNo + 1 ≤ r.sequenceNo := by
    intro r
    rw [hf, mem_filter, decide_eq_true_iff]
  refine ⟨hinv.capacity, hinv.ascending.sublist (dropWhile_sublist _), fun r hr => ((hm r).mp hr).2,
    fun r hr => hinv.kinds r ((hm r).mp hr).1, ?_, nofun, ?_,
    fun r hr => hinv.buffered r ((hm r).mp hr).1, hinv.single, ?_, hinv.once,
    ⟨rfl, by dsimp only; omega, hinv.consecutive⟩, ?_, ?_, ?_, ?_, ?_⟩
  case refine_1 =>
    -- what is left was counted before, since it lies beyond the old next number
    refine (length_filter_le _ _).trans (le_trans ?_ hinv.room)
    dsimp only
    rw [hf]
    refine Sublist.length_le (monotone_filter_right _ fun r hr => ?_)
    have hle := of_decide_eq_true hr
    exact decide_eq_true (by omega)
  case refine_2 =>
    intro hn
    exact absurd (hk.symm.trans hn) nofun
  case refine_3 =>
    intro r hr
    rcases hinv.settled r hr with hlt | hb
    · exact .inl (by dsimp only; omega)
    by_cases hle : p.lastSequenceNo + 1 ≤ r.sequenceNo
    · exact .inr ((hm r).mpr ⟨hb, hle⟩)
    · exact .inl (not_le.mp hle)
  case refine_4 =>
    intro ack hac
    rcases mem_cons.mp hac with rfl | hac
    · have hc : p.lastSequenceNo + 1 - s.agg.nextSequenceNo = units.length := by omega
      refine ⟨units, fun u hu => hinv.buffered u (hun u hu), ?_, ?_, ?_⟩
      · rw [hpr.seqs, hc]
      · have hs := congrArg Totals.committedUnits hpr.counts
        rw [Totals.sum_committedUnits fun u hu => hinv.single u (hinv.buffered u (hun u hu))]
          at hs
        rw [hc, ← hs, hpa]
        rfl
      · exact (congrArg Totals.ofPage hpa).trans hpr.counts
    · exact hinv.exact ack hac
  case refine_5 =>
    intro ack hac
    rcases mem_cons.mp hac with rfl | hac
    · exact hk
    · exact hinv.ackKinds ack hac
  case refine_6 =>
    rw [List.head?_cons, Option.bind_some, Acknowledged.key, Acknowledged.boundary, hpa]
  case refine_7 =>
    intro ack hac
    rcases mem_cons.mp hac with rfl | hac
    · rw [Acknowledged.key, Acknowledged.boundary, hpa, hke]
      rfl
    · exact hinv.keyed ack hac
  case refine_8 =>
    refine pairwise_cons.mpr ⟨fun older hol => ?_, hinv.follows⟩
    obtain ⟨older_key, holder_key, hle, hlt⟩ := hinv.newKey_after ha older hol
    rw [hk] at hlt
    exact ⟨key, older_key, by rw [Acknowledged.key, Acknowledged.boundary, hpa, hke],
      holder_key, hle, fun ho => hlt (congrArg some ho)⟩

theorem Inv.step (hs : s.Step call s') : s'.Inv start maxBuffered := by
  have hf := fun hn => (hinv.fresh hn).1
  cases hs with
  | buffered h =>
    rcases wp_ok (wp_recordReceipt (P := fun _ => True) hf) h with ⟨hne, -⟩ | ⟨-, ha, rfl⟩
    · exact absurd rfl hne
    · exact hinv.buffer ha
  | known h hknown =>
    rcases wp_ok (wp_recordReceipt (P := fun _ => True) hf) h with ⟨-, rfl⟩ | ⟨he, -⟩
    · exact hinv
    · exact absurd he hknown
  | refused h =>
    cases wp_err (wp_recordReceipt (P := fun _ => True) hf) h
    exact hinv
  | prepared h =>
    rcases wp_ok (wp_prepareCheckpoint (P := fun _ => True)) h with rfl | ⟨_, hb, rfl⟩
    · exact hinv
    refine hinv.setPending fun p hp => ?_
    rw [hp] at hb
    exact buildContiguousPrefix_eq_ok hb
  | unprepared h =>
    cases wp_err (wp_prepareCheckpoint (P := fun _ => True)) h
    exact hinv
  | discarded h =>
    cases h
    exact hinv.setPending nofun
  | acknowledged h =>
    obtain ⟨p, hp, hpa, rfl⟩ := wp_ok (wp_acknowledgeCheckpoint (P := fun _ => True)) h
    exact hinv.acknowledge hp hpa _
  | unacknowledged h =>
    cases wp_err (wp_acknowledgeCheckpoint (P := fun _ => True)) h
    exact hinv

end

end Preservation

theorem Run.inv {maxBuffered h} (hr : Run context start maxBuffered h calls s) :
    s.Inv start maxBuffered := by
  induction hr with
  | new => exact inv_new context start maxBuffered h
  | call _ hstep ih => exact ih.step hstep

end Progress

/-! ## What the checkpoints cover -/

variable {acks : List Acknowledged}

theorem Consecutive.after_le : ∀ {next}, Consecutive start acks next →
      start ≤ next ∧ ∀ ack ∈ acks, ack.after ≤ next := by
  induction acks with
  | nil =>
    intro next h
    exact ⟨h.ge, fun _ hac => absurd hac not_mem_nil⟩
  | cons newest acks ih =>
    intro next h
    obtain ⟨ha, _, hr⟩ := h
    obtain ⟨_, hl⟩ := ih hr
    refine ⟨by omega, fun ack hac => ?_⟩
    rcases mem_cons.mp hac with rfl | hac
    · exact ha.le
    · have := hl ack hac
      omega

theorem Consecutive.disjoint : ∀ {next}, Consecutive start acks next →
      acks.Pairwise fun newer older => older.after ≤ newer.before := by
  induction acks with
  | nil => exact fun _ => List.Pairwise.nil
  | cons newest acks ih =>
    intro next h
    exact pairwise_cons.mpr ⟨h.2.2.after_le.2, ih h.2.2⟩

theorem Consecutive.lt :
    ∀ {next}, Consecutive start acks next → ∀ ack ∈ acks, ack.before < ack.after := by
  induction acks with
  | nil => exact fun _ ack ha => absurd ha not_mem_nil
  | cons newest acks ih =>
    intro next h ack ha
    rcases mem_cons.mp ha with rfl | ha
    · exact h.2.1
    · exact ih h.2.2 ack ha

theorem Consecutive.covered (he : ∀ ack ∈ acks, ack.Exact recorded) :
    ∀ {next}, Consecutive start acks next → ∃ covered, (∀ u ∈ covered, u ∈ recorded) ∧
      covered.map UnitCommitReceipt.sequenceNo = range' start (next - start) ∧
      Acknowledged.sumTotals acks = .sum covered := by
  induction acks with
  | nil =>
    intro next h
    cases h
    exact ⟨[], fun _ hu => absurd hu not_mem_nil, by rw [Nat.sub_self]; rfl, rfl⟩
  | cons newest acks ih =>
    intro next h
    obtain ⟨rfl, _, hr⟩ := h
    obtain ⟨covered, hm, hs, hsu⟩ :=
      ih (fun ack hac => he ack (mem_cons_of_mem _ hac)) hr
    obtain ⟨units, hun, hus, -, ht⟩ := he newest mem_cons_self
    have hl := hr.after_le.1
    refine ⟨covered ++ units, fun u hu => (mem_append.mp hu).elim (hm u) (hun u), ?_, ?_⟩
    · have ha := range'_append_1 (s := start) (m := newest.before - start)
        (n := newest.after - newest.before)
      rw [Nat.add_sub_cancel' hl] at ha
      rw [map_append, hs, hus, ha]
      congr 1
      omega
    calc Acknowledged.sumTotals (newest :: acks)
        = newest.totals.add (Acknowledged.sumTotals acks) := rfl
      _ = (Totals.sum covered).add (.sum units) := by rw [hsu, ht, Totals.add_comm]
      _ = .sum (covered ++ units) := (Totals.sum_append covered units).symm

theorem Ascending.filter_ne_length (h : Ascending l) (n : Nat) :
    l.length ≤ (l.filter fun r => decide (r.sequenceNo ≠ n)).length + 1 := by
  induction l with
  | nil => exact Nat.zero_le _
  | cons receipt l ih =>
    obtain ⟨hl, hre⟩ := pairwise_cons.mp h
    by_cases hn : receipt.sequenceNo = n
    · -- the others are all larger
      rw [filter_cons_of_neg (by simp [hn]), length_cons, filter_eq_self.mpr]
      intro r hr
      have := hl r hr
      exact decide_eq_true (by omega)
    rw [filter_cons_of_pos (by simp [hn]), length_cons, length_cons]
    have := ih hre
    omega

structure Progress.Guarantee (start maxBuffered : Nat) (s : Progress) : Prop where
  exact : ∀ ack ∈ s.acks, ack.before < ack.after ∧ ack.Exact s.recorded
  recordedOnce : (s.recorded.map UnitCommitReceipt.sequenceNo).Nodup
  coveredOnce : s.acks.Pairwise fun newer older => older.after ≤ newer.before
  sums : ∃ covered : List UnitCommitReceipt, (∀ u ∈ covered, u ∈ s.recorded) ∧
    covered.map UnitCommitReceipt.sequenceNo = List.range' start (s.agg.nextSequenceNo - start) ∧
    Acknowledged.sumTotals s.acks = .sum covered
  follows : s.acks.Pairwise Acknowledged.Follows
  bounded : s.agg.receipts.length ≤ maxBuffered + 1
  /-- A call that fails changes nothing; `discard_pending` never fails. -/
  recordFailed : ∀ receipt e agg', recordReceipt receipt s.agg = .err (e, agg') → agg' = s.agg
  prepareFailed : ∀ e agg', prepareCheckpoint s.agg = .err (e, agg') → agg' = s.agg
  acknowledgeFailed : ∀ receipt e agg',
    acknowledgeCheckpoint receipt s.agg = .err (e, agg') → agg' = s.agg
  discardSucceeds : ∃ p agg', discardPending s.agg = .ok (p, agg')

theorem prefixCheckpoint_guarantee {context : WriteContext} {start maxBuffered : Nat}
    {h : 0 < maxBuffered} {calls : List AggregatorCall} {s : Progress}
    (hrun : Progress.Run context start maxBuffered h calls s) :
    s.Guarantee start maxBuffered := by
  have hinv := hrun.inv
  refine ⟨fun ack hack => ⟨hinv.consecutive.lt ack hack, hinv.exact ack hack⟩, hinv.once,
    hinv.consecutive.disjoint, hinv.consecutive.covered hinv.exact, hinv.follows, ?_, ?_, ?_, ?_,
    s.agg.pending, _, rfl⟩
  · have hlength := hinv.ascending.filter_ne_length s.agg.nextSequenceNo
    have hroom := hinv.room
    rw [hinv.capacity] at hroom
    omega
  · intro receipt e agg' herr
    have hspec := wp_err (wp_recordReceipt (P := fun _ => True) fun hn => (hinv.fresh hn).1) herr
    exact hspec
  · intro e agg' herr
    have hspec := wp_err (wp_prepareCheckpoint (P := fun _ => True)) herr
    exact hspec
  intro receipt e agg' herr
  have hspec := wp_err (wp_acknowledgeCheckpoint (P := fun _ => True)) herr
  exact hspec

/-! Two receipts that arrive in the wrong order, and one checkpoint of both. -/

def demoContext : WriteContext := ⟨⟨0⟩, 0, ⟨1⟩, ⟨1⟩, 1⟩

def demoScope (units : Nat) (h : 0 < units) (key : UInt8) : CommitScope :=
  ⟨demoContext, units, .orderedContent ⟨some [key], none⟩, h⟩

def demoReceipt (sequenceNo : Nat) (key : UInt8) : UnitCommitReceipt :=
  ⟨⟨sequenceNo, .orderedContent ⟨some [key], none⟩⟩,
    ⟨demoScope 1 Nat.one_pos key, ⟨2, 3, 4⟩, ⟨1, 1, 0⟩⟩, rfl⟩

def demoCalls : List AggregatorCall :=
  [.acknowledgeCheckpoint ⟨demoScope 2 Nat.two_pos 8, 5⟩, .prepareCheckpoint,
    .recordReceipt (demoReceipt 0 7), .recordReceipt (demoReceipt 1 8)]

theorem prefixCheckpoint_guarantee_two :
    ∃ s : Progress, Progress.Run demoContext 0 1 Nat.one_pos demoCalls s ∧
      s.agg.nextSequenceNo = 2 ∧ s.acks.length = 1 ∧ s.Guarantee 0 1 := by
  have hdemo : ∃ s : Progress, Progress.Run demoContext 0 1 Nat.one_pos demoCalls s ∧
      s.agg.nextSequenceNo = 2 ∧ s.acks.length = 1 :=
    ⟨_, .call (.call (.call (.call .new (.buffered rfl)) (.buffered rfl)) (.prepared rfl))
      (.acknowledged rfl), rfl, rfl⟩
  obtain ⟨s, hrun, hnext, hacks⟩ := hdemo
  exact ⟨s, hrun, hnext, hacks, prefixCheckpoint_guarantee hrun⟩

end GossipRs.Runtime
