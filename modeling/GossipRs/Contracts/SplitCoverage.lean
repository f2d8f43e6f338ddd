import GossipRs.Contracts.ShardSpec

/-! Split coverage as a statement about keys. The checks compare sorted bounds; they decide that
each key of the parent lies in exactly one child and no other key in any. -/

namespace GossipRs

open Lib Outcome List

/-! ## Ranges of keys -/

/-- Keys of the half-open range between two bounds, with empty bounds unbounded. -/
def InRange (start stop key : Bytes) : Prop :=
  (start = [] ∨ start ≤ key) ∧ (stop = [] ∨ key < stop)

instance (start stop key : Bytes) : Decidable (InRange start stop key) :=
  inferInstanceAs (Decidable (_ ∧ _))

theorem nil_le_bytes (key) : ([] : Bytes) ≤ key := not_lt.mp (not_lt_nil key)

variable {start stop key : Bytes}

/-- The lower bound needs no case for unbounded starts: the empty key is the least one. -/
theorem inRange_iff : InRange start stop key ↔ start ≤ key ∧ (stop = [] ∨ key < stop) := by
  refine and_congr_left fun _ => ⟨?_, .inr⟩
  rintro (rfl | h)
  · exact nil_le_bytes key
  · exact h

theorem nil_lt_bytes (h : key ≠ []) : ([] : Bytes) < key :=
  lt_of_le_of_ne (nil_le_bytes key) (Ne.symm h)

variable {spec : ShardSpec}

namespace ShardSpec

theorem containsKey_iff : spec.containsKey key ↔
      spec.keyRangeStart ≤ key ∧ (spec.keyRangeEnd = [] ∨ key < spec.keyRangeEnd) :=
  inRange_iff

theorem containsKey_start (h : ¬ spec.Inverted) : spec.containsKey spec.keyRangeStart := by
  refine containsKey_iff.mpr ⟨le_refl _, ?_⟩
  by_cases hs : spec.keyRangeEnd = []
  · exact .inl hs
  right
  by_cases hst : spec.keyRangeStart = []
  · rw [hst]
    exact nil_lt_bytes hs
  · exact not_le.mp fun hl => h ⟨hst, hs, hl⟩

end ShardSpec

def coverCount (specs : List ShardSpec) (key : Bytes) : Nat :=
  specs.countP fun spec => decide (spec.containsKey key)

theorem coverCount_cons (spec) (specs) (key) :
    coverCount (spec :: specs) key =
      coverCount specs key + if spec.containsKey key then 1 else 0 := by
  simp [coverCount, countP_cons]

variable {specs : List ShardSpec}

theorem coverCount_perm (h : specs.Perm specs') (key) :
    coverCount specs key = coverCount specs' key := h.countP_eq _

theorem one_le_coverCount (hm : spec ∈ specs) (h : spec.containsKey key) :
    1 ≤ coverCount specs key :=
  countP_pos_iff.mpr ⟨spec, hm, by simpa using h⟩

theorem exists_of_coverCount_pos (h : 0 < coverCount specs key) :
    ∃ spec ∈ specs, spec.containsKey key := by
  obtain ⟨spec, hm, hk⟩ := countP_pos_iff.mp h
  exact ⟨spec, hm, by simpa using hk⟩

/-- Each key between the two bounds lies in exactly one range, and no other key lies in any. -/
def Partitions (start stop : Bytes) (specs : List ShardSpec) : Prop :=
  ∀ key, coverCount specs key = if InRange start stop key then 1 else 0

/-! ## Chained ranges partition their parent -/

theorem Chain.start_mem (h : Chain start stop specs) : InRange start stop start := by
  induction h with
  | last valid => exact ShardSpec.containsKey_start valid.not_inverted
  | @cons spec stop rest valid bounded _ ih =>
    obtain ⟨-, hl | hlt⟩ := inRange_iff.mp ih
    · exact inRange_iff.mpr ⟨le_refl _, .inl hl⟩
    have hsp := ShardSpec.containsKey_iff.mp (ShardSpec.containsKey_start valid.not_inverted)
    obtain ⟨-, he | hs⟩ := hsp
    · exact absurd he bounded
    · exact inRange_iff.mpr ⟨le_refl _, .inr (hs.trans hlt)⟩

theorem Chain.ne_nil (h : Chain start stop specs) : specs ≠ [] := by
  cases h <;> exact cons_ne_nil _ _

theorem Chain.valid (h : Chain start stop specs) : ∀ spec ∈ specs, spec.Valid := by
  induction h with
  | last valid =>
    intro spec hm
    rw [mem_singleton.mp hm]
    exact valid
  | cons valid _ _ ih =>
    intro spec hm
    rcases mem_cons.mp hm with rfl | hm
    · exact valid
    · exact ih spec hm

theorem inRange_cut {mid} (hsm : start ≤ mid) (hm : mid ≠ []) (hms : InRange mid stop mid) :
    (if InRange start stop key then 1 else 0 : Nat) =
      (if InRange mid stop key then 1 else 0) + if InRange start mid key then 1 else 0 := by
  have hst : stop = [] ∨ mid < stop := (inRange_iff.mp hms).2
  simp only [inRange_iff]
  by_cases hk : mid ≤ key
  · have hs : start ≤ key := hsm.trans hk
    have hn : ¬ (mid = [] ∨ key < mid) := by
      rintro (h | h)
      · exact hm h
      · exact absurd hk (not_le.mpr h)
    simp [hk, hs, hn]
  have hl : key < mid := not_le.mp hk
  have he : stop = [] ∨ key < stop := hst.imp_right fun h => hl.trans h
  simp [hk, hl, he]

theorem Chain.partitions (h : Chain start stop specs) : Partitions start stop specs := by
  induction h with
  | @last spec valid =>
    intro key
    rw [coverCount_cons]
    simp only [coverCount, countP_nil, Nat.zero_add]
    rfl
  | @cons spec stop rest valid bounded chain ih =>
    intro key
    have hl : spec.keyRangeStart ≤ spec.keyRangeEnd := by
      obtain ⟨-, he | hlt⟩ :=
        ShardSpec.containsKey_iff.mp (ShardSpec.containsKey_start valid.not_inverted)
      · exact absurd he bounded
      · exact hlt.le
    rw [coverCount_cons, ih key, inRange_cut hl bounded chain.start_mem]
    rfl

/-! ## A partition is a chain -/

theorem inRange_ext (hm : InRange start stop start)
    (h : ∀ key, InRange start stop key ↔ InRange start' stop' key) :
    start = start' ∧ stop = stop' := by
  have hl' := (inRange_iff.mp ((h start).mp hm)).1
  have hm' : InRange start' stop' start' := by
    obtain ⟨hle, hen⟩ := inRange_iff.mp ((h start).mp hm)
    exact inRange_iff.mpr ⟨le_refl _, hen.imp_right fun hl => hle.trans_lt hl⟩
  have hle := (inRange_iff.mp ((h start').mpr hm')).1
  have hs : start = start' := le_antisymm hle hl'
  subst hs
  refine ⟨rfl, ?_⟩
  -- a bounded end is the least key past the start that is missing
  by_cases he : stop = []
  · by_contra hne
    have hn' : stop' ≠ [] := fun h0 => hne (he.trans h0.symm)
    have hl := ((inRange_iff.mp hm').2).resolve_left hn'
    have hin := (h stop').mp (inRange_iff.mpr ⟨hl.le, .inl he⟩)
    exact absurd ((inRange_iff.mp hin).2.resolve_left hn') (lt_irrefl _)
  have hl := ((inRange_iff.mp hm).2).resolve_left he
  have ho : ¬ InRange start stop' stop := fun hin =>
    absurd ((inRange_iff.mp ((h stop).mpr hin)).2.resolve_left he) (lt_irrefl _)
  have hn' : stop' ≠ [] := fun h0 => ho (inRange_iff.mpr ⟨hl.le, .inl h0⟩)
  have hg : stop' ≤ stop :=
    not_lt.mp fun hc => ho (inRange_iff.mpr ⟨hl.le, .inr hc⟩)
  have hlt' := ((inRange_iff.mp hm').2).resolve_left hn'
  refine le_antisymm (not_lt.mp fun hc => ?_) hg
  have hin := (h stop').mp (inRange_iff.mpr ⟨hlt'.le, .inr hc⟩)
  exact absurd ((inRange_iff.mp hin).2.resolve_left hn') (lt_irrefl _)

theorem Partitions.coverCount_le_one (h : Partitions start stop specs) (key : Bytes) :
    coverCount specs key ≤ 1 := by
  rw [h key]
  split <;> omega

theorem Partitions.inRange_of_mem (h : Partitions start stop specs) (hm : spec ∈ specs)
    (hk : spec.containsKey key) : InRange start stop key := by
  by_contra ho
  have hp := one_le_coverCount hm hk
  rw [h key, if_neg ho] at hp
  omega

theorem Partitions.not_both (h : Partitions start stop (spec :: rest))
    (hk : spec.containsKey key) : coverCount rest key = 0 := by
  have ho := h.coverCount_le_one key
  rw [coverCount_cons, if_pos hk] at ho
  omega

theorem Partitions.start_eq (h : Partitions start stop (spec :: rest)) (hv : spec.Valid)
    (hl : ∀ other ∈ rest, spec.keyRangeStart ≤ other.keyRangeStart) :
    spec.keyRangeStart = start := by
  have hin := h.inRange_of_mem mem_cons_self (ShardSpec.containsKey_start hv.not_inverted)
  obtain ⟨hle, he⟩ := inRange_iff.mp hin
  have hs : InRange start stop start :=
    inRange_iff.mpr ⟨le_refl _, he.imp_right fun hlt => hle.trans_lt hlt⟩
  have hp : 0 < coverCount (spec :: rest) start := by
    rw [h start, if_pos hs]
    exact Nat.one_pos
  obtain ⟨other, hm, hk⟩ := exists_of_coverCount_pos hp
  have ho := (ShardSpec.containsKey_iff.mp hk).1
  have hsp : spec.keyRangeStart ≤ other.keyRangeStart := by
    rcases mem_cons.mp hm with rfl | hm
    · exact le_refl _
    · exact hl other hm
  exact le_antisymm (hsp.trans ho) hle

/-- Ranges in order of their starts that partition a parent form a chain: the ranges after the first
partition what lies behind its end. -/
theorem Partitions.chain : ∀ {specs start}, specs ≠ [] → (∀ spec ∈ specs, spec.Valid) →
    specs.Pairwise (fun a b => a.keyRangeStart ≤ b.keyRangeStart) →
    Partitions start stop specs → Chain start stop specs
  | [], _, hne, _, _, _ => absurd rfl hne
  | [spec], start, _, hv, _, h => by
    have hs := ShardSpec.containsKey_start (hv spec mem_cons_self).not_inverted
    have hif : ∀ key, InRange spec.keyRangeStart spec.keyRangeEnd key ↔ InRange start stop key := by
      intro key
      have hk := h key
      rw [coverCount_cons] at hk
      simp only [coverCount, countP_nil, Nat.zero_add] at hk
      change (if InRange spec.keyRangeStart spec.keyRangeEnd key then 1 else 0) = _ at hk
      by_cases ha : InRange spec.keyRangeStart spec.keyRangeEnd key <;>
        by_cases hb : InRange start stop key <;> simp_all
    obtain ⟨rfl, rfl⟩ := inRange_ext hs hif
    exact .last (hv spec mem_cons_self)
  | spec :: next :: rest, start, _, hv, hso, h => by
    obtain ⟨hl, hs'⟩ := pairwise_cons.mp hso
    have hsp := hv spec mem_cons_self
    have hn := hv next (mem_cons_of_mem _ mem_cons_self)
    have hs := ShardSpec.containsKey_start hn.not_inverted
    have hap : ¬ spec.containsKey next.keyRangeStart := fun hc => by
      have hp : 1 ≤ coverCount (next :: rest) next.keyRangeStart :=
        one_le_coverCount mem_cons_self hs
      rw [h.not_both hc] at hp
      omega
    obtain rfl := h.start_eq hsp hl
    have hst := hl next mem_cons_self
    have hbo : spec.keyRangeEnd ≠ [] := fun he =>
      hap (ShardSpec.containsKey_iff.mpr ⟨hst, .inl he⟩)
    have hen : spec.keyRangeEnd ≤ next.keyRangeStart := not_lt.mp fun hlt =>
      hap (ShardSpec.containsKey_iff.mpr ⟨hst, .inr hlt⟩)
    have hm : InRange spec.keyRangeEnd stop spec.keyRangeEnd := by
      have hin := h.inRange_of_mem (mem_cons_of_mem _ mem_cons_self) hs
      exact inRange_iff.mpr ⟨le_refl _, (inRange_iff.mp hin).2.imp_right hen.trans_lt⟩
    have hle : spec.keyRangeStart ≤ spec.keyRangeEnd := by
      obtain ⟨-, he | hlt⟩ :=
        ShardSpec.containsKey_iff.mp (ShardSpec.containsKey_start hsp.not_inverted)
      · exact absurd he hbo
      · exact hlt.le
    refine .cons hsp hbo (Partitions.chain (cons_ne_nil _ _)
      (fun other hme => hv other (mem_cons_of_mem _ hme)) hs' fun key => ?_)
    have hk := h key
    rw [coverCount_cons, inRange_cut hle hbo hm] at hk
    exact Nat.add_right_cancel hk

/-! ## The checks decide partitions -/

theorem pairs_of_chain : ∀ {children start}, Chain start stop (children.map Prod.fst) →
    children.head?.map (fun c => c.1.keyRangeStart) = some start ∧
      children.getLast?.map (fun c => c.1.keyRangeEnd) = some stop ∧
      List.IsChain (fun a b : ShardSpec × Nat =>
        a.1.keyRangeEnd = b.1.keyRangeStart ∧ a.1.keyRangeEnd ≠ []) children
  | [], _, h => absurd rfl h.ne_nil
  | [child], _, h => by
    cases h with
    | last valid => exact ⟨rfl, rfl, List.IsChain.singleton _⟩
    | cons valid bounded chain => exact absurd rfl chain.ne_nil
  | child :: next :: rest, _, h => by
    cases h with
    | cons valid bounded chain =>
      have ih : (next :: rest).head?.map (fun c => c.1.keyRangeStart) = some child.1.keyRangeEnd ∧
          (next :: rest).getLast?.map (fun c => c.1.keyRangeEnd) = some stop ∧ _ :=
        pairs_of_chain chain
      obtain ⟨hh, hl, hp⟩ := ih
      refine ⟨rfl, by rw [getLast?_cons_cons]; exact hl, ?_⟩
      exact isChain_cons_cons.mpr ⟨⟨(Option.some.inj hh).symm, bounded⟩, hp⟩

theorem perm_orderedSpecs (children) : (orderedSpecs children).Perm children :=
  perm_insertionSort _ _

theorem validateSplitCoverageBounds_of_chain (ht : 2 ≤ children.length)
    (h : Chain start stop (orderedSpecs children)) :
    validateSplitCoverageBounds debug start stop children = .ok () := by
  have hv : ∀ c ∈ sortedChildren children, c.1.Valid := by
    intro c hc
    refine h.valid c.1 ?_
    rw [← map_fst_sortedChildren]
    exact mem_map_of_mem hc
  rw [← map_fst_sortedChildren] at h
  obtain ⟨hh, hl, hp⟩ := pairs_of_chain h
  obtain ⟨first, hf, hs⟩ := Option.map_eq_some_iff.mp hh
  obtain ⟨last, hl, hst⟩ := Option.map_eq_some_iff.mp hl
  unfold validateSplitCoverageBounds
  refine check_eq_ok.mpr ⟨ensure_of_true ?_, ?_⟩
  · rintro rfl
    simp at ht
  refine check_eq_ok.mpr ⟨ensure_of_true (by omega), ?_⟩
  refine bind_eq_ok.mpr ⟨first, expect_eq_ok.mpr hf, ?_⟩
  refine check_eq_ok.mpr ⟨ensure_of_true hs, ?_⟩
  refine bind_eq_ok.mpr ⟨last, expect_eq_ok.mpr hl, ?_⟩
  refine check_eq_ok.mpr ⟨ensure_of_true hst, ?_⟩
  refine check_eq_ok.mpr ⟨eachPair_eq_ok.mpr (hp.imp fun a b ha => ?_), ?_⟩
  · exact check_eq_ok.mpr ⟨ensure_of_true ha.1, ensure_of_true ha.2⟩
  refine check_eq_ok.mpr ⟨each_eq_ok.mpr fun c hc =>
    ensure_of_true (hv c hc).not_inverted, ?_⟩
  refine check_eq_ok.mpr ⟨each_eq_ok.mpr fun c hc =>
    mapErr_eq_ok.mpr (ShardSpec.validateRef_eq_ok.mpr (hv c hc)), ?_⟩
  rw [debugAssert_of_true hs, debugAssert_of_true hst]
  rfl

theorem validateSplitCoverageBounds_iff :
    validateSplitCoverageBounds debug start stop children = .ok () ↔
      2 ≤ children.length ∧ (∀ child ∈ children, child.Valid) ∧ Partitions start stop children := by
  constructor
  · intro h
    obtain ⟨ht, hc⟩ := validateSplitCoverageBounds_eq_ok h
    refine ⟨ht, fun child hm => hc.valid child ((perm_orderedSpecs _).mem_iff.mpr hm),
      fun key => ?_⟩
    rw [← coverCount_perm (perm_orderedSpecs children) key]
    exact hc.partitions key
  rintro ⟨ht, hv, hp⟩
  have hne : orderedSpecs children ≠ [] := by
    intro hn
    have hl : (orderedSpecs children).length = children.length := length_insertionSort _ _
    rw [hn, length_nil] at hl
    omega
  refine validateSplitCoverageBounds_of_chain ht (Partitions.chain hne
    (fun spec hm => hv spec ((perm_orderedSpecs _).mem_iff.mp hm))
    (pairwise_insertionSort _ _) fun key => ?_)
  rw [coverCount_perm (perm_orderedSpecs children) key]
  exact hp key

/-- The two ranges of a residual split, in order, make up the old parent. -/
structure ResidualPartition (start stop : Bytes) (newParent residual : ShardSpec) : Prop where
  parent_valid : newParent.Valid
  residual_valid : residual.Valid
  parent_nonempty : ∃ key, newParent.containsKey key
  residual_nonempty : ∃ key, residual.containsKey key
  ordered : ∀ a b, newParent.containsKey a → residual.containsKey b → a < b
  union : ∀ key, InRange start stop key ↔ newParent.containsKey key ∨ residual.containsKey key

theorem coverCount_pair (a b) (key) :
    coverCount [a, b] key =
      (if b.containsKey key then 1 else 0) + if a.containsKey key then 1 else 0 := by
  rw [coverCount_cons, coverCount_cons]
  simp [coverCount]

theorem ResidualPartition.partitions {residual}
    (h : ResidualPartition start stop newParent residual) :
    Partitions start stop [newParent, residual] := by
  intro key
  rw [coverCount_pair]
  by_cases ha : newParent.containsKey key
  · have hb : ¬ residual.containsKey key := fun hb => lt_irrefl key (h.ordered key key ha hb)
    rw [if_neg hb, if_pos ha, if_pos ((h.union key).mpr (.inl ha))]
  by_cases hb : residual.containsKey key
  · rw [if_pos hb, if_neg ha, if_pos ((h.union key).mpr (.inr hb))]
  · have ho : ¬ InRange start stop key := fun hin => ((h.union key).mp hin).elim ha hb
    rw [if_neg hb, if_neg ha, if_neg ho]

/-- **A residual split is accepted exactly when its two ranges divide the old parent in
order.** -/
theorem validateResidualSplitBounds_iff {residual} :
    validateResidualSplitBounds debug start stop newParent residual = .ok () ↔
      ResidualPartition start stop newParent residual := by
  unfold validateResidualSplitBounds
  rw [check_eq_ok, check_eq_ok, ensure_eq_ok,
    ensure_eq_ok, validateSplitCoverageBounds_iff]
  constructor
  · rintro ⟨rfl, rfl, -, hv, hpa⟩
    have hp := hv newParent mem_cons_self
    have hr := hv residual (mem_cons_of_mem _ mem_cons_self)
    have hps := ShardSpec.containsKey_start hp.not_inverted
    have hrs := ShardSpec.containsKey_start hr.not_inverted
    have hd : ∀ key, newParent.containsKey key → ¬ residual.containsKey key := by
      intro key ha hb
      have := hpa.coverCount_le_one key
      rw [coverCount_pair, if_pos ha, if_pos hb] at this
      omega
    refine ⟨hp, hr, ⟨_, hps⟩, ⟨_, hrs⟩, ?_, ?_⟩
    · intro a b ha hb
      -- the new parent starts first, so its keys stay below the residual's start
      by_contra hnot
      have hba : b ≤ a := not_lt.mp hnot
      have hst : newParent.keyRangeStart ≤ residual.keyRangeStart :=
        (inRange_iff.mp (hpa.inRange_of_mem (mem_cons_of_mem _ mem_cons_self) hrs)).1
      have hb' := (ShardSpec.containsKey_iff.mp hb).1
      have ha' := (ShardSpec.containsKey_iff.mp ha).2
      refine hd b (ShardSpec.containsKey_iff.mpr ⟨hst.trans hb', ?_⟩) hb
      exact ha'.imp_right hba.trans_lt
    · intro key
      have hk := hpa key
      rw [coverCount_pair] at hk
      constructor
      · intro hin
        rw [if_pos hin] at hk
        by_contra hn
        rw [not_or] at hn
        rw [if_neg hn.1, if_neg hn.2] at hk
        omega
      rintro (ha | hb)
      · exact hpa.inRange_of_mem mem_cons_self ha
      · exact hpa.inRange_of_mem (mem_cons_of_mem _ mem_cons_self) hb
  · intro h
    have hps := ShardSpec.containsKey_start h.parent_valid.not_inverted
    have hrs := ShardSpec.containsKey_start h.residual_valid.not_inverted
    have hl := h.ordered _ _ hps hrs
    have hv : ∀ child ∈ [newParent, residual], child.Valid := by
      intro child hm
      rcases mem_cons.mp hm with rfl | hm
      · exact h.parent_valid
      · rw [mem_singleton.mp hm]
        exact h.residual_valid
    have hs : [newParent, residual].Pairwise (fun a b => a.keyRangeStart ≤ b.keyRangeStart) := by
      simpa using hl.le
    have hc := Partitions.chain (cons_ne_nil _ _) hv hs h.partitions
    have hbo : [(newParent, 0), (residual, 1)].head?.map _ = some start ∧
        [(newParent, 0), (residual, 1)].getLast?.map _ = some stop ∧ _ := pairs_of_chain hc
    exact ⟨Option.some.inj hbo.1, Option.some.inj hbo.2.1, le_refl _, hv, h.partitions⟩

/-- **The coverage checks are exact.** A split is accepted exactly when it has at least two
non-empty children within the limits, each key of the parent lies in exactly one of them and no
other key in any; a residual split exactly when its two non-empty ranges within the limits come
in order and make up the old parent. -/
theorem splitCoverage_exact (debug : Bool) (start stop : Bytes) (children : List ShardSpec)
    (newParent residual : ShardSpec) :
    (validateSplitCoverageBounds debug start stop children = .ok () ↔ 2 ≤ children.length ∧
      (∀ child ∈ children, child.Valid ∧ ∃ key, child.containsKey key) ∧
      ∀ key, coverCount children key = if InRange start stop key then 1 else 0) ∧
    (validateResidualSplitBounds debug start stop newParent residual = .ok () ↔
      ResidualPartition start stop newParent residual) := by
  refine ⟨?_, validateResidualSplitBounds_iff⟩
  rw [validateSplitCoverageBounds_iff]
  refine and_congr_right fun _ => and_congr_left fun _ => ?_
  refine forall₂_congr fun child _ => ⟨fun hvalid => ⟨hvalid, ?_⟩, And.left⟩
  exact ⟨_, ShardSpec.containsKey_start hvalid.not_inverted⟩

/-- Two equal ranges beyond the parent hold no key exactly once; metadata is no part of a range. -/
def strayChildren : List ShardSpec :=
  [⟨[1], [2], []⟩, ⟨[2], [3], []⟩, ⟨[5], [6], []⟩, ⟨[5], [6], []⟩]

theorem coverCount_strayChildren (key : Bytes) :
    coverCount strayChildren key =
      (if InRange [1] [3] key then 1 else 0) + 2 * if InRange [5] [6] key then 1 else 0 := by
  have hc := @inRange_cut [1] [3] key [2] (by decide) (by decide) (by decide)
  unfold strayChildren
  rw [hc, coverCount_cons, coverCount_cons, coverCount_pair]
  change (if InRange [5] [6] key then 1 else 0) + (if InRange [5] [6] key then 1 else 0) +
    (if InRange [2] [3] key then 1 else 0) + (if InRange [1] [2] key then 1 else 0) = _
  omega

/-- Counting the keys of exactly one child does not characterise the first check, nor ranges the
second. -/
theorem splitCoverage_stray :
    ((2 ≤ strayChildren.length ∧
        (∀ child ∈ strayChildren, child.Valid ∧ ∃ key, child.containsKey key) ∧
        ∀ key, InRange [1] [3] key ↔ coverCount strayChildren key = 1) ∧
      validateSplitCoverageBounds true [1] [3] strayChildren ≠ .ok ()) ∧
    ∃ newParent residual : ShardSpec,
      ((∃ key, newParent.containsKey key) ∧ (∃ key, residual.containsKey key) ∧
        (∀ a b, newParent.containsKey a → residual.containsKey b → a < b) ∧
        ∀ key, InRange [1] [3] key ↔ newParent.containsKey key ∨ residual.containsKey key) ∧
      validateResidualSplitBounds true [1] [3] newParent residual ≠ .ok () := by
  refine ⟨⟨⟨by decide, ?_, fun key => ?_⟩, fun h => ?_⟩, ?_⟩
  · intro child hmem
    have hvalid : child.Valid := by
      rw [← @ShardSpec.validateRef_eq_ok child ()]
      revert child
      decide
    exact ⟨hvalid, _, ShardSpec.containsKey_start hvalid.not_inverted⟩
  · rw [coverCount_strayChildren]
    by_cases h5 : InRange [5] [6] key
    · have hout : ¬ InRange [1] [3] key := fun h => by
        have hlt := (inRange_iff.mp h).2.resolve_left (by decide)
        have hge := (inRange_iff.mp h5).1
        exact absurd (hge.trans_lt hlt) (by decide)
      simp [h5, hout]
    · simp [h5]
  · have hpart := (validateSplitCoverageBounds_iff.mp h).2.2
    exact absurd (hpart.coverCount_le_one [5]) (by decide)
  have hcut := fun key => @inRange_cut [1] [3] key [2] (by decide) (by decide) (by decide)
  refine ⟨⟨[1], [2], []⟩, ⟨[2], [3], List.replicate 16385 0⟩, ⟨⟨[1], ?_⟩, ⟨[2], ?_⟩, ?_, ?_⟩, ?_⟩
  · exact ShardSpec.containsKey_iff.mpr ⟨le_refl _, .inr (by decide)⟩
  · exact ShardSpec.containsKey_iff.mpr ⟨le_refl _, .inr (by decide)⟩
  · intro a b ha hb
    have ha' := (ShardSpec.containsKey_iff.mp ha).2.resolve_left (by simp)
    exact ha'.trans_le (ShardSpec.containsKey_iff.mp hb).1
  · intro key
    have hkey := hcut key
    change _ ↔ InRange [1] [2] key ∨ InRange [2] [3] key
    by_cases h1 : InRange [1] [2] key <;> by_cases h2 : InRange [2] [3] key <;>
      by_cases h3 : InRange [1] [3] key <;> simp_all
  intro h
  have hlen := (validateResidualSplitBounds_iff.mp h).residual_valid.metadata_le
  rw [length_replicate] at hlen
  exact absurd hlen (by decide)

end GossipRs
