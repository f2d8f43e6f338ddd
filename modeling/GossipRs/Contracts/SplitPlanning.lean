import GossipRs.Contracts.Cursor
import GossipRs.Contracts.SplitCoverage

/-! Split planning. A replace plan is cut out of the parent's range at given points, a residual plan
at the successor of the last processed key. The theorems say when they pass validation and what they
divide. -/

namespace GossipRs

open List
open ShardSpec (containsKey_iff containsKey_start keyRangeStart)

open Lib Outcome

/-! ## Successors -/

/-- The last byte other than `0xFF` is incremented and what follows it is dropped. -/
def incrementLast : Bytes → Option Bytes
  | [] => none
  | byte :: rest =>
    match incrementLast rest with
    | some next => some (byte :: next)
    | none => if byte = 255 then none else some [byte + 1]

def prefixSuccessor (key : Bytes) : Option Bytes :=
  if key = [] ∨ maxKeySize < key.length then none else incrementLast key

/-- Short keys get a zero byte; a key of maximum length cannot grow. -/
def keySuccessor (key : Bytes) : Option Bytes :=
  if maxKeySize < key.length then none
  else if key.length < maxKeySize then some (key ++ [0])
  else prefixSuccessor key

def Above (limit : Nat) (key : Bytes) : Set Bytes := {other | other.length ≤ limit ∧ key < other}

theorem append_zero_least (h : key.length < limit) : IsLeast (Above limit key) (key ++ [0]) := by
  refine ⟨⟨by rw [length_append]; exact h, ?_⟩, fun other ho => ?_⟩
  · have hn : key ++ [] < key ++ [0] := append_left_lt (by decide)
    rwa [append_nil] at hn
  obtain ⟨-, hl⟩ := ho
  clear h
  induction key generalizing other with
  | nil =>
    cases other with
    | nil => exact absurd hl (lt_irrefl _)
    | cons c rest =>
      rcases (UInt8.zero_le (a := c)).lt_or_eq with hc | rfl
      · exact (cons_lt_cons_iff.mpr (.inl hc)).le
      · exact cons_le_cons _ (nil_le_bytes rest)
  | cons byte tail ih =>
    cases other with
    | nil => exact absurd hl (not_lt_nil _)
    | cons c rest =>
      rcases cons_lt_cons_iff.mp hl with hc | ⟨rfl, ht⟩
      · exact (cons_lt_cons_iff.mpr (.inl hc)).le
      · exact cons_le_cons _ (ih rest ht)

theorem not_max_lt (c : UInt8) : ¬ 255 < c := by
  rw [UInt8.lt_iff_toNat_lt]
  have hc := c.toNat_lt
  have hmax : (255 : UInt8).toNat = 255 := rfl
  omega

theorem toNat_byte_succ {byte : UInt8} (h : byte ≠ 255) : (byte + 1).toNat = byte.toNat + 1 := by
  have hb : byte.toNat ≠ 255 := fun he => h (UInt8.toNat_inj.mp he)
  have hl := byte.toNat_lt
  have ho : (1 : UInt8).toNat = 1 := rfl
  rw [UInt8.toNat_add, ho]
  omega

theorem cons_mem_above {tail rest : Bytes} :
    c :: rest ∈ Above (limit + 1) (byte :: tail) ↔
      rest.length ≤ limit ∧ (byte < c ∨ byte = c ∧ tail < rest) := by
  rw [Above, Set.mem_ofPred_eq, length_cons, cons_lt_cons_iff, Nat.add_le_add_iff_right]

theorem nil_not_mem_above : [] ∉ Above limit key :=
  fun h => not_lt_nil _ h.2

/-- A key without a successor is all `0xFF`, above every key that is not longer. -/
theorem incrementLast_none (h : incrementLast key = none) : Above key.length key = ∅ := by
  refine Set.eq_empty_of_forall_notMem fun other ho => ?_
  induction key generalizing other with
  | nil => exact absurd ho.2 (not_lt.mpr (length_eq_zero_iff.mp (Nat.le_zero.mp ho.1)).le)
  | cons byte tail ih =>
    rw [incrementLast] at h
    cases other with
    | nil => exact nil_not_mem_above ho
    | cons c rest =>
      obtain ⟨hl, hlt⟩ := cons_mem_above.mp ho
      split at h
      · cases h
      next ht =>
      split at h
      next hb =>
        rcases hlt with hc | ⟨-, hr⟩
        · exact not_max_lt c (hb ▸ hc)
        · exact ih ht rest ⟨hl, hr⟩
      · cases h

theorem incrementLast_least {next} (h : incrementLast key = some next) :
    IsLeast (Above key.length key) next := by
  induction key generalizing next with
  | nil => cases h
  | cons byte tail ih =>
    rw [incrementLast] at h
    split at h
    next next' hn =>
      cases h
      obtain ⟨hm, hl⟩ := ih hn
      refine ⟨cons_mem_above.mpr ⟨hm.1, .inr ⟨rfl, hm.2⟩⟩, fun other ho => ?_⟩
      cases other with
      | nil => exact absurd ho nil_not_mem_above
      | cons c rest =>
        obtain ⟨hlen, hc | ⟨rfl, hr⟩⟩ := cons_mem_above.mp ho
        · exact (cons_lt_cons_iff.mpr (.inl hc)).le
        · exact cons_le_cons _ (hl ⟨hlen, hr⟩)
    next hno =>
      split at h
      · cases h
      next hb =>
      cases h
      have hs := toNat_byte_succ hb
      refine ⟨cons_mem_above.mpr ⟨Nat.zero_le _, .inl ?_⟩, fun other ho => ?_⟩
      · rw [UInt8.lt_iff_toNat_lt, hs]
        exact Nat.lt_succ_self _
      cases other with
      | nil => exact absurd ho nil_not_mem_above
      | cons c rest =>
        obtain ⟨hlen, hc | ⟨rfl, hr⟩⟩ := cons_mem_above.mp ho
        · have hle : byte + 1 ≤ c := by
            rw [UInt8.le_iff_toNat_le, hs]
            exact UInt8.lt_iff_toNat_lt.mp hc
          rcases hle.lt_or_eq with hlt | rfl
          · exact (cons_lt_cons_iff.mpr (.inl hlt)).le
          · exact cons_le_cons _ (nil_le_bytes rest)
        · exact absurd (incrementLast_none hno ▸ (⟨hlen, hr⟩ : rest ∈ Above tail.length tail))
            (Set.notMem_empty rest)

/-- The successor is the least larger key of at most the maximum size, if there is one. -/
theorem keySuccessor_spec (h : key.length ≤ maxKeySize) :
    (∀ next, keySuccessor key = some next → IsLeast (Above maxKeySize key) next) ∧
      (keySuccessor key = none ↔ Above maxKeySize key = ∅) := by
  have hs : (∀ next, keySuccessor key = some next → IsLeast (Above maxKeySize key) next) ∧
      (keySuccessor key = none → Above maxKeySize key = ∅) := by
    unfold keySuccessor
    rw [if_neg (not_lt.mpr h)]
    split
    next hsh =>
      exact ⟨fun next hn => Option.some.inj hn ▸ append_zero_least hsh, nofun⟩
    next hl =>
      have hmax : key.length = maxKeySize := le_antisymm h (not_lt.mp hl)
      have hni : ¬ (key = [] ∨ maxKeySize < key.length) := by
        rintro (rfl | hlt)
        · exact absurd hmax (by decide)
        · exact absurd h (not_le.mpr hlt)
      rw [prefixSuccessor, if_neg hni, ← hmax]
      exact ⟨fun next => incrementLast_least, incrementLast_none⟩
  refine ⟨hs.1, hs.2, fun he => ?_⟩
  refine Option.eq_none_iff_forall_ne_some.mpr fun next hn => ?_
  exact absurd (he ▸ (hs.1 next hn).1) (Set.notMem_empty next)

/-! ## Residual plans -/

inductive SplitResidualPlanError where
  | identicalSpecs
deriving DecidableEq, Repr

inductive SplitResidualPlanningError where
  | missingCursor
  | noSuccessor
  | splitPointOutOfBounds
  | invalidPlan (e : SplitResidualPlanError)
  | invalidCoverage (e : SplitValidationError)
deriving DecidableEq, Repr

def SplitResidualPlan.tryNew (parentNewSpec residualSpec : ShardSpec) :
    Run SplitResidualPlanError SplitResidualPlan :=
  if h : parentNewSpec = residualSpec then .err .identicalSpecs
  else .ok ⟨parentNewSpec, residualSpec, h⟩

def planSplitResidual (debug : Bool) (parent parentNewSpec residualSpec : ShardSpec) :
    Run SplitResidualPlanningError SplitResidualPlan := do
  let plan ← (SplitResidualPlan.tryNew parentNewSpec residualSpec).mapErr .invalidPlan
  (validateResidualSplitBounds debug parent.keyRangeStart parent.keyRangeEnd plan.parentNewSpec
    plan.residualSpec).mapErr .invalidCoverage
  return plan

def planSplitResidualAtPoint (debug : Bool) (parent : ShardSpec) (splitPoint : Bytes) :
    Run SplitResidualPlanningError SplitResidualPlan :=
  planSplitResidual debug parent ⟨parent.keyRangeStart, splitPoint, parent.metadata⟩
    ⟨splitPoint, parent.keyRangeEnd, parent.metadata⟩

def planSplitResidualFromCursor (debug : Bool) (parent : ShardSpec) (cursor : CursorUpdate) :
    Run SplitResidualPlanningError SplitResidualPlan := do
  let lastKey ← Outcome.okOr cursor.lastKey .missingCursor
  let splitPoint ← Outcome.okOr (keySuccessor lastKey) .noSuccessor
  Outcome.ensure (¬ (splitPoint ≤ parent.keyRangeStart ∨
    parent.keyRangeEnd ≠ [] ∧ parent.keyRangeEnd ≤ splitPoint)) .splitPointOutOfBounds
  planSplitResidualAtPoint debug parent splitPoint

theorem planSplitResidualAtPoint_eq_ok
    (h : planSplitResidualAtPoint debug parent point = .ok plan) :
    plan.parentNewSpec = ⟨parent.keyRangeStart, point, parent.metadata⟩ ∧
      plan.residualSpec = ⟨point, parent.keyRangeEnd, parent.metadata⟩ ∧
      validateResidualSplitBounds debug parent.keyRangeStart parent.keyRangeEnd plan.parentNewSpec
        plan.residualSpec = .ok () := by
  obtain ⟨_, hm, h⟩ := bind_eq_ok.mp h
  obtain ⟨hb, h⟩ := check_eq_ok.mp h
  cases h
  have hn := mapErr_eq_ok.mp hm
  unfold SplitResidualPlan.tryNew at hn
  split at hn
  · cases hn
  · cases hn
    exact ⟨rfl, rfl, mapErr_eq_ok.mp hb⟩

theorem lt_keySuccessor_iff (hp : keySuccessor lastKey = some point)
    (hk : key.length ≤ maxKeySize) : key < point ↔ key ≤ lastKey := by
  have hlen : lastKey.length ≤ maxKeySize := by
    by_contra hlo
    rw [keySuccessor, if_pos (not_le.mp hlo)] at hp
    cases hp
  obtain ⟨⟨-, hlt⟩, hl⟩ := (keySuccessor_spec hlen).1 point hp
  refine ⟨fun hb => not_lt.mp fun ha => ?_, fun hle => hle.trans_lt hlt⟩
  exact absurd (hl ⟨hk, ha⟩) (not_le.mpr hb)

/-- **Splitting at the cursor** keeps exactly the keys up to the cursor; the backends accept the
plan. -/
theorem cursor_split_exact :
    (∀ key : Bytes, key.length ≤ maxKeySize →
      (∀ next, keySuccessor key = some next → IsLeast (Above maxKeySize key) next) ∧
      (keySuccessor key = none ↔ Above maxKeySize key = ∅)) ∧
    ∀ debug parent cursor plan, planSplitResidualFromCursor debug parent cursor = .ok plan →
      (∃ lastKey, cursor.lastKey = some lastKey ∧
        ∀ key : Bytes, key.length ≤ maxKeySize → parent.containsKey key →
          (plan.parentNewSpec.containsKey key ↔ key ≤ lastKey) ∧
          (plan.residualSpec.containsKey key ↔ ¬ key ≤ lastKey)) ∧
      validateResidualSplitBounds debug parent.keyRangeStart parent.keyRangeEnd
        plan.parentNewSpec plan.residualSpec = .ok () := by
  refine ⟨fun key hkey => keySuccessor_spec hkey, fun debug parent cursor plan h => ?_⟩
  obtain ⟨lastKey, hlast, h⟩ := bind_eq_ok.mp h
  obtain ⟨point, hpoint, h⟩ := bind_eq_ok.mp h
  obtain ⟨hinside, h⟩ := check_eq_ok.mp h
  rw [okOr_eq_ok] at hlast hpoint
  obtain ⟨hstart, -⟩ := not_or.mp (ensure_eq_ok.mp hinside)
  have hpoint_ne : point ≠ [] := by
    rintro rfl
    exact hstart (nil_le_bytes _)
  obtain ⟨hparent, hresidual, hbounds⟩ := planSplitResidualAtPoint_eq_ok h
  refine ⟨⟨lastKey, hlast, fun key hkey hmem => ?_⟩, hbounds⟩
  obtain ⟨hlow, hhigh⟩ := ShardSpec.containsKey_iff.mp hmem
  rw [← lt_keySuccessor_iff hpoint hkey, hparent, hresidual, ShardSpec.containsKey_iff,
    ShardSpec.containsKey_iff, not_lt]
  exact ⟨⟨fun hnew => hnew.2.resolve_left hpoint_ne, fun hlt => ⟨hlow, .inr hlt⟩⟩,
    ⟨fun hres => hres.1, fun hle => ⟨hle, hhigh⟩⟩⟩

/-- A cursor at key 4 in the range from 1 to 9. -/
theorem cursor_split_at_four : ∃ plan,
    planSplitResidualFromCursor true ⟨[1], [9], []⟩ (.new [4] (List.cons_ne_nil _ _)) = .ok plan ∧
      plan.parentNewSpec.containsKey [4] ∧ plan.residualSpec.containsKey [4, 0] := by
  have hplan : planSplitResidualFromCursor true ⟨[1], [9], []⟩ (.new [4] (cons_ne_nil _ _)) =
      .ok ⟨⟨[1], [4, 0], []⟩, ⟨[4, 0], [9], []⟩, by decide⟩ := by decide +kernel
  obtain ⟨⟨_, hlast, hkeys⟩, -⟩ := cursor_split_exact.2 _ _ _ _ hplan
  cases hlast
  exact ⟨_, hplan, (hkeys [4] (by decide) (by decide)).1.mpr (by decide),
    (hkeys [4, 0] (by decide) (by decide)).2.mpr (by decide)⟩

/-! ## Replace plans -/

inductive SplitReplacePlanError where
  | tooFewChildren (count : Nat)
  | tooManyChildren (count : Nat)
deriving DecidableEq, Repr

inductive SplitReplacePlanningError where
  | invalidChildCount (e : SplitReplacePlanError)
  | invalidCoverage (e : SplitValidationError)
deriving DecidableEq, Repr

/-- The count of an oversized plan is not taken further than one past the limit. -/
def SplitReplacePlan.tryNew (children : List SplitReplaceChild) :
    Run SplitReplacePlanError SplitReplacePlan :=
  if hmax : children.length ≤ maxSplitChildren then
    if htwo : 2 ≤ children.length then .ok ⟨children, htwo, hmax⟩
    else .err (.tooFewChildren children.length)
  else .err (.tooManyChildren (maxSplitChildren + 1))

def planSplitReplace (debug : Bool) (parent : ShardSpec) (children : List SplitReplaceChild) :
    Run SplitReplacePlanningError SplitReplacePlan := do
  let plan ← (SplitReplacePlan.tryNew children).mapErr .invalidChildCount
  (validateSplitCoverageBounds debug parent.keyRangeStart parent.keyRangeEnd
    (plan.children.map SplitReplaceChild.spec)).mapErr .invalidCoverage
  return plan

def childrenAt (parent : ShardSpec) (cursorForChild : Nat → ShardSpec → CursorUpdate) :
    Nat → Bytes → List Bytes → List SplitReplaceChild
  | index, start, [] =>
    let spec : ShardSpec := ⟨start, parent.keyRangeEnd, parent.metadata⟩
    [⟨spec, cursorForChild index spec⟩]
  | index, start, point :: rest =>
    let spec : ShardSpec := ⟨start, point, parent.metadata⟩
    ⟨spec, cursorForChild index spec⟩ :: childrenAt parent cursorForChild (index + 1) point rest

def planSplitReplaceAtPoints (debug : Bool) (parent : ShardSpec) (points : List Bytes)
    (cursorForChild : Nat → ShardSpec → CursorUpdate) :
    Run SplitReplacePlanningError SplitReplacePlan := do
  Outcome.ensure (points.length + 1 ≤ maxSplitChildren)
    (.invalidChildCount (.tooManyChildren (maxSplitChildren + 1)))
  planSplitReplace debug parent (childrenAt parent cursorForChild 0 parent.keyRangeStart points)

def specsAt (parent : ShardSpec) : Bytes → List Bytes → List ShardSpec
  | start, [] => [⟨start, parent.keyRangeEnd, parent.metadata⟩]
  | start, point :: rest => ⟨start, point, parent.metadata⟩ :: specsAt parent point rest

section Points

variable {parent : ShardSpec} {start stop : Bytes} {points : List Bytes} {specs : List ShardSpec}

theorem map_spec_childrenAt (cursorForChild) (index) :
    (childrenAt parent cursorForChild index start points).map SplitReplaceChild.spec =
      specsAt parent start points := by
  induction points generalizing index start with
  | nil => rfl
  | cons point rest ih => exact congrArg (_ :: ·) (ih (index + 1))

theorem map_start_specsAt :
    (specsAt parent start points).map keyRangeStart = start :: points := by
  induction points generalizing start with
  | nil => rfl
  | cons point rest ih => exact congrArg (start :: ·) ih

theorem length_specsAt : (specsAt parent start points).length = points.length + 1 := by
  rw [← length_map keyRangeStart, map_start_specsAt, length_cons]

theorem Chain.starts (h : Chain start stop specs) :
    (specs.map keyRangeStart).Pairwise (· < ·) ∧ (specs.map keyRangeStart).head? = some start := by
  induction h with
  | last valid => exact ⟨pairwise_singleton _ _, rfl⟩
  | @cons spec stop rest valid bounded chain ih =>
    obtain ⟨hs, hh⟩ := ih
    obtain ⟨_, hr⟩ := List.head?_eq_some_iff.mp hh
    have hsp := containsKey_iff.mp (containsKey_start valid.not_inverted)
    have hl := hsp.2.resolve_left bounded
    refine ⟨pairwise_cons.mpr ⟨fun other hm => ?_, hs⟩, rfl⟩
    rw [hr] at hm hs
    rcases mem_cons.mp hm with rfl | hm
    · exact hl
    · exact hl.trans ((pairwise_cons.mp hs).1 other hm)

def PointsInside (parent : ShardSpec) (start : Bytes) (points : List Bytes) : Prop :=
  points.Pairwise (· < ·) ∧
    ∀ point ∈ points, start < point ∧ (parent.keyRangeEnd = [] ∨ point < parent.keyRangeEnd)

structure PointsFit (parent : ShardSpec) (start : Bytes) (points : List Bytes) : Prop where
  start_le : start.length ≤ maxKeySize
  stop_le : parent.keyRangeEnd.length ≤ maxKeySize
  metadata_le : parent.metadata.length ≤ maxMetadataSize
  points_le : ∀ point ∈ points, point.length ≤ maxKeySize

theorem not_inverted_of_lt {spec : ShardSpec}
    (h : spec.keyRangeEnd = [] ∨ spec.keyRangeStart < spec.keyRangeEnd) : ¬ spec.Inverted := by
  rintro ⟨-, hn, hl⟩
  exact absurd hl (not_le.mpr (h.resolve_left hn))

theorem chain_specsAt (hin : PointsInside parent start points) (hfi : PointsFit parent start points)
    (hlt : parent.keyRangeEnd = [] ∨ start < parent.keyRangeEnd) :
    Chain start parent.keyRangeEnd (specsAt parent start points) := by
  induction points generalizing start with
  | nil =>
    exact @Chain.last ⟨start, parent.keyRangeEnd, parent.metadata⟩
      ⟨hfi.start_le, hfi.stop_le, hfi.metadata_le, not_inverted_of_lt hlt⟩
  | cons point rest ih =>
    obtain ⟨hso, hins⟩ := hin
    obtain ⟨hf, hr⟩ := pairwise_cons.mp hso
    obtain ⟨hs, hpo⟩ := hins point mem_cons_self
    have hl := hfi.points_le point mem_cons_self
    have hn : point ≠ [] := (lt_of_le_of_lt (nil_le_bytes start) hs).ne'
    refine @Chain.cons ⟨start, point, parent.metadata⟩ _ _
      ⟨hfi.start_le, hl, hfi.metadata_le, not_inverted_of_lt (.inr hs)⟩ hn (ih ?_ ?_ hpo)
    · exact ⟨hr, fun p hp => ⟨hf p hp, (hins p (mem_cons_of_mem _ hp)).2⟩⟩
    · exact ⟨hl, hfi.stop_le, hfi.metadata_le, fun p hp => hfi.points_le p (mem_cons_of_mem _ hp)⟩

theorem pointsInside_of_valid (hv : ∀ spec ∈ specsAt parent start points, spec.Valid)
    (hn : ∀ point ∈ points, point ≠ []) :
    PointsInside parent start points ∧ PointsFit parent start points ∧
      (parent.keyRangeEnd = [] ∨ start < parent.keyRangeEnd) := by
  induction points generalizing start with
  | nil =>
    have hsp := hv _ mem_cons_self
    have hst := containsKey_iff.mp (containsKey_start hsp.not_inverted)
    exact ⟨⟨.nil, nofun⟩, ⟨hsp.start_le, hsp.end_le, hsp.metadata_le, nofun⟩, hst.2⟩
  | cons point rest ih =>
    have hsp := hv _ mem_cons_self
    have hst := containsKey_iff.mp (containsKey_start hsp.not_inverted)
    have hl : start < point := hst.2.resolve_left (hn point mem_cons_self)
    obtain ⟨⟨hso, hin⟩, hf, hpo⟩ :=
      ih (fun spec hs => hv spec (mem_cons_of_mem _ hs)) fun p hp => hn p (mem_cons_of_mem _ hp)
    refine ⟨⟨pairwise_cons.mpr ⟨fun p hp => (hin p hp).1, hso⟩, fun p hp => ?_⟩,
      ⟨hsp.start_le, hf.stop_le, hf.metadata_le, fun p hp => ?_⟩,
      hpo.imp_right hl.trans⟩
    · rcases mem_cons.mp hp with rfl | hp
      · exact ⟨hl, hpo⟩
      · exact ⟨hl.trans (hin p hp).1, (hin p hp).2⟩
    rcases mem_cons.mp hp with rfl | hp
    · exact hsp.end_le
    · exact hf.points_le p hp

/-- Ranges that chain once sorted have no empty point: the first range starts there already. -/
theorem ne_nil_of_chain (h : Chain start stop (orderedSpecs (specsAt parent start points))) :
    ∀ point ∈ points, point ≠ [] := by
  obtain ⟨hs, hh⟩ := h.starts
  have hp := (perm_orderedSpecs (specsAt parent start points)).map keyRangeStart
  rw [map_start_specsAt] at hp
  obtain ⟨rest, hst⟩ := List.head?_eq_some_iff.mp hh
  rw [hst] at hp hs
  intro point hpo
  have hm : point ∈ rest := hp.cons_inv.mem_iff.mpr hpo
  exact ((nil_le_bytes start).trans_lt ((pairwise_cons.mp hs).1 point hm)).ne'

theorem coverage_specsAt_iff (hp : points ≠ []) :
    validateSplitCoverageBounds debug start parent.keyRangeEnd (specsAt parent start points) =
      .ok () ↔ PointsInside parent start points ∧ PointsFit parent start points := by
  constructor
  · intro h
    have hc := (validateSplitCoverageBounds_eq_ok h).2
    have hv : ∀ spec ∈ specsAt parent start points, spec.Valid :=
      fun spec hs => hc.valid spec ((perm_orderedSpecs _).mem_iff.mpr hs)
    obtain ⟨hin, hf, -⟩ := pointsInside_of_valid hv (ne_nil_of_chain hc)
    exact ⟨hin, hf⟩
  rintro ⟨hin, hf⟩
  obtain ⟨point, rest, rfl⟩ := exists_cons_of_ne_nil hp
  obtain ⟨hst, he⟩ := hin.2 point mem_cons_self
  have hc := chain_specsAt hin hf (he.imp_right hst.trans)
  have hso : (specsAt parent start (point :: rest)).Pairwise fun a b =>
      a.keyRangeStart ≤ b.keyRangeStart :=
    (pairwise_map.mp hc.starts.1).imp le_of_lt
  refine validateSplitCoverageBounds_of_chain ?_ ?_
  · rw [length_specsAt, length_cons]
    omega
  · rw [orderedSpecs, hso.insertionSort_eq]
    exact hc

end Points

theorem planSplitReplace_eq_ok :
    planSplitReplace debug parent children = .ok plan ↔ plan.children = children ∧
      validateSplitCoverageBounds debug parent.keyRangeStart parent.keyRangeEnd
        (children.map SplitReplaceChild.spec) = .ok () := by
  unfold planSplitReplace
  rw [bind_eq_ok]
  constructor
  · rintro ⟨_, hm, h⟩
    obtain ⟨hc, h⟩ := check_eq_ok.mp h
    cases h
    have hn := mapErr_eq_ok.mp hm
    unfold SplitReplacePlan.tryNew at hn
    split at hn
    · split at hn
      · cases hn
        exact ⟨rfl, mapErr_eq_ok.mp hc⟩
      · cases hn
    · cases hn
  · rintro ⟨rfl, hc⟩
    refine ⟨plan, mapErr_eq_ok.mpr ?_, check_eq_ok.mpr ⟨mapErr_eq_ok.mpr hc, rfl⟩⟩
    rw [SplitReplacePlan.tryNew, dif_pos plan.le_max, dif_pos plan.two_le]

section PlanAtPoints

variable {debug : Bool} {parent : ShardSpec} {points : List Bytes}
  {cursorForChild : Nat → ShardSpec → CursorUpdate}

theorem planSplitReplaceAtPoints_eq_ok :
    planSplitReplaceAtPoints debug parent points cursorForChild = .ok plan ↔
      points.length + 1 ≤ maxSplitChildren ∧
        plan.children = childrenAt parent cursorForChild 0 parent.keyRangeStart points ∧
        points ≠ [] ∧ PointsInside parent parent.keyRangeStart points ∧
        PointsFit parent parent.keyRangeStart points := by
  rw [planSplitReplaceAtPoints, check_eq_ok, ensure_eq_ok,
    planSplitReplace_eq_ok, map_spec_childrenAt]
  refine and_congr_right' (and_congr_right' ⟨fun hc => ?_, fun h => ?_⟩)
  · have hn : points ≠ [] := by
      rintro rfl
      exact absurd (validateSplitCoverageBounds_eq_ok hc).1 (by decide : ¬ 2 ≤ 1)
    exact ⟨hn, (coverage_specsAt_iff hn).mp hc⟩
  · exact (coverage_specsAt_iff h.1).mpr h.2

theorem exists_planAtPoints_iff :
    (∃ plan, planSplitReplaceAtPoints debug parent points cursorForChild = .ok plan) ↔
      points ≠ [] ∧ PointsInside parent parent.keyRangeStart points ∧
        PointsFit parent parent.keyRangeStart points ∧ points.length + 1 ≤ maxSplitChildren := by
  simp only [planSplitReplaceAtPoints_eq_ok]
  constructor
  · rintro ⟨plan, hc, -, hn, hin, hf⟩
    exact ⟨hn, hin, hf, hc⟩
  rintro ⟨hn, hin, hf, hc⟩
  have hl : (childrenAt parent cursorForChild 0 parent.keyRangeStart points).length =
      points.length + 1 := by
    rw [← length_map SplitReplaceChild.spec, map_spec_childrenAt, length_specsAt]
  have hp := length_pos_iff.mpr hn
  exact ⟨⟨_, by omega, by omega⟩, hc, rfl, hn, hin, hf⟩

end PlanAtPoints

/-- **Splitting at points** succeeds exactly for points that increase strictly inside the parent,
within the limits; the children then partition the parent in order and pass its coverage check. -/
theorem points_split_exact (debug : Bool) (parent : ShardSpec) (points : List Bytes)
    (cursorForChild : Nat → ShardSpec → CursorUpdate) :
    ((∃ plan, planSplitReplaceAtPoints debug parent points cursorForChild = .ok plan) ↔
      points ≠ [] ∧ PointsInside parent parent.keyRangeStart points ∧
        PointsFit parent parent.keyRangeStart points ∧ points.length + 1 ≤ maxSplitChildren) ∧
    ∀ plan, planSplitReplaceAtPoints debug parent points cursorForChild = .ok plan →
      plan.children.length = points.length + 1 ∧
      Chain parent.keyRangeStart parent.keyRangeEnd (plan.children.map SplitReplaceChild.spec) ∧
      Partitions parent.keyRangeStart parent.keyRangeEnd
        (plan.children.map SplitReplaceChild.spec) ∧
      validateSplitCoverageBounds debug parent.keyRangeStart parent.keyRangeEnd
        (plan.children.map SplitReplaceChild.spec) = .ok () := by
  refine ⟨exists_planAtPoints_iff, fun plan h => ?_⟩
  obtain ⟨-, hchildren, hne, hin, hfit⟩ := planSplitReplaceAtPoints_eq_ok.mp h
  have hspecs : plan.children.map SplitReplaceChild.spec =
      specsAt parent parent.keyRangeStart points := by rw [hchildren, map_spec_childrenAt]
  obtain ⟨point, hmem⟩ := exists_mem_of_ne_nil _ hne
  obtain ⟨hstart, hend⟩ := hin.2 point hmem
  have hchain := chain_specsAt hin hfit (hend.imp_right hstart.trans)
  rw [hspecs]
  refine ⟨?_, hchain, hchain.partitions, (coverage_specsAt_iff hne).mpr ⟨hin, hfit⟩⟩
  rw [← length_specsAt, ← hspecs, length_map]

/-- Three ranges cut from 1 to 9. -/
theorem points_split_thirds : ∃ plan : SplitReplacePlan,
    planSplitReplaceAtPoints true ⟨[1], [9], []⟩ [[4], [6]] (fun _ _ => .initial) = .ok plan ∧
      plan.children.length = 3 := by
  have hexists : ∃ plan, planSplitReplaceAtPoints true ⟨[1], [9], []⟩ [[4], [6]]
      (fun _ _ => .initial) = .ok plan :=
    (points_split_exact _ _ _ _).1.mpr ⟨by decide, by unfold PointsInside; decide,
      ⟨by decide, by decide, by decide, by decide⟩, by decide⟩
  obtain ⟨plan, hplan⟩ := hexists
  exact ⟨plan, hplan, ((points_split_exact _ _ _ _).2 plan hplan).1⟩

end GossipRs
