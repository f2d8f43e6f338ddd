import Mathlib

/-! Merging of anchor windows (`helpers/window.rs`). Windows are joined with a gap that doubles
until few enough are left; the last resort is one window from the first start to the end of the last
window. Callers merge the windows once before, so that the last window is also the last to end. -/

namespace GossipRs.Engine.Windows

open List

structure SpanU32 where
  start : Nat
  stop : Nat
  anchorHint : Nat
deriving DecidableEq, Repr

/-- The value of a saturating `u32` operation. -/
def saturate (n : Nat) : Nat := min n (2 ^ 32 - 1)

def mergeFrom (gap : Nat) (cur : SpanU32) : List SpanU32 → List SpanU32
  | [] => [cur]
  | r :: rest =>
    if r.start ≤ saturate (cur.stop + gap) then
      mergeFrom gap ⟨cur.start, max cur.stop r.stop, min cur.anchorHint r.anchorHint⟩ rest
    else cur :: mergeFrom gap r rest

def mergeRangesWithGapSorted (gap : Nat) : List SpanU32 → List SpanU32
  | [] => []
  | cur :: rest => mergeFrom gap cur rest

def collapse (hayLen : Nat) : List SpanU32 → List SpanU32
  | [] => []
  | first :: rest =>
    [⟨min first.start hayLen, min (rest.getLastD first).stop hayLen,
      min (((first :: rest).map SpanU32.anchorHint).foldl min first.start) hayLen⟩]

def widen (hayLen maxWindows : Nat) : Nat → Nat → List SpanU32 → Option (List SpanU32)
  | 0, _, _ => none
  | fuel + 1, gap, ranges =>
    if maxWindows < ranges.length ∧ gap < hayLen then
      widen hayLen maxWindows fuel (saturate (gap * 2)) (mergeRangesWithGapSorted gap ranges)
    else some ranges

/-- `none` stands for a loop that has not ended after `fuel` passes. -/
def coalesceUnderPressureSorted (fuel : Nat) (ranges : List SpanU32) (hayLen gap maxWindows : Nat) :
    Option (List SpanU32) :=
  if ranges.length ≤ maxWindows then some ranges
  else (widen hayLen maxWindows fuel gap ranges).map fun ranges =>
    if maxWindows < ranges.length then collapse hayLen ranges else ranges

def SpanU32.Within (inner outer : SpanU32) : Prop :=
  outer.start ≤ inner.start ∧ inner.stop ≤ outer.stop ∧ outer.anchorHint ≤ inner.anchorHint

def Covers (out ranges : List SpanU32) : Prop := ∀ r ∈ ranges, ∃ w ∈ out, r.Within w

def Apart (gap : Nat) (a b : SpanU32) : Prop := a.stop + gap < b.start

def Sorted (ranges : List SpanU32) : Prop := ranges.Pairwise fun a b => a.start ≤ b.start

/-- No window ends after the last one. -/
def EndsLast (ranges : List SpanU32) : Prop :=
  ∀ last ∈ ranges.getLast?, ∀ r ∈ ranges, r.stop ≤ last.stop

def InHay (hayLen : Nat) (ranges : List SpanU32) : Prop :=
  ∀ r ∈ ranges, r.start ≤ r.stop ∧ r.stop ≤ hayLen

theorem SpanU32.Within.refl {a : SpanU32} : a.Within a := ⟨le_rfl, le_rfl, le_rfl⟩

theorem SpanU32.Within.trans {a b c : SpanU32} (h : a.Within b) (h' : b.Within c) : a.Within c :=
  ⟨h'.1.trans h.1, h.2.1.trans h'.2.1, h'.2.2.trans h.2.2⟩

theorem Covers.refl {l} : Covers l l := fun r hr => ⟨r, hr, .refl⟩

theorem Covers.trans (h : Covers b a) (h' : Covers c b) : Covers c a := by
  intro r hr
  obtain ⟨w, hw, hin⟩ := h r hr
  obtain ⟨w', hw', hi'⟩ := h' w hw
  exact ⟨w', hw', hin.trans hi'⟩

section

variable (hmax : hayLen < 2 ^ 32)
include hmax

theorem mergeFrom_spec {rest} (hs : Sorted (cur :: rest)) (hin : InHay hayLen (cur :: rest)) :
    Covers (mergeFrom gap cur rest) (cur :: rest) ∧ (mergeFrom gap cur rest).Pairwise (Apart gap) ∧
      ∀ w ∈ mergeFrom gap cur rest, cur.start ≤ w.start ∧ w.start ≤ w.stop ∧ w.stop ≤ hayLen := by
  induction rest generalizing cur with
  | nil => exact ⟨.refl, by simp [mergeFrom], by simpa [mergeFrom, InHay] using hin⟩
  | cons r rest ih =>
    simp only [Sorted, pairwise_cons, forall_mem_cons] at hs ih
    simp only [InHay, forall_mem_cons] at hin ih
    obtain ⟨⟨hl, hcu⟩, hr, hre⟩ := hs
    obtain ⟨hinc, hinr, hinrest⟩ := hin
    rw [mergeFrom]
    split
    next hn =>
      -- both windows lie in the one that has grown
      obtain ⟨hc, ho⟩ := @ih
        ⟨cur.start, max cur.stop r.stop, min cur.anchorHint r.anchorHint⟩ ⟨hcu, hre⟩
        ⟨⟨hinc.1.trans (le_max_left _ _), max_le hinc.2 hinr.2⟩, hinrest⟩
      refine ⟨Covers.trans (fun x hx => ?_) hc, ho⟩
      simp only [mem_cons] at hx
      rcases hx with rfl | rfl | hx
      · exact ⟨_, mem_cons_self, le_rfl, le_max_left _ _, min_le_left _ _⟩
      · exact ⟨_, mem_cons_self, hl, le_max_right _ _, min_le_right _ _⟩
      · exact ⟨x, mem_cons_of_mem _ hx, .refl⟩
    next hf =>
      obtain ⟨hc, ha, hb⟩ := ih ⟨hr, hre⟩ ⟨hinr, hinrest⟩
      have hg : cur.stop + gap < r.start := by
        rw [saturate] at hf
        omega
      refine ⟨fun x hx => ?_, pairwise_cons.mpr ⟨fun w hw => ?_, ha⟩,
        forall_mem_cons.mpr ⟨⟨le_rfl, hinc⟩, fun w hw => ?_⟩⟩
      · rcases mem_cons.mp hx with rfl | hx
        · exact ⟨_, mem_cons_self, .refl⟩
        · obtain ⟨w, hw, hin⟩ := hc x hx
          exact ⟨w, mem_cons_of_mem _ hw, hin⟩
      · exact hg.trans_le (hb w hw).1
      · exact ⟨hl.trans (hb w hw).1, (hb w hw).2⟩

theorem merge_spec {ranges} (gap) (hs : Sorted ranges) (hin : InHay hayLen ranges) :
    Covers (mergeRangesWithGapSorted gap ranges) ranges ∧
      (mergeRangesWithGapSorted gap ranges).Pairwise (Apart gap) ∧
      InHay hayLen (mergeRangesWithGapSorted gap ranges) := by
  cases ranges with
  | nil => exact ⟨.refl, .nil, hin⟩
  | cons cur rest =>
    obtain ⟨hc, ha, hb⟩ := mergeFrom_spec hmax hs hin
    exact ⟨hc, ha, fun w hw => (hb w hw).2⟩

omit hmax in
theorem InHay.ordered {ranges} (hin : InHay hayLen ranges) (hap : ranges.Pairwise (Apart gap)) :
    Sorted ranges ∧ EndsLast ranges := by
  constructor
  · refine hap.imp_of_mem fun ha _ hab => ?_
    have := hin _ ha
    simp only [Apart] at hab
    omega
  intro last hlast r hr
  obtain ⟨init, rfl⟩ := getLast?_eq_some_iff.mp hlast
  rcases mem_append.mp hr with hr | hr
  · have hab := (pairwise_append.mp hap).2.2 r hr last (mem_singleton.mpr rfl)
    have := hin last (mem_append_right _ (mem_singleton.mpr rfl))
    simp only [Apart] at hab
    omega
  · rw [mem_singleton.mp hr]

theorem widen_spec {ranges} (hs : Sorted ranges) (hin : InHay hayLen ranges) (hg : 0 < gap)
    (hf : hayLen - gap < fuel) (he : gap < hayLen ∨ EndsLast ranges) :
    ∃ out, widen hayLen maxWindows fuel gap ranges = some out ∧ Sorted out ∧ InHay hayLen out ∧
      Covers out ranges ∧ (maxWindows < out.length → EndsLast out) := by
  induction fuel generalizing gap ranges with
  | zero => omega
  | succ fuel ih =>
    rw [widen]
    split
    next hmo =>
      have hd : gap < saturate (gap * 2) := by
        rw [saturate]
        omega
      obtain ⟨hco, ha, hm⟩ := merge_spec hmax gap hs hin
      obtain ⟨hst, hsto⟩ := hm.ordered ha
      obtain ⟨out, ho, hso, hino, hc, hl⟩ :=
        ih hst hm (hg.trans hd) (by omega) (.inr hsto)
      exact ⟨out, ho, hso, hino, hco.trans hc, hl⟩
    next hstop =>
      refine ⟨ranges, rfl, hs, hin, .refl, fun hl => ?_⟩
      exact he.resolve_left fun hlt => hstop ⟨hl, hlt⟩

end

theorem foldl_min_le (hin : List Nat) (m : Nat) :
    hin.foldl min m ≤ m ∧ ∀ hint ∈ hin, hin.foldl min m ≤ hint := by
  induction hin generalizing m with
  | nil => simp
  | cons x hin ih =>
    obtain ⟨hm, hh⟩ := ih (min m x)
    simp only [foldl_cons, forall_mem_cons]
    exact ⟨hm.trans (min_le_left _ _), hm.trans (min_le_right _ _), hh⟩

/-- The last resort covers all windows exactly if none ends after the last. -/
theorem covers_collapse_iff {ranges} (hs : Sorted ranges) (hin : InHay hayLen ranges) :
    Covers (collapse hayLen ranges) ranges ↔ EndsLast ranges := by
  cases ranges with
  | nil => exact ⟨fun _ => nofun, fun _ => .refl⟩
  | cons first rest =>
    have hlast : (first :: rest).getLast? = some (rest.getLastD first) := by
      rw [getLast?_cons, getLastD_eq_getLast?]
    constructor
    · intro hc last hl r hr
      cases hlast.symm.trans hl
      obtain ⟨w, hw, -, hstop, -⟩ := hc r hr
      cases mem_singleton.mp hw
      exact hstop.trans (min_le_left _ _)
    · intro he r hr
      refine ⟨_, mem_cons_self, (min_le_left _ _).trans ?_,
        le_min (he _ hlast r hr) (hin r hr).2, (min_le_left _ _).trans ?_⟩
      · rcases mem_cons.mp hr with rfl | hm
        · exact le_rfl
        · exact (pairwise_cons.mp hs).1 r hm
      · exact (foldl_min_le _ _).2 _ (mem_map_of_mem hr)

theorem sorted_collapse {ranges} : Sorted (collapse hayLen ranges) := by
  cases ranges <;> simp [collapse, Sorted]

theorem length_collapse_le {ranges} : (collapse hayLen ranges).length ≤ 1 := by
  cases ranges <;> simp [collapse]

/-- The condition under which the last resort is not reached or loses nothing. -/
def Spanned (ranges : List SpanU32) (hayLen gap maxWindows : Nat) : Prop :=
  gap < hayLen ∨ ranges.length ≤ maxWindows ∨ EndsLast ranges

theorem coalesce_spec {ranges} (hmax : hayLen < 2 ^ 32) (hs : Sorted ranges)
    (hin : InHay hayLen ranges) (hgap : 1 ≤ gap) (hfuel : hayLen < fuel) :
    ∃ out, coalesceUnderPressureSorted fuel ranges hayLen gap maxWindows = some out ∧
      out.length ≤ max 1 maxWindows ∧ Sorted out ∧
      (Covers out ranges ↔ Spanned ranges hayLen gap maxWindows) := by
  rw [coalesceUnderPressureSorted]
  split
  next hfew => exact ⟨ranges, rfl, by omega, hs, fun _ => .inr (.inl hfew), fun _ => .refl⟩
  next hmany =>
    by_cases hends : gap < hayLen ∨ EndsLast ranges
    · have hspan : Spanned ranges hayLen gap maxWindows := hends.imp_right .inr
      obtain ⟨out, hout, hso, hino, hc, hlast⟩ :=
        widen_spec hmax hs hin hgap (by omega : hayLen - gap < fuel) hends
      rw [hout, Option.map_some]
      split
      next hstill =>
        have hcovers := hc.trans ((covers_collapse_iff hso hino).mpr (hlast hstill))
        exact ⟨_, rfl, length_collapse_le.trans (le_max_left _ _), sorted_collapse,
          fun _ => hspan, fun _ => hcovers⟩
      next hfits =>
        exact ⟨out, rfl, le_max_of_le_right (not_lt.mp hfits), hso, fun _ => hspan, fun _ => hc⟩
    · -- no pass is made: the windows as given are collapsed
      obtain ⟨hlt, hlast⟩ := not_or.mp hends
      obtain ⟨fuel, rfl⟩ : ∃ n, fuel = n + 1 := ⟨fuel - 1, by omega⟩
      have hno : ¬ (maxWindows < ranges.length ∧ gap < hayLen) := fun h => hlt h.2
      rw [widen, if_neg hno, Option.map_some, if_pos (not_le.mp hmany)]
      refine ⟨_, rfl, length_collapse_le.trans (le_max_left _ _), sorted_collapse, ?_⟩
      rw [covers_collapse_iff hs hin, Spanned]
      exact ⟨fun h => absurd h hlast, fun h => (h.resolve_left hlt).resolve_left hmany⟩

/-- **Coalescing.** Every window keeps a window around it exactly if the gap is below the haystack's
length, or the windows are few enough, or none ends after the last; merging first gives the last. -/
theorem coalesce_covers_iff (ranges : List SpanU32) (hayLen : Nat) (hmax : hayLen < 2 ^ 32)
    (hsorted : Sorted ranges) (hin : InHay hayLen ranges) :
    (∀ gap, Covers (mergeRangesWithGapSorted gap ranges) ranges ∧
      (mergeRangesWithGapSorted gap ranges).Pairwise (Apart gap)) ∧
    ∀ gap maxWindows fuel, 1 ≤ gap → hayLen < fuel →
      (∃ out, coalesceUnderPressureSorted fuel ranges hayLen gap maxWindows = some out ∧
        out.length ≤ max 1 maxWindows ∧ Sorted out ∧
        (Covers out ranges ↔ Spanned ranges hayLen gap maxWindows)) ∧
      ∀ mergeGap, ∃ out, coalesceUnderPressureSorted fuel
          (mergeRangesWithGapSorted mergeGap ranges) hayLen gap maxWindows = some out ∧
        out.length ≤ max 1 maxWindows ∧ Sorted out ∧ Covers out ranges := by
  refine ⟨fun gap => ?_, fun gap maxWindows fuel hgap hfuel => ⟨?_, fun mergeGap => ?_⟩⟩
  · obtain ⟨hcovers, hapart, -⟩ := merge_spec hmax gap hsorted hin
    exact ⟨hcovers, hapart⟩
  · exact coalesce_spec hmax hsorted hin hgap hfuel
  · obtain ⟨hcovers, hapart, hin'⟩ := merge_spec hmax mergeGap hsorted hin
    obtain ⟨hsorted', hlast⟩ := hin'.ordered hapart
    obtain ⟨out, hout, hlen, hso, hiff⟩ := coalesce_spec hmax hsorted' hin' hgap hfuel
    exact ⟨out, hout, hlen, hso, hcovers.trans (hiff.mpr (.inr (.inr hlast)))⟩

/-- Four windows, one nested in another, of which two may be left. -/
theorem coalesce_covers_nested :
    ∃ out, coalesceUnderPressureSorted 41 [⟨0, 9, 2⟩, ⟨3, 5, 4⟩, ⟨12, 15, 12⟩,
      ⟨30, 36, 31⟩] 40 1 2 =
        some out ∧ out.length ≤ 2 ∧ Sorted out ∧
      Covers out [⟨0, 9, 2⟩, ⟨3, 5, 4⟩, ⟨12, 15, 12⟩, ⟨30, 36, 31⟩] := by
  obtain ⟨⟨out, hout, hlen, hso, hiff⟩, -⟩ :=
    (coalesce_covers_iff [⟨0, 9, 2⟩, ⟨3, 5, 4⟩, ⟨12, 15, 12⟩, ⟨30, 36, 31⟩] 40 (by decide)
      (by simp [Sorted]) (by simp [InHay])).2 1 2 41 (by decide) (by decide)
  exact ⟨out, hout, hlen, hso, hiff.mpr (.inl (by decide))⟩

/-- A gap of the haystack's length skips the merge, and the collapse takes the end of a window
inside another. -/
theorem coalesce_loses_window :
    Sorted [⟨0, 10, 0⟩, ⟨1, 2, 1⟩] ∧ InHay 10 [⟨0, 10, 0⟩, ⟨1, 2, 1⟩] ∧ ∀ fuel, 10 < fuel → ∃ out,
        coalesceUnderPressureSorted fuel [⟨0, 10, 0⟩, ⟨1, 2, 1⟩] 10 10 1 = some out ∧
        ¬ Covers out [⟨0, 10, 0⟩, ⟨1, 2, 1⟩] := by
  refine ⟨by simp [Sorted], by simp [InHay], fun fuel hfuel => ?_⟩
  obtain ⟨n, rfl⟩ : ∃ n, fuel = n + 1 := ⟨fuel - 1, by omega⟩
  refine ⟨[⟨0, 2, 0⟩], rfl, fun hcovers => ?_⟩
  simpa [SpanU32.Within] using hcovers ⟨0, 10, 0⟩ mem_cons_self

end GossipRs.Engine.Windows
