import Mathlib

/-! Sliding windows over a sequence. Each has a new part behind what it repeats; the new parts tile
the sequence. A span that is short enough then has exactly one window that contains it and whose new
part it ends in. -/

namespace GossipRs.Lib

open List

structure Window (α : Type) where
  data : List α
  baseOffset : Nat
  newStart : Nat
  newLen : Nat

variable {α : Type}

namespace Window

/-- The window at an offset: the last elements before it, up to the overlap, then the new part. -/
structure Exact (overlap : Nat) (payload : List α) (offset : Nat) (w : Window α) : Prop where
  newStart : w.newStart = offset
  newLen_pos : 0 < w.newLen
  newLen_le : offset + w.newLen ≤ payload.length
  baseOffset : w.baseOffset = offset - min overlap offset
  data : w.data = (payload.take offset).drop (offset - min overlap offset) ++
    (payload.drop offset).take w.newLen

def owns (w : Window α) (a b : Nat) : Bool :=
  w.baseOffset ≤ a && b ≤ w.baseOffset + w.data.length && w.newStart < b

def slice (w : Window α) (a b : Nat) : List α := (w.data.drop (a - w.baseOffset)).take (b - a)

def reports (verdict : List α → Bool) (a b : Nat) (w : Window α) : Bool :=
  w.owns a b && verdict (w.slice a b)

namespace Exact

variable {overlap : Nat} {payload : List α} {offset : Nat} {w : Window α}

section

variable (h : w.Exact overlap payload offset)

include h

theorem data_eq :
    w.data = (payload.drop w.baseOffset).take (offset - w.baseOffset + w.newLen) := by
  have hb : w.baseOffset ≤ offset := by
    rw [h.baseOffset]
    omega
  rw [h.data, ← h.baseOffset, take_add, drop_take, drop_drop]
  congr 3
  omega

theorem length_data :
    w.baseOffset + w.data.length = offset + w.newLen := by
  have hl := h.newLen_le
  have hb := h.baseOffset
  rw [h.data_eq, length_take, length_drop]
  omega

theorem slice_eq (ha : w.baseOffset ≤ a) (hb : b ≤ offset + w.newLen) :
    w.slice a b = (payload.drop a).take (b - a) := by
  rw [slice, h.data_eq, drop_take, drop_drop, take_take]
  congr 1
  · omega
  · congr 1
    omega

theorem owns_iff (hs : b ≤ a + overlap + 1) :
    w.owns a b = true ↔ offset < b ∧ b ≤ offset + w.newLen := by
  have hl := h.length_data
  have hb := h.baseOffset
  rw [owns, Bool.and_eq_true, Bool.and_eq_true, decide_eq_true_iff, decide_eq_true_iff,
    decide_eq_true_iff, h.newStart, hl]
  omega

end

end Exact

end Window

def Tiling (overlap : Nat) (payload : List α) : Nat → List (Window α) → Prop
  | offset, [] => offset = payload.length
  | offset, w :: rest => w.Exact overlap payload offset ∧
    Tiling overlap payload (offset + w.newLen) rest

variable {overlap : Nat} {payload : List α}

/-- Every short span that ends behind the offset is owned by exactly one of the windows. -/
theorem Tiling.countP_owns (h : Tiling overlap payload offset ws) (hs : b ≤ a + overlap + 1)
    (hb : b ≤ payload.length) : ws.countP (·.owns a b) = if offset < b then 1 else 0 := by
  induction ws generalizing offset with
  | nil =>
    have hof : offset = payload.length := h
    rw [countP_nil, if_neg]
    omega
  | cons w rest ih =>
    obtain ⟨he, hr⟩ := h
    have ho := he.owns_iff hs
    rw [countP_cons, ih hr]
    by_cases hw : w.owns a b = true
    · have := ho.mp hw
      rw [if_pos hw, if_neg, if_pos]
      · omega
      · omega
    have hn := fun hb => hw (ho.mpr hb)
    rw [if_neg hw, Nat.add_zero]
    by_cases hof : offset < b
    · rw [if_pos hof, if_pos]
      by_contra hl
      exact hn ⟨hof, Nat.le_of_not_lt hl⟩
    · rw [if_neg hof, if_neg]
      omega

/-- A matcher that sees only the span reports it in exactly the window that owns it. -/
theorem Tiling.countP_reports (h : Tiling overlap payload offset ws) (verdict : List α → Bool)
    (hs : b ≤ a + overlap + 1) (hb : b ≤ payload.length) :
    ws.countP (Window.reports verdict a b) =
      if offset < b ∧ verdict ((payload.drop a).take (b - a)) = true then 1 else 0 := by
  have hsa : ∀ w ∈ ws, Window.reports verdict a b w =
      (w.owns a b && verdict ((payload.drop a).take (b - a))) := by
    induction ws generalizing offset with
    | nil =>
      intro w hw
      cases hw
    | cons w rest ih =>
      obtain ⟨he, hr⟩ := h
      intro x hx
      rcases mem_cons.mp hx with rfl | hx
      · rw [Window.reports]
        cases ho : x.owns a b with
        | false => rfl
        | true =>
          have hen := (he.owns_iff hs).mp ho
          rw [he.slice_eq _ hen.2]
          rw [Window.owns, Bool.and_eq_true, Bool.and_eq_true, decide_eq_true_iff] at ho
          exact ho.1.1
      · exact ih hr x hx
  have hc : ws.countP (Window.reports verdict a b) =
      ws.countP fun w => w.owns a b && verdict ((payload.drop a).take (b - a)) :=
    countP_congr fun w hw => by rw [hsa w hw]
  rw [hc]
  cases hv : verdict ((payload.drop a).take (b - a)) with
  | false => simp
  | true =>
    simp only [Bool.and_true, and_true]
    exact h.countP_owns hs hb

end GossipRs.Lib
