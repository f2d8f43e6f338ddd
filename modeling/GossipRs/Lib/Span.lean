import Mathlib

/-! Spans of positions and the multisets of spans that tile an initial segment of the naturals:
every position below `top` lies in exactly one of them and no other in any. Tiling is stated with
multiplicities, so that splitting, joining, adding and removing spans are equations on sums. -/

namespace GossipRs.Lib

structure Span where
  start : Nat
  size : Nat
deriving DecidableEq, Repr

namespace Span

def stop (s : Span) : Nat := s.start + s.size

def cover (s : Span) (p : Nat) : Nat := if s.start ≤ p ∧ p < s.stop then 1 else 0

theorem cover_eq (s : Span) (p : Nat) :
    s.cover p = if s.start ≤ p ∧ p < s.start + s.size then 1 else 0 := rfl

theorem cover_eq_one {s : Span} (h1 : s.start ≤ p) (h2 : p < s.stop) : s.cover p = 1 :=
  if_pos ⟨h1, h2⟩

theorem cover_append (start a b p : Nat) :
    (⟨start, a + b⟩ : Span).cover p =
      (⟨start, a⟩ : Span).cover p + (⟨start + a, b⟩ : Span).cover p := by
  rw [cover_eq, cover_eq, cover_eq]
  dsimp only
  split_ifs <;> omega

end Span

def covers (m : Multiset Span) (p : Nat) : Nat := (m.map fun s => s.cover p).sum

@[simp] theorem covers_zero (p : Nat) : covers 0 p = 0 := rfl

@[simp] theorem covers_cons (s : Span) (m : Multiset Span) (p : Nat) :
    covers (s ::ₘ m) p = s.cover p + covers m p := by simp [covers]

@[simp] theorem covers_add (m n : Multiset Span) (p : Nat) :
    covers (m + n) p = covers m p + covers n p := by simp [covers]

/-- Every position below `top` is covered once, every other one not at all. -/
def Tiles (m : Multiset Span) (top : Nat) : Prop := ∀ p, covers m p = if p < top then 1 else 0

namespace Tiles

variable {m : Multiset Span} {s t : Span} {top : Nat}

theorem nil : Tiles 0 0 := fun p => by simp

theorem stop_le (h : Tiles m top) (hs : s ∈ m) (hpo : 0 < s.size) : s.stop ≤ top := by
  obtain ⟨_, rfl⟩ := Multiset.exists_cons_of_mem hs
  have hp := h (s.start + s.size - 1)
  rw [covers_cons, Span.cover_eq_one (by omega) (by simp [Span.stop]; omega)] at hp
  unfold Span.stop
  split at hp <;> omega

theorem apart (h : Tiles (s ::ₘ m) top) (ht : t ∈ m) (hs : 0 < s.size) (htp : 0 < t.size) :
    t.stop ≤ s.start ∨ s.stop ≤ t.start := by
  obtain ⟨_, rfl⟩ := Multiset.exists_cons_of_mem ht
  by_contra hc
  simp only [Span.stop, not_or, not_le] at hc
  have hp := h (max s.start t.start)
  rw [covers_cons, covers_cons, Span.cover_eq_one (by omega) (by simp [Span.stop]; omega),
    Span.cover_eq_one (by omega) (by simp [Span.stop]; omega)] at hp
  split at hp <;> omega

theorem split :
    Tiles (⟨start, a + b⟩ ::ₘ m) top ↔ Tiles (⟨start, a⟩ ::ₘ ⟨start + a, b⟩ ::ₘ m) top := by
  simp [Tiles, covers_cons, Span.cover_append, Nat.add_assoc]

theorem grow (h : Tiles m top) (n : Nat) : Tiles (⟨top, n⟩ ::ₘ m) (top + n) := by
  intro p
  rw [covers_cons, h p, Span.cover_eq]
  dsimp only
  split_ifs <;> omega

theorem shrink (h : Tiles (s ::ₘ m) s.stop) : Tiles m s.start := by
  intro p
  have hp := h p
  rw [covers_cons, Span.cover_eq, Span.stop] at hp
  split_ifs at hp ⊢ <;> omega

end Tiles

end GossipRs.Lib
