import Mathlib

/-! Singly linked lists threaded through an array of successor indices. -/

namespace GossipRs.Lib

open List
open Function (update update_of_ne update_self)

/-- Following `next` from `o` visits the nodes of the list and then ends. -/
def Linked (next : Nat → Option Nat) : Option Nat → List Nat → Prop
  | o, [] => o = none
  | o, n :: l => o = some n ∧ Linked next (next n) l

namespace Linked

variable {next next' : Nat → Option Nat} {o : Option Nat} {l : List Nat} {n t : Nat}

section

variable (h : Linked next o l)

include h

theorem head_eq : o = l.head? := by
  cases l with
  | nil => exact h
  | cons m l => exact h.1

theorem eq_nil_iff : l = [] ↔ o = none := by
  rw [h.head_eq, List.head?_eq_none_iff]

theorem congr (hs : ∀ m ∈ l, next' m = next m) : Linked next' o l := by
  induction l generalizing o with
  | nil => exact h
  | cons m l ih =>
    refine ⟨h.1, ?_⟩
    rw [hs m mem_cons_self]
    exact ih h.2 fun k hk => hs k (mem_cons_of_mem _ hk)

theorem update_of_notMem (hn : n ∉ l) (v : Option Nat) :
    Linked (update next n v) o l :=
  h.congr fun m hm => update_of_ne (fun he : m = n => hn (he ▸ hm)) _ _

theorem push_front (hn : n ∉ l) :
    Linked (update next n o) (some n) (n :: l) := by
  refine ⟨rfl, ?_⟩
  rw [update_self]
  exact h.update_of_notMem hn o

theorem push_back (hla : l.getLast? = some t) (hno : l.Nodup)
    (hn : n ∉ l) :
    Linked (update (update next t (some n)) n none) o (l ++ [n]) := by
  induction l generalizing o with
  | nil => cases hla
  | cons m l ih =>
    obtain ⟨hm, hl⟩ := nodup_cons.mp hno
    have hnm : m ≠ n := fun he => hn (he ▸ mem_cons_self)
    refine ⟨h.1, ?_⟩
    rw [update_of_ne hnm]
    cases l with
    | nil =>
      obtain rfl : m = t := by simpa using hla
      rw [update_self]
      exact ⟨rfl, by rw [update_self]; exact rfl⟩
    | cons k l =>
      have hmt : m ≠ t := fun he => hm (he ▸ List.mem_of_getLast? hla)
      rw [update_of_ne hmt]
      exact ih h.2 hla hl fun hme => hn (mem_cons_of_mem _ hme)

end

theorem length_le (hn : l.Nodup) (hl : ∀ m ∈ l, m < cap) : l.length ≤ cap := by
  have hs : l ⊆ List.range cap := fun m hm => mem_range.mpr (hl m hm)
  have := (subperm_of_subset hn hs).length_le
  rwa [length_range] at this

end Linked

end GossipRs.Lib
