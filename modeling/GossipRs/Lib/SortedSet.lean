import Mathlib

/-! The elements of a finite set in ascending order, so that iterating over a set is a computation
on a list. -/

namespace GossipRs.Lib

open List

variable {α : Type} [LinearOrder α]

theorem insertionSort_eq_of_perm {l l' : List α} (h : l.Perm l') :
    l.insertionSort (· ≤ ·) = l'.insertionSort (· ≤ ·) :=
  ((perm_insertionSort _ l).trans (h.trans (perm_insertionSort _ l').symm)).eq_of_pairwise
    (fun _ _ _ _ => le_antisymm) (pairwise_insertionSort _ l) (pairwise_insertionSort _ l')

def sortedElements (s : Finset α) : List α :=
  Quotient.liftOn s.val (fun l => l.insertionSort (· ≤ ·)) fun _ _ h => insertionSort_eq_of_perm h

theorem mem_sortedElements {a : α} : a ∈ sortedElements s ↔ a ∈ s := by
  obtain ⟨⟨_⟩, _⟩ := s
  exact mem_insertionSort _

theorem nodup_sortedElements (s : Finset α) : (sortedElements s).Nodup := by
  obtain ⟨⟨l⟩, hn⟩ := s
  exact (perm_insertionSort _ l).nodup_iff.mpr hn

end GossipRs.Lib
