import Mathlib

/-! A log of bounded length, oldest entry first: pushing onto a full log drops the oldest. -/

namespace GossipRs.Lib

variable {α β : Type}

/-- Append `a`, dropping the oldest entry of a log that already holds `cap`. -/
def pushOverwrite (cap : Nat) (log : List α) (a : α) : List α :=
  if log.length < cap then log ++ [a] else log.tail ++ [a]

theorem mem_pushOverwrite {a b : α} (h : b ∈ pushOverwrite cap log a) : b ∈ log ∨ b = a := by
  unfold pushOverwrite at h
  split at h
  · simpa using h
  rcases List.mem_append.mp h with h | h
  · exact .inl (List.mem_of_mem_tail h)
  · exact .inr (by simpa using h)

def lookupLast [DecidableEq β] (key : α → β) (k : β) (log : List α) : Option α :=
  log.reverse.find? fun a => key a = k

theorem lookupLast_eq_some [DecidableEq β] {k : β} {a : α} (h : lookupLast key k log = some a) :
    a ∈ log ∧ key a = k := by
  refine ⟨?_, by simpa using List.find?_some h⟩
  simpa using List.mem_of_find?_eq_some h

end GossipRs.Lib
