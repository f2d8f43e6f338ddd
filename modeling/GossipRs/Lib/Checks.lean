import Mathlib

/-! Chains of checks in `Except`: what holds once a chain has passed. -/

namespace GossipRs.Lib

variable {α β ε : Type}

theorem checks_eq_ok {f : α → Except ε β} : x >>= f = .ok b ↔ ∃ a, x = .ok a ∧ f a = .ok b := by
  cases x with
  | error err | ok a => simp [bind, Except.bind]

theorem mapError_eq_ok {ε' : Type} {x : Except ε α} {f : ε → ε'} :
    x.mapError f = .ok a ↔ x = .ok a := by
  cases x with
  | error err | ok b => simp [Except.mapError]

def failIf (p : Prop) [Decidable p] (err : ε) : Except ε Unit := if p then .error err else .ok ()

theorem failIf_eq_ok [Decidable p] {err : ε} : failIf p err = .ok u ↔ ¬ p := by
  rw [failIf]
  split
  · next h => simp [h]
  · next h => simp [h]

def checkEach (check : Nat → α → Except ε Unit) : Nat → List α → Except ε Unit
  | _, [] => .ok ()
  | i, x :: rest => do
    check i x
    checkEach check (i + 1) rest

theorem checkEach_eq_ok {check : Nat → α → Except ε Unit} (h : checkEach check i l = .ok u) :
    ∀ x ∈ l, ∃ j, check j x = .ok () := by
  induction l generalizing i with
  | nil =>
    intro x hx
    cases hx
  | cons y rest ih =>
    obtain ⟨⟨⟩, hy, hr⟩ := checks_eq_ok.mp h
    intro x hx
    rcases List.mem_cons.mp hx with rfl | hx
    · exact ⟨i, hy⟩
    · exact ih hr x hx

end GossipRs.Lib
