import Mathlib

/-! Open addressing with linear probing. The `n` slots stand on a circle, and a search looks at one
after another from the home of its key on, until it meets a free slot or the key. Keys are only
added, so no slot between a key's home and the key is ever free. -/

namespace GossipRs.Lib.Probing

open Finset (card_filter_eq_iff card_filter_le card_insert_of_notMem card_range range)
open Function (update update_of_ne update_self)

variable {κ : Type} {n : Nat} {live : Nat → Option κ} {key : κ}

inductive Probe where
  | free (slot : Nat)
  | hit
  | full

/-- A search of at most `fuel` slots for a key, `slot` the first; `live` is what they hold. -/
def probe [DecidableEq κ] (live : Nat → Option κ) (n : Nat) (key : κ) : Nat → Nat → Probe
  | 0, _ => .full
  | fuel + 1, slot =>
    match live slot with
    | none => .free slot
    | some k => if k = key then .hit else probe live n key fuel ((slot + 1) % n)

/-- The `d` slots from `i` on hold other keys. -/
def PassedBy (n : Nat) (live : Nat → Option κ) (key : κ) (i d : Nat) : Prop :=
  ∀ j < d, ∃ k, live ((i + j) % n) = some k ∧ k ≠ key

theorem PassedBy.cons {k : κ} {i d : Nat} (hi : live (i % n) = some k) (hk : k ≠ key)
    (h : PassedBy n live key (i + 1) d) : PassedBy n live key i (d + 1) := by
  intro j hj
  cases j with
  | zero => exact ⟨k, hi, hk⟩
  | succ j =>
    have hj := h j (by omega)
    rwa [Nat.add_assoc, Nat.add_comm 1] at hj

theorem PassedBy.update {k : κ} {i d s : Nat} (h : PassedBy n live k i d) (hs : live s = none) :
    PassedBy n (update live s (some key)) k i d := by
  intro j hj
  obtain ⟨k', hk, hne⟩ := h j hj
  refine ⟨k', ?_, hne⟩
  rw [update_of_ne (by rintro rfl; simp [hs] at hk), hk]

/-- The search stops at the first slot that does not hold another key. -/
theorem probe_spec [DecidableEq κ] (fuel i : Nat) :
    ∃ d, PassedBy n live key i d ∧
      (d = fuel ∧ probe live n key fuel (i % n) = .full ∨
       live ((i + d) % n) = some key ∧ probe live n key fuel (i % n) = .hit ∨
       live ((i + d) % n) = none ∧ probe live n key fuel (i % n) = .free ((i + d) % n)) := by
  induction fuel generalizing i with
  | zero => exact ⟨0, by simp [PassedBy], .inl ⟨rfl, rfl⟩⟩
  | succ fuel ih =>
    rw [probe]
    cases hi : live (i % n) with
    | none => exact ⟨0, by simp [PassedBy], by simp [hi]⟩
    | some k =>
      by_cases hk : k = key
      · exact ⟨0, by simp [PassedBy], by simp [hi, hk]⟩
      · obtain ⟨d, hd, h⟩ := ih (i + 1)
        refine ⟨d + 1, hd.cons hi hk, ?_⟩
        simpa [hk, Nat.add_assoc, Nat.add_comm 1] using h

/-- The slots hold the keys, each of them on an unbroken path from its home. -/
structure Holds (n : Nat) (home : κ → Nat) (live : Nat → Option κ) (keys : List κ) : Prop where
  mem : ∀ key, key ∈ keys ↔ ∃ i < n, live i = some key
  path : ∀ key ∈ keys, ∃ d, PassedBy n live key (home key) d ∧
    live ((home key + d) % n) = some key
  card : ((range n).filter fun i => (live i).isSome).card = keys.length

namespace Holds

variable {home : κ → Nat} {keys : List κ}

theorem empty (h : ∀ i, live i = none) : Holds n home live [] := by
  constructor <;> simp [h]

variable (h : Holds n home live keys)
include h

theorem length_le : keys.length ≤ n := by
  simpa [h.card] using card_filter_le (range n) fun i => (live i).isSome

theorem length_lt_iff : keys.length < n ↔ ∃ i < n, live i = none := by
  have hc := card_filter_eq_iff (s := range n) (p := fun i => (live i).isSome)
  rw [h.card, card_range] at hc
  rw [h.length_le.lt_iff_ne, Ne, hc]
  simp

theorem not_mem {d : Nat} (hp : PassedBy n live key (home key) d)
    (hf : live ((home key + d) % n) = none) : key ∉ keys := by
  intro hk
  obtain ⟨e, he, hl⟩ := h.path key hk
  rcases Nat.lt_trichotomy d e with hd | rfl | hd
  · obtain ⟨k, hk, -⟩ := he d hd
    simp [hf] at hk
  · simp [hf] at hl
  · obtain ⟨k, hk, hne⟩ := hp e hd
    simp_all

theorem add (hn : 0 < n) {d : Nat} (hp : PassedBy n live key (home key) d)
    (hf : live ((home key + d) % n) = none) :
    Holds n home (update live ((home key + d) % n) (some key)) (key :: keys) := by
  have hs := Nat.mod_lt (home key + d) hn
  generalize hg : (home key + d) % n = s at hf hs ⊢
  have hne : ∀ {i k}, live i = some k → i ≠ s := by
    rintro i k hi rfl
    simp [hf] at hi
  constructor
  · intro k
    rw [List.mem_cons, h.mem]
    constructor
    · rintro (rfl | ⟨i, hi, hk⟩)
      · exact ⟨s, hs, update_self ..⟩
      · exact ⟨i, hi, by rw [update_of_ne (hne hk), hk]⟩
    · rintro ⟨i, hi, hk⟩
      by_cases his : i = s
      · subst his
        simp_all
      · exact .inr ⟨i, hi, by rwa [update_of_ne his] at hk⟩
  · intro k hk
    rcases List.mem_cons.mp hk with rfl | hk
    · exact ⟨d, hp.update hf, by rw [hg, update_self]⟩
    · obtain ⟨e, he, hl⟩ := h.path k hk
      exact ⟨e, he.update hf, by rw [update_of_ne (hne hl), hl]⟩
  · have hc : ((range n).filter fun i => (update live s (some key) i).isSome) =
        insert s ((range n).filter fun i => (live i).isSome) := by
      ext i
      by_cases his : i = s <;> simp_all
    rw [hc, card_insert_of_notMem (by simp [hf]), h.card, List.length_cons]

/-- A search finds a held key, else the free slot the key belongs in, else a full table. -/
theorem probe_cases [DecidableEq κ] (hn : 0 < n) (key : κ) :
    key ∈ keys ∧ probe live n key n (home key % n) = .hit ∨
    key ∉ keys ∧ keys.length < n ∧ (∃ s, probe live n key n (home key % n) = .free s ∧
      Holds n home (update live s (some key)) (key :: keys)) ∨
    key ∉ keys ∧ keys.length = n ∧ probe live n key n (home key % n) = .full := by
  obtain ⟨d, hp, ⟨rfl, hr⟩ | ⟨hk, hr⟩ | ⟨hf, hr⟩⟩ := @probe_spec κ n live key _ n (home key)
  · -- every slot of the circle lies on the path
    have hall : ∀ i < d, ∃ k, live i = some k ∧ k ≠ key := by
      intro i hi
      have ho := hp ((i + (d - home key % d)) % d) (Nat.mod_lt _ hn)
      have hm := Nat.mod_lt (home key) hn
      have hc : home key % d + (i + (d - home key % d)) = i + d := by omega
      rwa [Nat.add_mod_mod, ← Nat.mod_add_mod, hc, Nat.add_mod_right, Nat.mod_eq_of_lt hi] at ho
    refine .inr (.inr ⟨?_, ?_, hr⟩)
    · rw [h.mem]
      rintro ⟨i, hi, hk⟩
      obtain ⟨k, hk', hne⟩ := hall i hi
      simp_all
    · refine h.length_le.eq_of_not_lt fun hlt => ?_
      obtain ⟨i, hi, hf⟩ := h.length_lt_iff.mp hlt
      obtain ⟨k, hk, -⟩ := hall i hi
      simp [hf] at hk
  · exact .inl ⟨(h.mem key).mpr ⟨_, Nat.mod_lt _ hn, hk⟩, hr⟩
  · have hs := Nat.mod_lt (home key + d) hn
    exact .inr (.inl ⟨h.not_mem hp hf, h.length_lt_iff.mpr ⟨_, hs, hf⟩, _, hr, h.add hn hp hf⟩)

end Holds

end GossipRs.Lib.Probing
