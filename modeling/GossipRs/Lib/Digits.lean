import Mathlib

/-! Fixed-width numerals, most significant digit first, and the lexicographic order on lists of one
length. Numerals of one width sort as numbers, and blocks of fixed width are compared one after the
other. -/

namespace GossipRs.Lib

open List

variable {α β : Type}

theorem append_prefix_append {a a' x y : List α} (h : a.length = a'.length) :
    a ++ x <+: a' ++ y ↔ a = a' ∧ x <+: y := by
  constructor
  · rintro ⟨rest, he⟩
    rw [append_assoc] at he
    obtain ⟨rfl, ht⟩ := append_inj he h
    exact ⟨rfl, rest, ht⟩
  · rintro ⟨rfl, hx⟩
    exact (prefix_append_right_inj a).mpr hx

theorem append_lt_append_iff [LinearOrder α] {a a' x y : List α} (h : a.length = a'.length) :
    a ++ x < a' ++ y ↔ a < a' ∨ a = a' ∧ x < y := by
  induction a generalizing a' with
  | nil =>
    obtain rfl : a' = [] := length_eq_zero_iff.mp h.symm
    simp
  | cons c rest ih =>
    cases a' with
    | nil => cases h
    | cons d rest' =>
      have hl : rest.length = rest'.length := by simpa using h
      rw [cons_append, cons_append, cons_lt_cons_iff, cons_lt_cons_iff, ih hl, List.cons.injEq]
      tauto

theorem map_lt_map_iff [LinearOrder α] [LinearOrder β] {f : α → β} {a b : List α}
    (h : ∀ x ∈ a, ∀ y ∈ b, (f x < f y ↔ x < y) ∧ (f x = f y ↔ x = y)) :
    a.map f < b.map f ↔ a < b := by
  induction a generalizing b with
  | nil => cases b <;> simp
  | cons c rest ih =>
    cases b with
    | nil => simp
    | cons d rest' =>
      have hh := h c mem_cons_self d mem_cons_self
      have hr := ih (b := rest') fun x hx y hy =>
        h x (mem_cons_of_mem _ hx) y (mem_cons_of_mem _ hy)
      rw [map_cons, map_cons, cons_lt_cons_iff, cons_lt_cons_iff, hh.1, hh.2, hr]

/-- The `width` last digits of `n`, most significant first. -/
def beDigits (base : Nat) : Nat → Nat → List Nat
  | 0, _ => []
  | width + 1, n => beDigits base width (n / base) ++ [n % base]

def ofBeDigits (base : Nat) (digits : List Nat) : Nat :=
  digits.foldl (fun acc d => acc * base + d) 0

@[simp] theorem length_beDigits (base width n : Nat) : (beDigits base width n).length = width := by
  induction width generalizing n with
  | zero => rfl
  | succ width ih => simp [beDigits, ih]

theorem mem_beDigits_lt (hb : 0 < base) (h : d ∈ beDigits base width n) : d < base := by
  induction width generalizing n with
  | zero => cases h
  | succ width ih =>
    rcases mem_append.mp h with h | h
    · exact ih h
    · rw [mem_singleton.mp h]
      exact Nat.mod_lt _ hb

theorem ofBeDigits_beDigits (h : n < base ^ width) :
    ofBeDigits base (beDigits base width n) = n := by
  induction width generalizing n with
  | zero =>
    rw [Nat.pow_zero] at h
    show 0 = n
    omega
  | succ width ih =>
    have hb : 0 < base := Nat.pos_of_ne_zero fun h0 => by simp [h0] at h
    have hd : n / base < base ^ width := by
      rw [Nat.div_lt_iff_lt_mul hb, ← Nat.pow_succ]
      exact h
    show foldl _ 0 (beDigits base width (n / base) ++ [n % base]) = n
    rw [foldl_append]
    show ofBeDigits base (beDigits base width (n / base)) * base + n % base = n
    rw [ih hd]
    exact Nat.div_add_mod' n base

theorem beDigits_inj (hn : n < base ^ width) (hm : m < base ^ width) :
    beDigits base width n = beDigits base width m ↔ n = m := by
  refine ⟨fun h => ?_, fun h => by rw [h]⟩
  rw [← ofBeDigits_beDigits hn, h, ofBeDigits_beDigits hm]

theorem beDigits_lt_iff (hn : n < base ^ width) (hm : m < base ^ width) :
    beDigits base width n < beDigits base width m ↔ n < m := by
  induction width generalizing n m with
  | zero =>
    rw [Nat.pow_zero] at hn hm
    have hno : ¬ n < m := by omega
    simp [beDigits, hno]
  | succ width ih =>
    have hb : 0 < base := Nat.pos_of_ne_zero fun h0 => by simp [h0] at hn
    have hd : n / base < base ^ width := by
      rw [Nat.div_lt_iff_lt_mul hb, ← Nat.pow_succ]
      exact hn
    have hdm : m / base < base ^ width := by
      rw [Nat.div_lt_iff_lt_mul hb, ← Nat.pow_succ]
      exact hm
    show beDigits base width (n / base) ++ [n % base] < beDigits base width (m / base) ++
      [m % base] ↔ _
    rw [append_lt_append_iff (by simp), ih hd hdm, beDigits_inj hd hdm, cons_lt_cons_iff]
    simp only [not_lt_nil, and_false, or_false]
    have hn' := Nat.div_add_mod n base
    have hm' := Nat.div_add_mod m base
    constructor
    · rintro (hl | ⟨he, hl⟩)
      · by_contra hnot
        exact absurd (Nat.div_le_div_right (not_lt.mp hnot)) (not_le.mpr hl)
      · rw [he] at hn'
        omega
    intro hl
    rcases Nat.lt_or_eq_of_le (Nat.div_le_div_right hl.le : n / base ≤ m / base) with h | h
    · exact .inl h
    · rw [h] at hn'
      exact .inr ⟨h, by omega⟩

theorem flatMap_beDigits_square (width n : Nat) :
    (beDigits (base * base) width n).flatMap (fun d => [d / base, d % base]) =
      beDigits base (2 * width) n := by
  induction width generalizing n with
  | zero => rfl
  | succ width ih =>
    show ((beDigits (base * base) width (n / (base * base))) ++ [n % (base * base)]).flatMap _ =
      beDigits base (2 * width + 1 + 1) n
    rw [flatMap_append, ih]
    simp only [beDigits, flatMap_cons, flatMap_nil, append_nil, append_assoc,
      cons_append, nil_append, Nat.div_div_eq_div_mul, Nat.mod_mul_right_div_self,
      Nat.mod_mul_right_mod]

/-- Digits are recovered from the number they stand for, by induction from the last one. -/
theorem beDigits_ofBeDigits (digits : List Nat) (h : ∀ d ∈ digits, d < base) :
    beDigits base digits.length (ofBeDigits base digits) = digits := by
  induction digits using reverseRecOn with
  | nil => rfl
  | append_singleton digits d ih =>
    have hd : d < base := h d (by simp)
    have hn : ofBeDigits base (digits ++ [d]) = ofBeDigits base digits * base + d := by
      simp [ofBeDigits, foldl_append]
    have hdi : (ofBeDigits base digits * base + d) / base = ofBeDigits base digits := by
      rw [Nat.add_comm, Nat.add_mul_div_right _ _ (by omega), Nat.div_eq_of_lt hd, Nat.zero_add]
    have hm : (ofBeDigits base digits * base + d) % base = d := by
      rw [Nat.add_comm, Nat.add_mul_mod_self_right, Nat.mod_eq_of_lt hd]
    rw [length_append, length_singleton, beDigits, hn, hdi, hm,
      ih fun e he => h e (mem_append_left _ he)]

theorem ofBeDigits_lt (digits : List Nat) (h : ∀ d ∈ digits, d < base) :
    ofBeDigits base digits < base ^ digits.length := by
  induction digits using reverseRecOn with
  | nil => simp [ofBeDigits]
  | append_singleton digits d ih =>
    have hd : d < base := h d (by simp)
    have hn : ofBeDigits base (digits ++ [d]) = ofBeDigits base digits * base + d := by
      simp [ofBeDigits, foldl_append]
    have hr := ih fun e he => h e (mem_append_left _ he)
    rw [hn, length_append, length_singleton, Nat.pow_succ]
    calc ofBeDigits base digits * base + d < ofBeDigits base digits * base + base := by omega
      _ = (ofBeDigits base digits + 1) * base := by ring
      _ ≤ base ^ digits.length * base := Nat.mul_le_mul_right base hr

end GossipRs.Lib
