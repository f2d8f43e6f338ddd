import Mathlib

/-! The two-level bitmap of the timing wheel (`Bitset2` in `timing_wheel.rs`): words of bits, and
above them one bit for each non-zero word. The set-bit counter, which only `any` reads and the wheel
does not call, is left out. -/

namespace GossipRs.Stdx

open List
open Nat (mod_lt)
open BitVec (allOnes getLsbD_and getLsbD_not getLsbD_or getLsbD_zero)

open Function (update_self update_of_ne)

abbrev Word64 := BitVec 64

def trailingZeros (w : Word64) : Nat := ((List.range 64).find? fun i => w.getLsbD i).getD 64

def maskLast (bits : Nat) : Word64 :=
  if bits % 64 = 0 then BitVec.allOnes 64 else (1#64 <<< (bits % 64)) - 1#64

def maskStrictlyAfter (b : Nat) : Word64 :=
  if b = 63 then 0#64 else ~~~((1#64 <<< (b + 1)) - 1#64)

structure Bitset2 where
  bits : Nat
  l0 : Nat → Word64
  l1 : Nat → Word64

namespace Bitset2

def new (bits : Nat) : Bitset2 := ⟨bits, fun _ => 0#64, fun _ => 0#64⟩

def l0Words (b : Bitset2) : Nat := (b.bits + 63) / 64

def l1Words (b : Bitset2) : Nat := (b.l0Words + 63) / 64

def set (b : Bitset2) (bit : Nat) : Bitset2 :=
  let w := bit / 64
  let new := b.l0 w ||| (1#64 <<< (bit % 64))
  if new ≠ b.l0 w then
    { b with
      l0 := Function.update b.l0 w new
      l1 := Function.update b.l1 (w / 64) (b.l1 (w / 64) ||| (1#64 <<< (w % 64))) }
  else b

def clear (b : Bitset2) (bit : Nat) : Bitset2 :=
  let w := bit / 64
  let new := b.l0 w &&& ~~~(1#64 <<< (bit % 64))
  if new ≠ b.l0 w then
    { b with
      l0 := Function.update b.l0 w new
      l1 := if new = 0#64 then
          Function.update b.l1 (w / 64) (b.l1 (w / 64) &&& ~~~(1#64 <<< (w % 64)))
        else b.l1 }
  else b

def l0Masked (b : Bitset2) (w : Nat) : Word64 :=
  if w = b.l0Words - 1 then b.l0 w &&& maskLast b.bits else b.l0 w

def l1Masked (b : Bitset2) (w : Nat) : Word64 :=
  if w = b.l1Words - 1 then b.l1 w &&& maskLast b.l0Words else b.l1 w

def bitOf (b : Bitset2) (w1 : Nat) (s : Word64) : Nat :=
  let word := w1 * 64 + trailingZeros s
  word * 64 + trailingZeros (b.l0Masked word)

/-- `find_next_set_ge`: the next set bit from a position on, without wrapping. -/
def findNextSetGe (b : Bitset2) (start : Nat) : Option Nat :=
  if b.bits = 0 ∨ b.bits ≤ start then none
  else
    let w0 := start / 64
    let w := b.l0Masked w0 &&& (BitVec.allOnes 64 <<< (start % 64))
    if w ≠ 0#64 then some (w0 * 64 + trailingZeros w)
    else
      let w1 := w0 / 64
      let s := b.l1Masked w1 &&& maskStrictlyAfter (w0 % 64)
      if s ≠ 0#64 then some (b.bitOf w1 s)
      else
        ((List.range' (w1 + 1) (b.l1Words - (w1 + 1))).find? fun i =>
          decide (b.l1Masked i ≠ 0#64)).map fun i => b.bitOf i (b.l1Masked i)

def findNextSetCyclic (b : Bitset2) (start : Nat) : Option Nat :=
  (b.findNextSetGe start).or (b.findNextSetGe 0)

/-! ### What the bitmap holds -/

def has (b : Bitset2) (bit : Nat) : Bool := (b.l0 (bit / 64)).getLsbD (bit % 64)

/-- No bit is set past the end, and the upper level marks the words that are not zero. -/
structure Valid (b : Bitset2) : Prop where
  bounded : ∀ bit, b.has bit = true → bit < b.bits
  summary : ∀ w, (b.l1 (w / 64)).getLsbD (w % 64) = true ↔ b.l0 w ≠ 0#64

theorem valid_new (bits : Nat) : (new bits).Valid where
  bounded bit h := by simp [has, new] at h
  summary w := by simp [new]

theorem getLsbD_one_shift (i) (hk : k < 64) : (1#64 <<< k).getLsbD i = decide (i = k) := by
  rw [← BitVec.twoPow_eq, BitVec.getLsbD_twoPow]
  simp [hk, eq_comm]

theorem word_eq_zero_iff {w : Word64} : w = 0#64 ↔ ∀ i < 64, w.getLsbD i = false := by
  constructor
  · intro h i _
    rw [h, getLsbD_zero]
  intro h
  refine BitVec.eq_of_getLsbD_eq fun i hi => ?_
  rw [h i hi, getLsbD_zero]

variable {b : Bitset2} {bit : Nat}

theorem set_bits : (b.set bit).bits = b.bits := by
  rw [set]
  split <;> rfl

theorem clear_bits : (b.clear bit).bits = b.bits := by
  rw [clear]
  split <;> rfl

theorem set_l0 : (b.set bit).l0 =
    Function.update b.l0 (bit / 64) (b.l0 (bit / 64) ||| (1#64 <<< (bit % 64))) := by
  rw [set]
  split
  · rfl
  next h =>
    rw [ne_eq, not_not] at h
    rw [h, Function.update_eq_self]

theorem clear_l0 : (b.clear bit).l0 =
    Function.update b.l0 (bit / 64) (b.l0 (bit / 64) &&& ~~~(1#64 <<< (bit % 64))) := by
  rw [clear]
  split
  · rfl
  next h =>
    rw [ne_eq, not_not] at h
    rw [h, Function.update_eq_self]

theorem has_set (i) : (b.set bit).has i = (decide (i = bit) || b.has i) := by
  rw [has, has, set_l0]
  by_cases hw : i / 64 = bit / 64
  · rw [hw, update_self, getLsbD_or, getLsbD_one_shift _ (mod_lt _ (by decide)), Bool.or_comm]
    have hif : i % 64 = bit % 64 ↔ i = bit := by omega
    rw [decide_eq_decide.mpr hif]
  rw [update_of_ne hw]
  have hn : i ≠ bit := fun h => hw (by rw [h])
  simp [hn]

theorem has_clear (i) : (b.clear bit).has i = (decide (i ≠ bit) && b.has i) := by
  rw [has, has, clear_l0]
  by_cases hw : i / 64 = bit / 64
  · rw [hw, update_self, getLsbD_and, getLsbD_not,
      getLsbD_one_shift _ (mod_lt _ (by decide)), Bool.and_comm]
    have hif : i % 64 = bit % 64 ↔ i = bit := by omega
    have hl : i % 64 < 64 := mod_lt _ (by decide)
    by_cases hi : i = bit
    · simp [hi]
    · simp [hi, hl, mt hif.mp hi]
  rw [update_of_ne hw]
  have hn : i ≠ bit := fun h => hw (by rw [h])
  simp [hn]

theorem l0_ne_zero_iff : b.l0 w ≠ 0#64 ↔ ∃ i < 64, b.has (w * 64 + i) = true := by
  rw [ne_eq, word_eq_zero_iff, not_forall]
  refine exists_congr fun i => ?_
  rw [Classical.not_imp]
  refine and_congr_right fun hi => ?_
  have hd : (w * 64 + i) / 64 = w := by omega
  have hm : (w * 64 + i) % 64 = i := by omega
  rw [has, hd, hm, Bool.not_eq_false]

theorem l0_ne_zero_of_has (h : b.has j = true) : b.l0 (j / 64) ≠ 0#64 := by
  refine l0_ne_zero_iff.mpr ⟨j % 64, mod_lt _ (by decide), ?_⟩
  have : j / 64 * 64 + j % 64 = j := by omega
  rwa [this]

theorem Valid.set (h : b.Valid) (hb : bit < b.bits) : (b.set bit).Valid := by
  refine ⟨fun i hi => ?_, fun v => ?_⟩
  · rw [has_set, Bool.or_eq_true, decide_eq_true_iff] at hi
    rw [set_bits]
    exact hi.elim (fun he => he ▸ hb) (h.bounded i)
  by_cases hn : b.l0 (bit / 64) ||| (1#64 <<< (bit % 64)) = b.l0 (bit / 64)
  · have hs : b.set bit = b := by
      exact if_neg (not_not.mpr hn)
    rw [hs]
    exact h.summary v
  have hl1 : (b.set bit).l1 = Function.update b.l1 (bit / 64 / 64)
      (b.l1 (bit / 64 / 64) ||| (1#64 <<< (bit / 64 % 64))) := by
    rw [Bitset2.set, if_pos hn]
  have hm : ((b.set bit).l1 (v / 64)).getLsbD (v % 64) =
      (decide (v = bit / 64) || (b.l1 (v / 64)).getLsbD (v % 64)) := by
    rw [hl1]
    by_cases hv : v / 64 = bit / 64 / 64
    · rw [hv, update_self, getLsbD_or, getLsbD_one_shift _ (mod_lt _ (by decide)), Bool.or_comm]
      have hif : v % 64 = bit / 64 % 64 ↔ v = bit / 64 := by omega
      rw [decide_eq_decide.mpr hif]
    rw [update_of_ne hv]
    have hne : v ≠ bit / 64 := fun he => hv (by rw [he])
    simp [hne]
  rw [hm, Bool.or_eq_true, decide_eq_true_iff, h.summary, set_l0]
  by_cases hv : v = bit / 64
  · refine ⟨fun _ => ?_, fun _ => .inl hv⟩
    rw [hv, update_self]
    intro hz
    have hb := congrArg (fun w => BitVec.getLsbD w (bit % 64)) hz
    simp only [getLsbD_or, getLsbD_one_shift _ (mod_lt bit (by decide : 0 < 64)),
      getLsbD_zero] at hb
    simp at hb
  · rw [update_of_ne hv]
    exact or_iff_right hv

theorem Valid.clear (h : b.Valid) : (b.clear bit).Valid := by
  refine ⟨fun i hi => ?_, fun v => ?_⟩
  · rw [has_clear, Bool.and_eq_true] at hi
    rw [clear_bits]
    exact h.bounded i hi.2
  by_cases hn : b.l0 (bit / 64) &&& ~~~(1#64 <<< (bit % 64)) = b.l0 (bit / 64)
  · have hs : b.clear bit = b := by
      exact if_neg (not_not.mpr hn)
    rw [hs]
    exact h.summary v
  have hl1 : (b.clear bit).l1 =
      if b.l0 (bit / 64) &&& ~~~(1#64 <<< (bit % 64)) = 0#64 then
        Function.update b.l1 (bit / 64 / 64)
          (b.l1 (bit / 64 / 64) &&& ~~~(1#64 <<< (bit / 64 % 64)))
      else b.l1 := by
    rw [Bitset2.clear, if_pos hn]
  rw [hl1, clear_l0]
  by_cases hz : b.l0 (bit / 64) &&& ~~~(1#64 <<< (bit % 64)) = 0#64
  · rw [if_pos hz, hz]
    by_cases hv : v / 64 = bit / 64 / 64
    · rw [hv, update_self, getLsbD_and, getLsbD_not, getLsbD_one_shift _ (mod_lt _ (by decide))]
      by_cases hvw : v = bit / 64
      · simp [hvw]
      have hne : v % 64 ≠ bit / 64 % 64 := by omega
      have hl : v % 64 < 64 := mod_lt _ (by decide)
      rw [update_of_ne hvw, ← hv, ← h.summary]
      simp [hne, hl]
    have hvw : v ≠ bit / 64 := fun he => hv (by rw [he])
    rw [update_of_ne hv, update_of_ne hvw]
    exact h.summary v
  · rw [if_neg hz]
    by_cases hvw : v = bit / 64
    · -- the word keeps another bit
      rw [hvw, update_self]
      refine ⟨fun _ => hz, fun _ => (h.summary _).mpr fun ho => hz ?_⟩
      rw [ho, BitVec.zero_and]
    · rw [update_of_ne hvw]
      exact h.summary v

/-! ### Searching -/

theorem getLsbD_low_mask : ∀ rem < 64, ∀ i < 64,
    ((1#64 <<< rem) - 1#64).getLsbD i = decide (i < rem) := by
  decide +kernel

theorem getLsbD_maskLast {bits} (hi : i < 64) :
    (maskLast bits).getLsbD i = decide (bits % 64 = 0 ∨ i < bits % 64) := by
  rw [maskLast]
  split
  next hr =>
    rw [BitVec.getLsbD_allOnes]
    simp only [hi, hr, true_or]
  next hr =>
    rw [getLsbD_low_mask _ (mod_lt _ (by decide)) i hi]
    simp [hr]

theorem getLsbD_maskStrictlyAfter (hk : k < 64) (hi : i < 64) :
    (maskStrictlyAfter k).getLsbD i = decide (k < i) := by
  rw [maskStrictlyAfter]
  split
  · have : ¬ k < i := by omega
    simp [this]
  rw [getLsbD_not, getLsbD_low_mask _ (by omega) i hi]
  by_cases hki : k < i
  · have : ¬ i < k + 1 := by omega
    simp [hi, hki, this]
  · have : i < k + 1 := by omega
    simp [hki, this]

theorem trailingZeros_spec {w : Word64} (h : w ≠ 0#64) :
    trailingZeros w < 64 ∧ w.getLsbD (trailingZeros w) = true ∧
      ∀ i, w.getLsbD i = true → trailingZeros w ≤ i := by
  rw [ne_eq, word_eq_zero_iff, not_forall] at h
  obtain ⟨i0, h⟩ := h
  rw [Classical.not_imp, Bool.not_eq_false] at h
  rw [trailingZeros]
  cases hf : (List.range 64).find? fun i => w.getLsbD i with
  | none =>
    have := List.find?_eq_none.mp hf i0 (mem_range.mpr h.1)
    exact absurd h.2 this
  | some t =>
    obtain ⟨ht, hm, hb⟩ := List.find?_range_eq_some.mp hf
    refine ⟨mem_range.mp hm, ht, fun i hi => ?_⟩
    by_contra hlt
    have hn := hb i (Nat.not_le.mp hlt)
    simp [hi] at hn

theorem and_maskLast_eq {x : BitVec 64}
    (h : ∀ i < 64, x.getLsbD i = true → n % 64 = 0 ∨ i < n % 64) : x &&& maskLast n = x := by
  refine BitVec.eq_of_getLsbD_eq fun i hi => ?_
  rw [getLsbD_and, getLsbD_maskLast hi]
  cases hb : x.getLsbD i with
  | false => rfl
  | true => simp [h i hi hb]

theorem Valid.l0Masked_eq (h : b.Valid) (w : Nat) : b.l0Masked w = b.l0 w := by
  rw [l0Masked]
  split
  next hw =>
    refine and_maskLast_eq fun i hi hb => ?_
    have hd : (w * 64 + i) / 64 = w := by omega
    have hm : (w * 64 + i) % 64 = i := by omega
    have hl := h.bounded (w * 64 + i) (by rw [has, hd, hm, hb])
    rw [l0Words] at hw
    omega
  · rfl

theorem Valid.l0_lt (h : b.Valid) (hw : b.l0 w ≠ 0#64) : w < b.l0Words := by
  obtain ⟨_, _, hh⟩ := l0_ne_zero_iff.mp hw
  have := h.bounded _ hh
  rw [l0Words]
  omega

theorem Valid.l1Masked_eq (h : b.Valid) (w : Nat) : b.l1Masked w = b.l1 w := by
  rw [l1Masked]
  split
  next hw =>
    refine and_maskLast_eq fun i hi hb => ?_
    have hd : (w * 64 + i) / 64 = w := by omega
    have hm : (w * 64 + i) % 64 = i := by omega
    have hl := h.l0_lt ((h.summary (w * 64 + i)).mp (by rw [hd, hm, hb]))
    rw [l1Words] at hw
    omega
  · rfl

def NextFrom (b : Bitset2) (start i : Nat) : Prop :=
  b.has i = true ∧ start ≤ i ∧ ∀ j, b.has j = true → start ≤ j → i ≤ j

/-- When every candidate lies in a word or after it, the word's first bit is the next one. -/
theorem Valid.nextFrom_word (h : b.Valid) (hw : b.l0 w ≠ 0#64) (hs : start ≤ w * 64)
    (hl : ∀ j, b.has j = true → start ≤ j → w ≤ j / 64) :
    b.NextFrom start (w * 64 + trailingZeros (b.l0Masked w)) := by
  rw [h.l0Masked_eq]
  obtain ⟨_, hse, hm⟩ := trailingZeros_spec hw
  refine ⟨?_, by omega, fun j hj hsj => ?_⟩
  · have hd : (w * 64 + trailingZeros (b.l0 w)) / 64 = w := by omega
    have hmo : (w * 64 + trailingZeros (b.l0 w)) % 64 = trailingZeros (b.l0 w) := by omega
    rw [has, hd, hmo, hse]
  have hle := hl j hj hsj
  by_cases he : j / 64 = w
  · have := hm (j % 64) (by rw [← he]; exact hj)
    omega
  · omega

/-- A word of the upper level names the first word that is not zero among its own. -/
theorem Valid.nextFrom_bitOf (h : b.Valid) {s : Word64} (hs : s ≠ 0#64)
    (hm : ∀ i < 64, s.getLsbD i = true ↔ b.l0 (w1 * 64 + i) ≠ 0#64 ∧ w0 < w1 * 64 + i)
    (hst : start / 64 = w0) (hw : ∀ j, b.has j = true → start ≤ j → w0 < j / 64)
    (hbl : ∀ j, b.has j = true → start ≤ j → w1 ≤ j / 64 / 64) :
    b.NextFrom start (b.bitOf w1 s) := by
  obtain ⟨hl, hse, hmi⟩ := trailingZeros_spec hs
  obtain ⟨hn, _⟩ := (hm _ hl).mp hse
  refine h.nextFrom_word hn (by omega) fun j hj hsj => ?_
  have hb := hbl j hj hsj
  by_cases he : j / 64 / 64 = w1
  · have hsp : w1 * 64 + j / 64 % 64 = j / 64 := by omega
    have hj0 := l0_ne_zero_of_has hj
    have := hmi (j / 64 % 64) ((hm _ (mod_lt _ (by decide))).mpr
      ⟨by rwa [hsp], by rw [hsp]; exact hw j hj hsj⟩)
    omega
  · omega

theorem Valid.getLsbD_l0From (h : b.Valid) (start) (hi : i < 64) :
    (b.l0Masked (start / 64) &&& (allOnes 64 <<< (start % 64))).getLsbD i = true ↔
      b.has (start / 64 * 64 + i) = true ∧ start % 64 ≤ i := by
  have hd : (start / 64 * 64 + i) / 64 = start / 64 := by omega
  have hmo : (start / 64 * 64 + i) % 64 = i := by omega
  rw [h.l0Masked_eq, has, hd, hmo, getLsbD_and, BitVec.getLsbD_shiftLeft, BitVec.getLsbD_allOnes]
  have : i - start % 64 < 64 := by omega
  simp [hi, this]

theorem Valid.getLsbD_l1Masked (h : b.Valid) (w) (hi : i < 64) :
    (b.l1Masked w).getLsbD i = true ↔ b.l0 (w * 64 + i) ≠ 0#64 := by
  have hd : (w * 64 + i) / 64 = w := by omega
  have hmo : (w * 64 + i) % 64 = i := by omega
  have := h.summary (w * 64 + i)
  rwa [hd, hmo, ← h.l1Masked_eq] at this

theorem Valid.l1Masked_ne_zero (h : b.Valid) (hj : b.has j = true) :
    b.l1Masked (j / 64 / 64) ≠ 0#64 := by
  intro hz
  have hj' : j / 64 / 64 * 64 + j / 64 % 64 = j / 64 := by omega
  have hbi := (h.getLsbD_l1Masked (j / 64 / 64) (mod_lt (j / 64) (by decide))).mpr
    (by rw [hj']; exact l0_ne_zero_of_has hj)
  rw [hz, getLsbD_zero] at hbi
  cases hbi

theorem Valid.getLsbD_l1After (h : b.Valid) (start) (hi : i < 64) :
    (b.l1Masked (start / 64 / 64) &&& maskStrictlyAfter (start / 64 % 64)).getLsbD i = true ↔
      b.l0 (start / 64 / 64 * 64 + i) ≠ 0#64 ∧ start / 64 < start / 64 / 64 * 64 + i := by
  rw [getLsbD_and, Bool.and_eq_true, h.getLsbD_l1Masked _ hi,
    getLsbD_maskStrictlyAfter (mod_lt _ (by decide)) hi, decide_eq_true_iff]
  have : start / 64 % 64 < i ↔ start / 64 < start / 64 / 64 * 64 + i := by omega
  rw [this]

theorem findNextSetGe_spec (h : b.Valid) (start : Nat) :
    (∀ i, b.findNextSetGe start = some i → b.NextFrom start i) ∧
      (b.findNextSetGe start = none → ∀ j, b.has j = true → j < start) := by
  rw [findNextSetGe]
  by_cases he : b.bits = 0 ∨ b.bits ≤ start
  · rw [if_pos he]
    refine ⟨fun i hi => (by cases hi), fun _ j hj => ?_⟩
    have := h.bounded j hj
    omega
  rw [if_neg he]
  have hf := fun i (hi : i < 64) => h.getLsbD_l0From start hi
  by_cases hw : b.l0Masked (start / 64) &&& (allOnes 64 <<< (start % 64)) ≠ 0#64
  · rw [if_pos hw]
    refine ⟨fun i hi => ?_, fun hn => by cases hn⟩
    obtain rfl := Option.some.inj hi
    obtain ⟨hlt, hset, hmi⟩ := trailingZeros_spec hw
    obtain ⟨hh, _⟩ := (hf _ hlt).mp hset
    refine ⟨hh, by omega, fun j hj hsj => ?_⟩
    by_cases heq : j / 64 = start / 64
    · have hj' : start / 64 * 64 + j % 64 = j := by omega
      have := hmi (j % 64) ((hf _ (mod_lt _ (by decide))).mpr ⟨by rwa [hj'], by omega⟩)
      omega
    · omega
  rw [if_neg hw]
  -- no candidate is left in the first word
  have hwo : ∀ j, b.has j = true → start ≤ j → start / 64 < j / 64 := by
    intro j hj hsj
    by_contra hle
    have hj' : start / 64 * 64 + j % 64 = j := by omega
    have hbi := (hf (j % 64) (mod_lt _ (by decide))).mpr ⟨by rwa [hj'], by omega⟩
    rw [not_not.mp hw, getLsbD_zero] at hbi
    cases hbi
  have hse := fun i (hi : i < 64) => h.getLsbD_l1After start hi
  by_cases hs : b.l1Masked (start / 64 / 64) &&& maskStrictlyAfter (start / 64 % 64) ≠ 0#64
  · rw [if_pos hs]
    refine ⟨fun i hi => ?_, fun hn => by cases hn⟩
    obtain rfl := Option.some.inj hi
    refine h.nextFrom_bitOf hs hse rfl hwo fun j hj hsj => ?_
    have := hwo j hj hsj
    omega
  rw [if_neg hs]
  -- nor in the words under the same word of the upper level
  have hb : ∀ j, b.has j = true → start ≤ j → start / 64 / 64 < j / 64 / 64 := by
    intro j hj hsj
    have hlt := hwo j hj hsj
    by_contra hle
    have hj' : start / 64 / 64 * 64 + j / 64 % 64 = j / 64 := by omega
    have hbi := (hse (j / 64 % 64) (mod_lt _ (by decide))).mpr
      ⟨by rw [hj']; exact l0_ne_zero_of_has hj, by rwa [hj']⟩
    rw [not_not.mp hs, getLsbD_zero] at hbi
    cases hbi
  have hr : ∀ j, b.has j = true → start ≤ j → j / 64 / 64 ∈
      range' (start / 64 / 64 + 1) (b.l1Words - (start / 64 / 64 + 1)) := by
    intro j hj hsj
    have hlt := hb j hj hsj
    have hin := h.l0_lt (l0_ne_zero_of_has hj)
    have hi1 : j / 64 / 64 < b.l1Words := by
      rw [l1Words]
      omega
    rw [mem_range'_1]
    omega
  cases hfi : (range' (start / 64 / 64 + 1) (b.l1Words - (start / 64 / 64 + 1))).find?
      fun i => decide (b.l1Masked i ≠ 0#64) with
  | none =>
    refine ⟨fun i hi => (by cases hi), fun _ j hj => ?_⟩
    by_contra hsj
    have := List.find?_eq_none.mp hfi _ (hr j hj (by omega))
    exact this (decide_eq_true (h.l1Masked_ne_zero hj))
  | some w1 =>
    refine ⟨fun i hi => ?_, fun hn => by cases hn⟩
    obtain rfl := Option.some.inj hi
    obtain ⟨hw1, hme, hbe⟩ := List.find?_range'_eq_some.mp hfi
    have hl : start / 64 / 64 + 1 ≤ w1 := (mem_range'_1.mp hme).1
    refine h.nextFrom_bitOf (of_decide_eq_true hw1) (fun i hi => ?_) rfl hwo fun j hj hsj => ?_
    · rw [h.getLsbD_l1Masked w1 hi]
      exact ⟨fun hbi => ⟨hbi, by omega⟩, fun hbi => hbi.1⟩
    by_contra hlt
    have hno := hbe (j / 64 / 64) (by have := hb j hj hsj; omega) (by omega)
    simp [h.l1Masked_ne_zero hj] at hno

theorem findNextSetCyclic_spec (h : b.Valid) (start : Nat) :
    (∀ i, b.findNextSetCyclic start = some i → b.NextFrom start i ∨
      (b.NextFrom 0 i ∧ ∀ j, b.has j = true → j < start)) ∧
      (b.findNextSetCyclic start = none → ∀ j, b.has j = false) := by
  rw [findNextSetCyclic]
  have hg := findNextSetGe_spec h start
  have hz := findNextSetGe_spec h 0
  cases hf : b.findNextSetGe start with
  | some i =>
    refine ⟨fun i' hi => .inl ?_, fun hn => by cases hn⟩
    obtain rfl := Option.some.inj hi
    exact hg.1 i hf
  | none =>
    refine ⟨fun i hi => .inr ⟨hz.1 i hi, hg.2 hf⟩, fun hn j => ?_⟩
    rw [Bool.eq_false_iff]
    exact fun hj => Nat.not_lt_zero _ (hz.2 hn j hj)

end Bitset2

end GossipRs.Stdx
