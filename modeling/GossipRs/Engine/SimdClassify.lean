import GossipRs.Lib.Word

/-! Byte classification by vectors (`simd_classify.rs`). The three counted classes are one
parameter. The NEON and SSE2 loops differ in how a lane tests a range and in how sixteen lanes are
summed; intrinsics work lane by lane. A load outside the window and an overflow end the model with
`none`. -/

namespace GossipRs.Engine.SimdClassify

open Lib List
open Function (update)

structure CharClassProfile where
  upper : Nat
  lower : Nat
  digit : Nat
  special : Nat

inductive Class where
  | lower
  | upper
  | digit
deriving DecidableEq

def byClass {α : Type} (lower upper digit : α) : Class → α
  | .lower => lower
  | .upper => upper
  | .digit => digit

/-- The arms of the scalar `match`. -/
def classOf (b : UInt8) : Option Class :=
  if 97 ≤ b ∧ b ≤ 122 then some .lower
  else if 65 ≤ b ∧ b ≤ 90 then some .upper
  else if 48 ≤ b ∧ b ≤ 57 then some .digit
  else none

abbrev Totals := Class → Nat

def tally (total : Totals) (b : UInt8) : Option Totals :=
  match classOf b with
  | some c => if total c + 1 < 2 ^ 32 then some (update total c (total c + 1)) else none
  | none => some total

def profile (total : Totals) (len : Nat) : CharClassProfile where
  lower := total .lower
  upper := total .upper
  digit := total .digit
  special := len - total .lower - total .upper - total .digit

def classifyWindowScalar (window : Bytes) : Option CharClassProfile := do
  let total ← window.foldlM tally fun _ => 0
  return profile total window.length

/-- What one instruction set does: the range mask of a lane and the sum of sixteen lanes. -/
structure Isa where
  mask : Class → UInt8 → UInt8
  hsum : Bytes → Nat

/-- `vcltq_u8(vsubq_u8(v, base), width)` in one lane. -/
def neonRange (base width b : UInt8) : UInt8 := if b - base < width then 0xFF else 0

/-- `_mm_cmpgt_epi8` in one lane. -/
def cmpgtEpi8 (a b : UInt8) : UInt8 := if b.toBitVec.slt a.toBitVec then 0xFF else 0

def sse2Range (lo hi b : UInt8) : UInt8 := cmpgtEpi8 b lo &&& cmpgtEpi8 hi b

def laneSum (v : Bytes) : Nat := (v.map UInt8.toNat).sum

/-- `hsum_epu8`: the two halves of `_mm_sad_epu8`, added as 32-bit integers. -/
def hsumEpu8 (v : Bytes) : Nat :=
  (laneSum (v.take 8) % 2 ^ 16 + laneSum (v.drop 8) % 2 ^ 16) % 2 ^ 32

/-- NEON, with `vaddlvq_u8` as the sum. -/
def neon : Isa where
  mask := byClass (neonRange 97 26) (neonRange 65 26) (neonRange 48 10)
  hsum v := laneSum v % 2 ^ 16

def sse2 : Isa where
  mask := byClass (sse2Range 0x60 0x7B) (sse2Range 0x40 0x5B) (sse2Range 0x2F 0x3A)
  hsum := hsumEpu8

structure State where
  i : Nat
  chunksInEpoch : Nat
  acc : Class → Bytes
  total : Totals

def zeroLanes : Bytes := replicate 16 0

def load (bytes : Bytes) (i : Nat) : Option Bytes :=
  if i + 16 ≤ bytes.length then some ((bytes.drop i).take 16) else none

/-- `acc - mask`, which adds one in each lane that matches, where no lane wraps. -/
def accumulate (acc mask : Bytes) : Option Bytes :=
  if (acc.zip mask).any fun (a, m) => a = 255 && m ≠ 0 then none
  else some (zipWith (· - ·) acc mask)

def flush (isa : Isa) (s : State) : Option Totals :=
  if ∀ c ∈ [Class.lower, .upper, .digit], s.total c + isa.hsum (s.acc c) < 2 ^ 32 then
    some fun c => s.total c + isa.hsum (s.acc c)
  else none

def block (isa : Isa) (bytes : Bytes) (s : State) : Option State := do
  let v ← load bytes s.i
  let lower ← accumulate (s.acc .lower) (v.map (isa.mask .lower))
  let upper ← accumulate (s.acc .upper) (v.map (isa.mask .upper))
  let digit ← accumulate (s.acc .digit) (v.map (isa.mask .digit))
  let s := ⟨s.i + 16, s.chunksInEpoch + 1, byClass lower upper digit, s.total⟩
  if s.chunksInEpoch = 255 then return ⟨s.i, 0, fun _ => zeroLanes, ← flush isa s⟩
  else return s

/-- The block loop. It has fuel for more rounds than the window has bytes. -/
def loop (isa : Isa) (bytes : Bytes) : Nat → State → Option State
  | 0, _ => none
  | fuel + 1, s =>
    if s.i + 16 ≤ bytes.length then block isa bytes s >>= loop isa bytes fuel else some s

def classifyWindow (isa : Isa) (bytes : Bytes) : Option CharClassProfile := do
  let s ← loop isa bytes (bytes.length + 1) ⟨0, 0, fun _ => zeroLanes, fun _ => 0⟩
  let total ← (bytes.drop s.i).foldlM tally (← flush isa s)
  return profile total bytes.length

def classifyWindowNeon : Bytes → Option CharClassProfile := classifyWindow neon

def classifyWindowSse2 : Bytes → Option CharClassProfile := classifyWindow sse2

/-! ### The instruction sets -/

/-- The masks are those of the classes, and the sum of sixteen lanes is exact. -/
structure Isa.Exact (isa : Isa) : Prop where
  mask : ∀ c b, isa.mask c b = if classOf b = some c then 0xFF else 0
  hsum : ∀ v : Bytes, v.length = 16 → isa.hsum v = laneSum v

theorem laneSum_le (v : Bytes) : laneSum v ≤ v.length * 255 := by
  have h := sum_le_card_nsmul (v.map UInt8.toNat) 255 (by
    simp only [mem_map]
    rintro _ ⟨b, -, rfl⟩
    have := b.toNat_lt
    omega)
  simpa [laneSum] using h

theorem neon_exact : neon.Exact where
  mask c := by cases c <;> decide +kernel
  hsum v hv := by
    have := laneSum_le v
    exact Nat.mod_eq_of_lt (by omega)

theorem sse2_exact : sse2.Exact where
  mask c := by cases c <;> decide +kernel
  hsum v hv := by
    have h1 := laneSum_le (v.take 8)
    have h2 := laneSum_le (v.drop 8)
    have hs : laneSum (v.take 8) + laneSum (v.drop 8) = laneSum v := by
      simp only [laneSum, ← sum_append, ← map_append, take_append_drop]
    simp only [length_take, length_drop, hv] at h1 h2
    simp only [sse2, hsumEpu8]
    omega

/-! ### The blocks -/

variable {c : Class} {acc v seen bytes : Bytes} {chunks : Nat} {isa : Isa} {s : State}

def count (c : Class) (seen : Bytes) : Nat := seen.countP fun b => classOf b = some c

/-- One class after some blocks: no lane is ahead of the blocks of its epoch. -/
structure Counted (c : Class) (acc : Bytes) (total chunks : Nat) (seen : Bytes) : Prop where
  length : acc.length = 16
  lane : ∀ a ∈ acc, a.toNat ≤ chunks
  sum : total + laneSum acc = count c seen

theorem accumulate_lanes (hx : isa.Exact) (hc : chunks < 255) (hl : ∀ a ∈ acc, a.toNat ≤ chunks)
    (hv : acc.length = v.length) :
    (∀ a ∈ zipWith (· - ·) acc (v.map (isa.mask c)), a.toNat ≤ chunks + 1) ∧
    laneSum (zipWith (· - ·) acc (v.map (isa.mask c))) = laneSum acc + count c v := by
  induction acc generalizing v with
  | nil =>
    obtain rfl := length_eq_zero_iff.mp hv.symm
    simp [laneSum, count]
  | cons a acc ih =>
    obtain ⟨b, v, rfl⟩ := exists_cons_of_length_eq_add_one hv.symm
    obtain ⟨hle, hsum⟩ := ih (fun a ha => hl a (mem_cons_of_mem _ ha)) (by simpa using hv)
    have ha := hl a mem_cons_self
    have hstep : (a - isa.mask c b).toNat = a.toNat + if classOf b = some c then 1 else 0 := by
      rw [hx.mask, UInt8.toNat_sub]
      split_ifs <;> simp
      omega
    simp only [laneSum, count, map_cons, zipWith_cons_cons, sum_cons, countP_cons, mem_cons,
      decide_eq_true_eq] at hsum ⊢
    refine ⟨?_, by omega⟩
    rintro _ (rfl | hx)
    · split_ifs at hstep <;> omega
    · exact hle _ hx

theorem Counted.accumulate {total : Nat} (h : Counted c acc total chunks seen) (hx : isa.Exact)
    (hc : chunks < 255) (hv : v.length = 16) :
    ∃ acc', accumulate acc (v.map (isa.mask c)) = some acc' ∧
      Counted c acc' total (chunks + 1) (seen ++ v) := by
  have hlen := h.length
  obtain ⟨hle, hsum⟩ := accumulate_lanes hx hc h.lane (h.length.trans hv.symm)
  refine ⟨_, if_neg ?_, by simp [hlen, hv], hle, ?_⟩
  · simp only [any_eq_true, not_exists, not_and]
    rintro ⟨a, m⟩ ha
    have hne : a ≠ 255 := by
      rintro rfl
      exact absurd (h.lane 255 (of_mem_zip ha).1) (by simpa using hc)
    simp [hne]
  · have := h.sum
    simp only [count, countP_append] at hsum this ⊢
    omega

def Counts (s : State) (seen : Bytes) : Prop :=
  ∀ c, Counted c (s.acc c) (s.total c) s.chunksInEpoch seen

theorem counts_zero (i : Nat) (seen : Bytes) :
    Counts ⟨i, 0, fun _ => zeroLanes, (count · seen)⟩ seen :=
  fun _ => ⟨rfl, by simp [zeroLanes], rfl⟩

theorem Counts.flush_eq (h : Counts s seen) (hx : isa.Exact) (hs : seen.length < 2 ^ 32) :
    flush isa s = some (count · seen) := by
  have he : ∀ c, s.total c + isa.hsum (s.acc c) = count c seen := fun c => by
    rw [hx.hsum _ (h c).length, (h c).sum]
  simp only [flush, he]
  exact if_pos fun c _ => countP_le_length.trans_lt hs

theorem block_eq (hc : s.chunksInEpoch < 255) (h : Counts s (bytes.take s.i)) (hx : isa.Exact)
    (hs : bytes.length < 2 ^ 32) (hi : s.i + 16 ≤ bytes.length) :
    ∃ s', block isa bytes s = some s' ∧ s'.i = s.i + 16 ∧ s'.chunksInEpoch < 255 ∧
      Counts s' (bytes.take s'.i) := by
  have hv : ((bytes.drop s.i).take 16).length = 16 := by
    rw [length_take, length_drop]
    omega
  obtain ⟨lower, hlo, hlower⟩ := (h .lower).accumulate hx hc hv
  obtain ⟨upper, hup, hupper⟩ := (h .upper).accumulate hx hc hv
  obtain ⟨digit, hdi, hdigit⟩ := (h .digit).accumulate hx hc hv
  rw [← take_add] at hlower hupper hdigit
  simp only [block, load, if_pos hi, hlo, hup, hdi, Option.bind_eq_bind, Option.bind_some]
  have hs' : Counts ⟨s.i + 16, s.chunksInEpoch + 1, byClass lower upper digit, s.total⟩
      (bytes.take (s.i + 16)) := by
    rintro (_ | _ | _)
    exacts [hlower, hupper, hdigit]
  split_ifs with he
  · rw [hs'.flush_eq hx (by rw [length_take]; omega)]
    exact ⟨_, rfl, rfl, by simp, counts_zero _ _⟩
  · exact ⟨_, rfl, rfl, by simp only; omega, hs'⟩

theorem loop_eq (hx : isa.Exact) (hs : bytes.length < 2 ^ 32) (fuel : Nat) (s : State)
    (hi : s.i ≤ bytes.length) (hf : bytes.length < s.i + fuel) (hc : s.chunksInEpoch < 255)
    (h : Counts s (bytes.take s.i)) :
    ∃ s', loop isa bytes fuel s = some s' ∧ Counts s' (bytes.take s'.i) := by
  induction fuel generalizing s with
  | zero => omega
  | succ fuel ih =>
    rw [loop]
    split_ifs with hi
    · obtain ⟨s', hb, hi', hc', h'⟩ := block_eq hc h hx hs hi
      obtain ⟨r, hr, h'⟩ := ih s' (by omega) (by omega) hc' h'
      exact ⟨r, by simp [hb, hr], h'⟩
    · exact ⟨s, rfl, h⟩

/-! ### The scalar loop and the windows -/

theorem tally_eq (b : UInt8) (hs : seen.length + 1 < 2 ^ 32) :
    tally (count · seen) b = some (count · (seen ++ [b])) := by
  unfold tally
  cases hb : classOf b with
  | none => simp [count, hb]
  | some c =>
    have hle : count c seen ≤ seen.length := countP_le_length
    simp only
    rw [if_pos (by omega)]
    congr 1
    funext d
    by_cases hd : d = c
    · simp [count, hb, hd]
    · simp [count, hb, hd, Ne.symm hd]

theorem foldlM_tally (seen rest : Bytes) (hs : (seen ++ rest).length < 2 ^ 32) :
    rest.foldlM tally (count · seen) = some (count · (seen ++ rest)) := by
  induction rest generalizing seen with
  | nil => simp
  | cons b rest ih =>
    rw [append_cons] at hs ⊢
    rw [foldlM_cons, tally_eq b (by simp at hs; omega)]
    exact ih _ hs

theorem classifyWindow_eq (hx : isa.Exact) (hs : bytes.length < 2 ^ 32) :
    classifyWindow isa bytes = some (profile (count · bytes) bytes.length) := by
  obtain ⟨s, hl, h⟩ := loop_eq hx hs (bytes.length + 1) ⟨0, 0, fun _ => zeroLanes, fun _ => 0⟩
    (by simp) (by simp) (by simp) (counts_zero 0 [])
  have ht := foldlM_tally (bytes.take s.i) (bytes.drop s.i) (by simpa using hs)
  rw [take_append_drop] at ht
  simp only [classifyWindow, hl, h.flush_eq hx (by rw [length_take]; omega), Option.bind_eq_bind,
    Option.bind_some, ht]
  rfl

theorem count_le (bytes : Bytes) :
    count .lower bytes + count .upper bytes + count .digit bytes ≤ bytes.length := by
  induction bytes with
  | nil => simp [count]
  | cons b bytes ih =>
    simp only [count, countP_cons, length_cons] at ih ⊢
    grind

/-- The vector loops never meet an overflow or a bad load, and count as the scalar loop does. -/
theorem vector_eq_scalar (window : Bytes) (h : window.length < 2 ^ 32) :
    ∃ profile, classifyWindowScalar window = some profile ∧
      classifyWindowNeon window = some profile ∧ classifyWindowSse2 window = some profile ∧
      profile.lower + profile.upper + profile.digit + profile.special = window.length := by
  have ht : window.foldlM tally (fun _ => 0) = _ := foldlM_tally [] window h
  refine ⟨_, ?_, classifyWindow_eq neon_exact h, classifyWindow_eq sse2_exact h, ?_⟩
  · simp [classifyWindowScalar, ht]
  · have := count_le window
    simp only [profile]
    omega

/-- Two vectors of mixed bytes and a tail of five: letters, digits, punctuation and bytes
above 127. -/
def mixedWindow : Bytes :=
  (List.range 37).map fun i => UInt8.ofNat (i * 7 + 40)

theorem vector_eq_scalar_mixed :
    mixedWindow.length = 37 ∧
    ∃ profile, classifyWindowScalar mixedWindow = some profile ∧
      classifyWindowNeon mixedWindow = some profile ∧
      classifyWindowSse2 mixedWindow = some profile ∧
      profile.lower + profile.upper + profile.digit + profile.special = 37 :=
  ⟨by decide, vector_eq_scalar mixedWindow (by decide)⟩

end GossipRs.Engine.SimdClassify
