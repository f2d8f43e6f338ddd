import GossipRs.Contracts.SplitPlanning

/-! Bisection of key ranges (`key_encoding.rs`). The midpoint of two keys is half their sum as
numbers, where that is a key between them, and else the successor of the lower one. -/

namespace GossipRs

open Lib List

def byteAt (key : Bytes) (idx : Nat) : UInt16 := (key[idx]?.getD 0).toUInt16

/-- The sum of two keys, the shorter one padded with zeros, from the last byte to the first. -/
def addPadded (a b : Bytes) : Nat → UInt16 → Bytes → Bytes
  | 0, carry, sum => carry.toUInt8 :: sum
  | idx + 1, carry, sum =>
    let total := byteAt a idx + byteAt b idx + carry
    addPadded a b idx (total >>> 8) ((total &&& 0xFF).toUInt8 :: sum)

def halve : UInt16 → Bytes → Bytes
  | _, [] => []
  | remainder, byte :: rest =>
    let value := remainder <<< 8 ||| byte.toUInt16
    (value / 2).toUInt8 :: halve (value % 2) rest

def byteMidpoint (a b : Bytes) : Option Bytes :=
  let maxLen := max a.length b.length
  let sum := halve 0 (addPadded a b maxLen 0 [])
  if b ≤ a then none
  else if maxLen = 0 ∨ maxKeySize < maxLen then none
  -- the quotient without the byte the carry went to, then all of it
  else if sum.length = maxLen + 1 ∧ sum.head? = some 0 ∧ a < sum.tail ∧ sum.tail < b then
    some sum.tail
  else if sum.length ≤ maxKeySize ∧ a < sum ∧ sum < b then some sum
  else (keySuccessor a).filter (· < b)

/-- Points got by cutting a range at its midpoint, again and again and in any order. -/
inductive Bisection : Bytes → Bytes → List Bytes → Prop
  | whole {a b : Bytes} : Bisection a b []
  | cut {a b mid : Bytes} {left right : List Bytes} (h : byteMidpoint a b = some mid)
      (below : Bisection a mid left) (above : Bisection mid b right) :
      Bisection a b (left ++ mid :: right)

variable {a b mid : Bytes}

/-- Whatever the arithmetic gives is checked before it is returned. -/
theorem byteMidpoint_between (ha : a.length ≤ maxKeySize) (h : byteMidpoint a b = some mid) :
    mid.length ≤ maxKeySize ∧ a < mid ∧ mid < b := by
  simp only [byteMidpoint] at h
  generalize halve 0 (addPadded a b (max a.length b.length) 0 []) = sum at h
  split at h
  · cases h
  split at h
  · cases h
  next hs =>
  split at h
  next ht =>
    cases h
    exact ⟨by simp [ht.1]; omega, ht.2.2⟩
  split at h
  next hsu =>
    cases h
    exact hsu
  obtain ⟨hn, hlt⟩ := Option.filter_eq_some_iff.mp h
  obtain ⟨hl, hab⟩ := ((keySuccessor_spec ha).1 mid hn).1
  exact ⟨hl, hab, of_decide_eq_true hlt⟩

theorem byteMidpoint_ne_none (ha : a.length ≤ maxKeySize) (hb : b.length ≤ maxKeySize)
    (hk : key ∈ Above maxKeySize a) (hl : key < b) : byteMidpoint a b ≠ none := by
  have hab : a < b := hk.2.trans hl
  have hn : (keySuccessor a).filter (· < b) ≠ none := by
    cases hs : keySuccessor a with
    | none => exact absurd (((keySuccessor_spec ha).2.mp hs) ▸ hk) (Set.notMem_empty key)
    | some next =>
      have hle : next ≤ key := ((keySuccessor_spec ha).1 next hs).2 hk
      simp [Option.filter, hle.trans_lt hl]
  have hp : b ≠ [] := fun h => not_lt_nil _ (h ▸ hab)
  have hsi : ¬ (max a.length b.length = 0 ∨ maxKeySize < max a.length b.length) := by
    have := length_pos_iff.mpr hp
    omega
  simp only [byteMidpoint, if_neg (not_le.mpr hab), if_neg hsi]
  split
  · exact nofun
  split
  · exact nofun
  exact hn

theorem Bisection.inside (h : Bisection a b points) (ha : a.length ≤ maxKeySize) :
    points.Pairwise (· < ·) ∧ ∀ point ∈ points, point.length ≤ maxKeySize ∧ a < point ∧
      point < b := by
  induction h with
  | whole => simp
  | @cut a b mid left right h below above ihl ihr =>
    obtain ⟨hlen, hlo, hh⟩ := byteMidpoint_between ha h
    obtain ⟨hle, hl⟩ := ihl ha
    obtain ⟨hri, hr⟩ := ihr hlen
    refine ⟨pairwise_append.mpr ⟨hle, pairwise_cons.mpr ⟨fun p hp => (hr p hp).2.1, hri⟩,
      fun p hp q hq => ?_⟩, fun p hp => ?_⟩
    · rcases mem_cons.mp hq with rfl | hq
      · exact (hl p hp).2.2
      · exact (hl p hp).2.2.trans (hr q hq).2.1
    rcases mem_append.mp hp with hp | hp
    · exact ⟨(hl p hp).1, (hl p hp).2.1, (hl p hp).2.2.trans hh⟩
    rcases mem_cons.mp hp with rfl | hp
    · exact ⟨hlen, hlo, hh⟩
    · exact ⟨(hr p hp).1, hlo.trans (hr p hp).2.1, (hr p hp).2.2⟩

/-- **Midpoints** exist exactly where a key fits between, and lie between; the points of a repeated
bisection are accepted as a split plan, up to the fan-out. -/
theorem byteMidpoint_exact :
    (∀ a b : Bytes, a.length ≤ maxKeySize → b.length ≤ maxKeySize →
      ((∃ mid, byteMidpoint a b = some mid) ↔
        a < b ∧ ∃ key : Bytes, key.length ≤ maxKeySize ∧ a < key ∧ key < b) ∧
      ∀ mid, byteMidpoint a b = some mid → mid.length ≤ maxKeySize ∧ a < mid ∧ mid < b) ∧
    ∀ debug parent points cursorForChild, parent.Valid → parent.keyRangeEnd ≠ [] →
      Bisection parent.keyRangeStart parent.keyRangeEnd points →
      ((∃ plan, planSplitReplaceAtPoints debug parent points cursorForChild = .ok plan) ↔
        points ≠ [] ∧ points.length + 1 ≤ maxSplitChildren) := by
  refine ⟨fun a b ha hb => ⟨⟨?_, ?_⟩, fun mid => byteMidpoint_between ha⟩,
    fun debug parent points cursorForChild hvalid hend hpoints => ?_⟩
  · rintro ⟨mid, hmid⟩
    have hbetween := byteMidpoint_between ha hmid
    exact ⟨hbetween.2.1.trans hbetween.2.2, mid, hbetween⟩
  · rintro ⟨-, key, hlen, hlow, hhigh⟩
    exact Option.ne_none_iff_exists'.mp (byteMidpoint_ne_none ha hb ⟨hlen, hlow⟩ hhigh)
  obtain ⟨hsorted, hin⟩ := hpoints.inside hvalid.start_le
  have hinside : PointsInside parent parent.keyRangeStart points :=
    ⟨hsorted, fun p hp => ⟨(hin p hp).2.1, .inr (hin p hp).2.2⟩⟩
  have hfit : PointsFit parent parent.keyRangeStart points :=
    ⟨hvalid.start_le, hvalid.end_le, hvalid.metadata_le, fun p hp => (hin p hp).1⟩
  rw [exists_planAtPoints_iff]
  exact ⟨fun h => ⟨h.1, h.2.2.2⟩, fun h => ⟨h.1, hinside, hfit, h.2⟩⟩

/-- From 1 to 2 there is no room for the half of the sum, but for a longer key. -/
theorem byteMidpoint_one_two : byteMidpoint [1] [2] = some [1, 0] ∧
    ∃ plan, planSplitReplaceAtPoints true ⟨[1], [2], []⟩ [[1, 0]] (fun _ _ => .initial) =
      .ok plan := by
  have hmid : byteMidpoint [1] [2] = some [1, 0] := by decide
  exact ⟨hmid, (byteMidpoint_exact.2 _ _ _ _ ⟨by decide, by decide, by decide, by decide⟩
    (by decide) (.cut hmid .whole .whole)).mpr ⟨by decide, by decide⟩⟩

end GossipRs
