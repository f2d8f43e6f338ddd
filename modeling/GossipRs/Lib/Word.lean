import Mathlib

/-! Linear orders on the fixed-width words, so that byte strings compare lexicographically, and
little-endian encodings. -/

namespace GossipRs.Lib

instance linearOrderUInt8 : LinearOrder UInt8 where
  le_refl := UInt8.le_refl
  le_trans _ _ _ := UInt8.le_trans
  lt_iff_le_not_ge a b := by simp [UInt8.lt_iff_toNat_lt, UInt8.le_iff_toNat_le]; omega
  le_antisymm _ _ := UInt8.le_antisymm
  le_total := UInt8.le_total
  toDecidableLE := inferInstance

instance linearOrderUInt64 : LinearOrder UInt64 where
  le_refl := UInt64.le_refl
  le_trans _ _ _ := UInt64.le_trans
  lt_iff_le_not_ge a b := by simp [UInt64.lt_iff_toNat_lt, UInt64.le_iff_toNat_le]; omega
  le_antisymm _ _ := UInt64.le_antisymm
  le_total := UInt64.le_total
  toDecidableLE := inferInstance

abbrev Bytes := List UInt8

/-- Little-endian bytes of `n`, `width` of them; higher digits are dropped. -/
def leBytes : Nat → Nat → Bytes
  | 0, _ => []
  | width + 1, n => UInt8.ofNat n :: leBytes width (n / 256)

def ofLeBytes : Bytes → Nat
  | [] => 0
  | b :: rest => b.toNat + 256 * ofLeBytes rest

@[simp] theorem length_leBytes : ∀ width n, (leBytes width n).length = width
  | 0, _ => rfl
  | width + 1, n => by simp [leBytes, length_leBytes width]

theorem ofLeBytes_leBytes : ∀ {width n}, n < 256 ^ width →
    ofLeBytes (leBytes width n) = n
  | 0, n, h => by simp at h; simp [leBytes, ofLeBytes, h]
  | width + 1, n, h => by
    have hd : n / 256 < 256 ^ width := by
      rw [Nat.div_lt_iff_lt_mul (by omega), ← Nat.pow_succ]; exact h
    simp only [leBytes, ofLeBytes, ofLeBytes_leBytes hd, UInt8.toNat_ofNat']
    omega

theorem UInt64_lt_succ {a : UInt64} (h : a.toNat + 1 < 2 ^ 64) : a < a + 1 := by
  rw [UInt64.lt_iff_toNat_lt, UInt64.toNat_add]
  have h1 : (1 : UInt64).toNat = 1 := rfl
  omega

end GossipRs.Lib
