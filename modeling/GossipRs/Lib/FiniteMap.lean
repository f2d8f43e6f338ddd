import Mathlib

/-! Finite maps with a fixed value type, sums over their entries in any additive commutative monoid,
and two-level maps. One set of lemmas serves counting entries and collecting what they own. -/

namespace GossipRs.Lib

open Finmap (insert_insert lookup_empty lookup_erase lookup_insert)

open Option (bind_some getD_some map_congr map_some)

set_option linter.unusedSectionVars false

variable {K A B V W M : Type} [DecidableEq K] [DecidableEq A] [DecidableEq B]

abbrev FMap (K V : Type) := Finmap fun _ : K => V

variable {k : K} {v : V} {f : K → V → M}

namespace FMap

def mapVals (f : V → W) (m : FMap K V) : FMap K W where
  entries := m.entries.map fun e => ⟨e.1, f e.2⟩
  nodupKeys := by
    rw [← Multiset.nodup_keys, Multiset.keys, Multiset.map_map]
    exact Multiset.nodup_keys.mpr m.nodupKeys

@[simp] theorem lookup_mapVals (f : V → W) (m) (k : K) :
    (mapVals f m).lookup k = (m.lookup k).map f := by
  induction m using Finmap.induction_on with
  | _ s => exact List.dlookup_map₂ (f := fun _ => f) k

variable {m : FMap K V}

theorem ext (h : ∀ k, m.lookup k = n.lookup k) : m = n :=
  Finmap.ext_lookup h

theorem lookup_insert_eq (m : FMap K V) (k k' : K) (v : V) :
    (m.insert k v).lookup k' = if k' = k then some v else m.lookup k' := by
  split
  · next h => rw [h, lookup_insert]
  · next h => rw [Finmap.lookup_insert_of_ne m h]

theorem lookup_erase_eq (m : FMap K V) (k k' : K) :
    (m.erase k).lookup k' = if k' = k then none else m.lookup k' := by
  split
  · next h => rw [h, lookup_erase]
  · next h => rw [Finmap.lookup_erase_ne h]

theorem mapVals_insert (f : V → W) (m) (k : K) (v : V) :
    mapVals f (m.insert k v) = (mapVals f m).insert k (f v) := by
  apply ext
  intro k'
  simp only [lookup_mapVals, lookup_insert_eq]
  split <;> rfl

theorem mapVals_erase (f : V → W) (m) (k : K) :
    mapVals f (m.erase k) = (mapVals f m).erase k := by
  apply ext
  intro k'
  simp only [lookup_mapVals, lookup_erase_eq]
  split <;> rfl

theorem insert_erase_of_lookup (h : m.lookup k = some v) : (m.erase k).insert k v = m := by
  apply ext
  intro k'
  rw [lookup_insert_eq, lookup_erase_eq]
  split
  · next hk => rw [hk, h]
  · rfl

theorem insert_of_lookup (h : m.lookup k = some v) : m.insert k v = m := by
  apply ext
  intro k'
  rw [lookup_insert_eq]
  split
  · next hk => rw [hk, h]
  · rfl

theorem erase_of_lookup_none (h : m.lookup k = none) : m.erase k = m := by
  apply ext
  intro k'
  rw [lookup_erase_eq]
  split
  · next hk => rw [hk, h]
  · rfl

theorem erase_insert_of_lookup_none (h : m.lookup k = none) : (m.insert k v).erase k = m := by
  apply ext
  intro k'
  rw [lookup_erase_eq, lookup_insert_eq]
  split
  · next hk => rw [hk, h]
  · rfl

/-! ## Sums over the entries -/

section Sum

variable [AddCommMonoid M]

def sumOf (f : K → V → M) (m : FMap K V) : M := (m.entries.map fun e => f e.1 e.2).sum

@[simp] theorem sumOf_empty (f : K → V → M) : sumOf f (∅ : FMap K V) = 0 := rfl

theorem sumOf_insert_of_none (h : m.lookup k = none) :
    sumOf f (m.insert k v) = f k v + sumOf f m := by
  unfold sumOf
  rw [Finmap.entries_insert_of_notMem (Finmap.lookup_eq_none.mp h), Multiset.map_cons,
    Multiset.sum_cons]

theorem sumOf_eq_add_erase (h : m.lookup k = some v) : sumOf f m = f k v + sumOf f (m.erase k) := by
  conv_lhs => rw [← insert_erase_of_lookup h]
  exact sumOf_insert_of_none (lookup_erase k m)

theorem insert_eq_insert_erase (m : FMap K V) (k) (v : V) :
    m.insert k v = (m.erase k).insert k v := by
  apply ext
  intro k'
  rw [lookup_insert_eq, lookup_insert_eq, lookup_erase_eq]
  split <;> rfl

theorem sumOf_insert (m : FMap K V) (k : K) (v : V) :
    sumOf f (m.insert k v) = f k v + sumOf f (m.erase k) := by
  rw [insert_eq_insert_erase, sumOf_insert_of_none (lookup_erase k m)]

theorem sumOf_mapVals (f : K → W → M) (g : V → W) (m) :
    sumOf f (mapVals g m) = sumOf (fun k v => f k (g v)) m := by
  simp [sumOf, mapVals, Multiset.map_map]

theorem sumOf_congr (h : ∀ k v, m.lookup k = some v → f k v = g k v) : sumOf f m = sumOf g m := by
  unfold sumOf
  congr 1
  apply Multiset.map_congr rfl
  intro e he
  exact h e.1 e.2 (Finmap.lookup_eq_some_iff.mpr he)

theorem map_sumOf [AddCommMonoid N] (φ : M →+ N) (f : K → V → M) (m) :
    φ (sumOf f m) = sumOf (fun k v => φ (f k v)) m := by
  unfold sumOf
  rw [map_multiset_sum, Multiset.map_map]
  rfl

theorem sumOf_le_sumOf {f g : K → V → Nat} (h : ∀ k v, m.lookup k = some v → f k v ≤ g k v) :
    sumOf f m ≤ sumOf g m :=
  Multiset.sum_map_le_sum_map _ _ fun e he => h e.1 e.2 (Finmap.lookup_eq_some_iff.mpr he)

end Sum

def size (m : FMap K V) : Nat := sumOf (fun _ _ => 1) m

@[simp] theorem size_empty : size (∅ : FMap K V) = 0 := rfl

theorem size_insert_of_none (h : m.lookup k = none) : size (m.insert k v) = size m + 1 := by
  rw [size, sumOf_insert_of_none h, Nat.add_comm]; rfl

theorem size_eq_erase_add_one (h : m.lookup k = some v) : size m = size (m.erase k) + 1 := by
  rw [size, sumOf_eq_add_erase h, Nat.add_comm]; rfl

theorem size_insert_of_some (h : m.lookup k = some w) : size (m.insert k v) = size m := by
  rw [size_eq_erase_add_one h, size, sumOf_insert, Nat.add_comm]; rfl

@[simp] theorem size_mapVals (f : V → W) (m : FMap K V) : size (mapVals f m) = size m :=
  sumOf_mapVals _ f m

end FMap

/-! ## Two-level maps -/

abbrev FMap2 (A B V : Type) := FMap A (FMap B V)

variable {a : A} {b : B}

namespace FMap2

/-- The value at outer key `a` and inner key `b`. -/
def get (m : FMap2 A B V) (a : A) (b : B) : Option V := (m.lookup a).bind (·.lookup b)

def set (m : FMap2 A B V) (a : A) (b : B) (v : V) : FMap2 A B V :=
  m.insert a (((m.lookup a).getD ∅).insert b v)

/-- Remove a value. An inner map stays in place when it becomes empty. -/
def remove (m : FMap2 A B V) (a : A) (b : B) : FMap2 A B V :=
  match m.lookup a with
  | none => m
  | some inner => m.insert a (inner.erase b)

def sizeAt (m : FMap2 A B V) (a : A) : Nat := ((m.lookup a).map FMap.size).getD 0

def total (m : FMap2 A B V) : Nat := FMap.sumOf (fun _ inner => FMap.size inner) m

def mapVals (f : V → W) (m : FMap2 A B V) : FMap2 A B W := FMap.mapVals (FMap.mapVals f) m

theorem get_set (m) (a a' : A) (b b' : B) (v : V) :
    get (set m a b v) a' b' = if a' = a ∧ b' = b then some v else get m a' b' := by
  unfold get set
  rw [FMap.lookup_insert_eq]
  by_cases ha : a' = a
  · subst ha
    simp only [if_true, bind_some, true_and]
    rw [FMap.lookup_insert_eq]
    split
    · rfl
    · cases m.lookup a' <;> simp
  · simp [ha]

theorem get_remove (m : FMap2 A B V) (a a' : A) (b b' : B) :
    get (remove m a b) a' b' = if a' = a ∧ b' = b then none else get m a' b' := by
  unfold get remove
  cases hm : m.lookup a with
  | none =>
    by_cases ha : a' = a
    · subst ha; simp [hm]
    · simp [ha]
  | some inner =>
    simp only
    rw [FMap.lookup_insert_eq]
    by_cases ha : a' = a
    · subst ha
      simp only [if_true, bind_some, true_and, hm]
      rw [FMap.lookup_erase_eq]
    · simp [ha]

variable {m : FMap2 A B V}

theorem get_eq_some :
    get m a b = some v ↔ ∃ inner, m.lookup a = some inner ∧ inner.lookup b = some v := by
  simp [get, Option.bind_eq_some_iff]

@[simp] theorem get_mapVals (f : V → W) (m) (a : A) (b : B) :
    get (mapVals f m) a b = (get m a b).map f := by
  unfold get mapVals
  rw [FMap.lookup_mapVals]
  cases m.lookup a <;> simp

theorem mapVals_congr {f g : V → W} (h : ∀ a b v, get m a b = some v → f v = g v) :
    mapVals f m = mapVals g m := by
  apply FMap.ext
  intro a
  unfold mapVals
  rw [FMap.lookup_mapVals, FMap.lookup_mapVals]
  cases hm : m.lookup a with
  | none => rfl
  | some inner =>
    refine congrArg some (FMap.ext fun b => ?_)
    rw [FMap.lookup_mapVals, FMap.lookup_mapVals]
    refine map_congr fun v hv => h a b v ?_
    rw [get, hm]
    exact hv

theorem mapVals_set (f : V → W) (m) (a : A) (b : B) (v : V) :
    mapVals f (set m a b v) = set (mapVals f m) a b (f v) := by
  unfold mapVals set
  rw [FMap.mapVals_insert, FMap.mapVals_insert, FMap.lookup_mapVals]
  cases m.lookup a <;> rfl

theorem mapVals_set_congr {f g : V → W} (v : V)
    (h : ∀ a' b' w, get m a' b' = some w → ¬ (a' = a ∧ b' = b) → f w = g w) :
    mapVals f (set m a b v) = set (mapVals g m) a b (f v) := by
  apply FMap.ext
  intro a'
  unfold mapVals set
  rw [FMap.lookup_mapVals, FMap.lookup_insert_eq, FMap.lookup_insert_eq, FMap.lookup_mapVals,
    FMap.lookup_mapVals]
  by_cases ha : a' = a
  · subst ha
    rw [if_pos rfl, if_pos rfl, map_some]
    refine congrArg some (FMap.ext fun b' => ?_)
    rw [FMap.lookup_mapVals, FMap.lookup_insert_eq, FMap.lookup_insert_eq]
    by_cases hb : b' = b
    · rw [if_pos hb, if_pos hb, map_some]
    rw [if_neg hb, if_neg hb]
    cases hm : m.lookup a' with
    | none => rfl
    | some inner =>
      simp only [getD_some, map_some, FMap.lookup_mapVals]
      refine map_congr fun w hw => h a' b' w ?_ fun hab => hb hab.2
      rw [get, hm]
      exact hw
  · rw [if_neg ha, if_neg ha]
    cases hm : m.lookup a' with
    | none => rfl
    | some inner =>
      refine congrArg some (FMap.ext fun b' => ?_)
      rw [FMap.lookup_mapVals, FMap.lookup_mapVals]
      refine map_congr fun w hw => h a' b' w ?_ fun hab => ha hab.1
      rw [get, hm]
      exact hw

theorem mapVals_remove (f : V → W) (m) (a : A) (b : B) :
    mapVals f (remove m a b) = remove (mapVals f m) a b := by
  unfold mapVals remove
  rw [FMap.lookup_mapVals]
  cases m.lookup a with
  | none => rfl
  | some inner => simp only [map_some, FMap.mapVals_insert, FMap.mapVals_erase]

theorem remove_of_get_none (h : get m a b = none) : remove m a b = m := by
  unfold remove
  split
  · rfl
  next inner hin =>
    rw [get, hin, bind_some] at h
    rw [FMap.erase_of_lookup_none h, FMap.insert_of_lookup hin]

theorem set_remove (m) (a : A) (b : B) (v : V) :
    set (remove m a b) a b v = set m a b v := by
  unfold set remove
  cases hm : m.lookup a with
  | none => simp only [hm]
  | some inner =>
    simp only [lookup_insert, getD_some, insert_insert]
    rw [← FMap.insert_eq_insert_erase]

theorem remove_set_of_get {inner} (hm : m.lookup a = some inner) (h : get m a b = none) :
    remove (set m a b v) a b = m := by
  have hv : inner.lookup b = none := by simpa [get, hm] using h
  unfold set remove
  rw [hm]
  simp only [getD_some, lookup_insert]
  rw [insert_insert, FMap.erase_insert_of_lookup_none hv]
  exact FMap.insert_of_lookup hm

/-! ### Sums over a two-level map -/

section Sum

variable [AddCommMonoid M]

def sum (f : V → M) (m : FMap2 A B V) : M :=
  FMap.sumOf (fun _ inner => FMap.sumOf (fun _ v => f v) inner) m

theorem total_eq_sum (m : FMap2 A B V) : total m = sum (fun _ => 1) m := rfl

@[simp] theorem sum_empty (f : V → M) : sum f (∅ : FMap2 A B V) = 0 := rfl

theorem sum_eq_add_remove {f : V → M} (h : get m a b = some v) :
    sum f m = f v + sum f (remove m a b) := by
  obtain ⟨_, hm, hv⟩ := get_eq_some.mp h
  unfold sum remove
  simp only [hm]
  rw [FMap.sumOf_eq_add_erase hm, FMap.sumOf_insert, FMap.sumOf_eq_add_erase hv, add_assoc]

theorem sum_set_of_none {f : V → M} (h : get m a b = none) :
    sum f (set m a b v) = f v + sum f m := by
  unfold sum set
  cases hm : m.lookup a with
  | none =>
    rw [Option.getD_none, FMap.sumOf_insert_of_none hm,
      FMap.sumOf_insert_of_none (lookup_empty b), FMap.sumOf_empty, add_zero]
  | some inner =>
    have hv : inner.lookup b = none := by simpa [get, hm] using h
    rw [getD_some, FMap.sumOf_insert, FMap.sumOf_insert_of_none hv,
      FMap.sumOf_eq_add_erase hm, add_assoc]

theorem sum_set_of_some {f : V → M} (h : get m a b = some w) :
    sum f (set m a b v) = f v + sum f (remove m a b) := by
  have hr : get (remove m a b) a b = none := by simp [get_remove]
  rw [← sum_set_of_none hr]
  congr 1
  obtain ⟨inner, hm, _⟩ := get_eq_some.mp h
  unfold set remove
  simp only [hm, getD_some, lookup_insert]
  rw [insert_insert]
  congr 1
  exact FMap.insert_eq_insert_erase inner b v

theorem map_sum [AddCommMonoid N] (φ : M →+ N) (f : V → M) (m : FMap2 A B V) :
    φ (sum f m) = sum (fun v => φ (f v)) m := by
  unfold sum
  rw [FMap.map_sumOf]
  exact FMap.sumOf_congr fun _ _ _ => FMap.map_sumOf _ _ _

theorem total_le_sum {f} (h : ∀ a b v, get m a b = some v → 1 ≤ f v) : total m ≤ sum f m :=
  FMap.sumOf_le_sumOf fun a inner ha => FMap.sumOf_le_sumOf fun b v hb =>
    h a b v (get_eq_some.mpr ⟨inner, ha, hb⟩)

end Sum

theorem sizeAt_le_total (m : FMap2 A B V) (a : A) : sizeAt m a ≤ total m := by
  unfold sizeAt total
  cases hm : m.lookup a with
  | none => exact Nat.zero_le _
  | some inner =>
    rw [FMap.sumOf_eq_add_erase hm]
    exact Nat.le_add_right _ _

theorem total_set_of_none (h : get m a b = none) : total (set m a b v) = total m + 1 := by
  rw [total_eq_sum, sum_set_of_none h, Nat.add_comm]; rfl

theorem total_set_of_some (h : get m a b = some w) : total (set m a b v) = total m := by
  rw [total_eq_sum, sum_set_of_some h, total_eq_sum, sum_eq_add_remove h]

theorem total_eq_remove_add_one (h : get m a b = some v) : total m = total (remove m a b) + 1 := by
  rw [total_eq_sum, sum_eq_add_remove h, Nat.add_comm]; rfl

theorem sizeAt_set_of_none (h : get m a b = none) : sizeAt (set m a b v) a = sizeAt m a + 1 := by
  unfold sizeAt set
  cases hm : m.lookup a with
  | none => simp [FMap.size_insert_of_none (lookup_empty b)]
  | some inner =>
    have hv : inner.lookup b = none := by simpa [get, hm] using h
    simp [FMap.size_insert_of_none hv]

theorem sizeAt_set_of_some (h : get m a b = some w) : sizeAt (set m a b v) a = sizeAt m a := by
  obtain ⟨_, hm, hv⟩ := get_eq_some.mp h
  unfold sizeAt set
  rw [lookup_insert, hm]
  simp [FMap.size_insert_of_some hv]

theorem sizeAt_set_of_ne (h : a' ≠ a) : sizeAt (set m a b v) a' = sizeAt m a' := by
  unfold sizeAt set
  rw [FMap.lookup_insert_eq, if_neg h]

theorem sizeAt_eq_remove_add_one (h : get m a b = some v) :
    sizeAt m a = sizeAt (remove m a b) a + 1 := by
  obtain ⟨_, hm, hv⟩ := get_eq_some.mp h
  unfold sizeAt remove
  simp only [hm, lookup_insert, map_some, getD_some]
  exact FMap.size_eq_erase_add_one hv

@[simp] theorem sizeAt_mapVals (f : V → W) (m : FMap2 A B V) (a : A) :
    sizeAt (mapVals f m) a = sizeAt m a := by
  unfold sizeAt mapVals
  rw [FMap.lookup_mapVals]
  cases m.lookup a <;> simp

end FMap2

end GossipRs.Lib
