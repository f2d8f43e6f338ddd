import GossipRs.Lib.Word

/-! Base64 as groups of six bits. The first groups of an encoding are settled by the first bytes,
and those of an inner part by that part, up to groups that share a byte with a neighbour. -/

namespace GossipRs.Lib.Base64

open List

abbrev sextet (n : Nat) : Fin 64 := Fin.ofNat 64 n

def first (a : UInt8) : Fin 64 := sextet (a.toNat / 4)

def second (a b : UInt8) : Fin 64 := sextet (a.toNat % 4 * 16 + b.toNat / 16)

def third (b c : UInt8) : Fin 64 := sextet (b.toNat % 16 * 4 + c.toNat / 64)

def fourth (c : UInt8) : Fin 64 := sextet (c.toNat % 64)

def sextets : Bytes → List (Fin 64)
  | [] => []
  | [a] => [first a, second a 0]
  | [a, b] => [first a, second a b, third b 0]
  | a :: b :: c :: rest => first a :: second a b :: third b c :: fourth c :: sextets rest

def stable : Bytes → List (Fin 64)
  | [] => []
  | [a] => [first a]
  | [a, b] => [first a, second a b]
  | a :: b :: c :: rest => first a :: second a b :: third b c :: fourth c :: stable rest

/-- The number of `=` that complete the last group of four. -/
def paddingLength (data : Bytes) : Nat := (3 - data.length % 3) % 3

theorem sextets_append : ∀ (x y : Bytes), 3 ∣ x.length → sextets (x ++ y) = sextets x ++ sextets y
  | [], y, _ => rfl
  | [a], y, h => by
    rw [length_singleton] at h
    omega
  | [a, b], y, h => by
    simp only [length_cons, length_nil] at h
    omega
  | a :: b :: c :: rest, y, h => by
    have hr : 3 ∣ rest.length := by
      simp only [length_cons] at h
      omega
    show _ :: _ :: _ :: _ :: sextets (rest ++ y) = _
    rw [sextets_append rest y hr]
    rfl

theorem stable_isPrefix : ∀ (x s : Bytes), stable x <+: sextets (x ++ s)
  | [], s => nil_prefix
  | [a], s => by
    match s with
    | [] => exact ⟨[second a 0], rfl⟩
    | [b] => exact ⟨[second a b, third b 0], rfl⟩
    | b :: c :: rest => exact ⟨second a b :: third b c :: fourth c :: sextets rest, rfl⟩
  | [a, b], s => by
    match s with
    | [] => exact ⟨[third b 0], rfl⟩
    | c :: rest => exact ⟨third b c :: fourth c :: sextets rest, rfl⟩
  | a :: b :: c :: rest, s => by
    obtain ⟨tail, ht⟩ := stable_isPrefix rest s
    refine ⟨tail, ?_⟩
    show _ :: _ :: _ :: _ :: (stable rest ++ tail) = _ :: _ :: _ :: _ :: sextets (rest ++ s)
    rw [ht]

/-- The groups that bytes before an inner part can change, by how many precede it in its block of
three. -/
def unsettled (offset : Nat) : Nat := if offset = 0 then 0 else offset + 1

def innerGroups (offset : Nat) (data : Bytes) : List (Fin 64) :=
  (stable (List.replicate offset 0 ++ data)).drop (unsettled offset)

theorem drop_stable_one (b b') (rest) :
    (stable (b :: rest)).drop 2 = (stable (b' :: rest)).drop 2 := by
  match rest with
  | [] => rfl
  | [x] => rfl
  | x :: y :: rest => rfl

theorem drop_stable_two (b c b' c') (rest) :
    (stable (b :: c :: rest)).drop 3 = (stable (b' :: c' :: rest)).drop 3 := by
  match rest with
  | [] => rfl
  | x :: rest => rfl

theorem innerGroups_eq (h : before.length < 3) (data) :
    innerGroups before.length data = (stable (before ++ data)).drop (unsettled before.length) := by
  match before with
  | [] => rfl
  | [b] => exact drop_stable_one 0 b data
  | [b, c] => exact drop_stable_two 0 0 b c data
  | _ :: _ :: _ :: rest =>
    simp only [length_cons] at h
    omega

theorem innerGroups_isInfix (before data after) :
    innerGroups (before.length % 3) data <:+: sextets (before ++ data ++ after) := by
  -- Cut `before` into whole blocks and the bytes that share a block with `data`.
  have hl : (before.drop (before.length / 3 * 3)).length = before.length % 3 := by
    rw [length_drop]
    omega
  have hw : 3 ∣ (before.take (before.length / 3 * 3)).length := by
    rw [length_take]
    exact ⟨before.length / 3, by omega⟩
  have hs : sextets (before ++ data ++ after) = sextets (before.take (before.length / 3 * 3)) ++
        sextets (before.drop (before.length / 3 * 3) ++ data ++ after) := by
    rw [← sextets_append _ _ hw, ← append_assoc, ← append_assoc, take_append_drop]
  rw [hs, ← hl, innerGroups_eq (by omega)]
  have hst := (stable_isPrefix (before.drop (before.length / 3 * 3) ++ data) after).isInfix
  refine IsInfix.trans ?_ (hst.trans (List.suffix_append _ _).isInfix)
  exact (drop_suffix _ _).isInfix

theorem innerGroups_ne_nil (ho : offset < 3) (h : 2 ≤ data.length) :
    innerGroups offset data ≠ [] := by
  match data, h with
  | a :: b :: rest, _ =>
    match offset, ho with
    | 0, _ => cases rest <;> exact cons_ne_nil _ _
    | 1, _ => exact cons_ne_nil _ _
    | 2, _ => exact cons_ne_nil _ _

end GossipRs.Lib.Base64
