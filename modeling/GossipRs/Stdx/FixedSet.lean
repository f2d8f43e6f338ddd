import GossipRs.Lib.LinearProbe

/-! The resettable set of 128-bit keys (`fixed_set.rs`). A slot is live while its epoch is the
current one, so a reset only advances the epoch; when it wraps, every slot is cleared. The number of
slots is a power of two, and `& mask` is the remainder. -/

namespace GossipRs.Stdx

open Lib.Probing
open Function (update update_of_ne update_self)

structure Slot128 where
  key : BitVec 128
  epoch : Nat

structure FixedSet128 where
  slots : Nat → Slot128
  cur : Nat
  mask : Nat

inductive FixedSetOp where
  | insert (key : BitVec 128)
  | reset

namespace FixedSet128

/-- `with_pow2`, or nothing where it panics. -/
def withPow2 (capPow2 : Nat) : Option FixedSet128 :=
  if 2 ^ capPow2.log2 = capPow2 then some ⟨fun _ => ⟨0, 0⟩, 1, capPow2 - 1⟩ else none

def reset (set : FixedSet128) : FixedSet128 :=
  let cur := (set.cur + 1) % 2 ^ 32
  if cur = 0 then
    { set with slots := fun i => { set.slots i with epoch := 0 }, cur := 1 }
  else { set with cur }

/-- The key in a slot of the current epoch. -/
def live (set : FixedSet128) (i : Nat) : Option (BitVec 128) :=
  if (set.slots i).epoch = set.cur then some (set.slots i).key else none

def home (key : BitVec 128) : Nat := (key >>> 64).toNat

/-- `insert`. A full table answers `true` for a key that it does not keep. -/
def insert (set : FixedSet128) (key : BitVec 128) : Bool × FixedSet128 :=
  match probe set.live (set.mask + 1) key (set.mask + 1) (home key % (set.mask + 1)) with
  | .free i => (true, { set with slots := update set.slots i ⟨key, set.cur⟩ })
  | .hit => (false, set)
  | .full => (true, set)

def step (set : FixedSet128) : FixedSetOp → FixedSet128
  | .insert key => (set.insert key).2
  | .reset => set.reset

def run (set : FixedSet128) (ops : List FixedSetOp) : FixedSet128 := ops.foldl step set

/-- The key is in a slot of the current epoch. -/
def Stores (set : FixedSet128) (key : BitVec 128) : Prop :=
  ∃ i < set.mask + 1, set.slots i = ⟨key, set.cur⟩

def HasFreeSlot (set : FixedSet128) : Prop :=
  ∃ i < set.mask + 1, (set.slots i).epoch ≠ set.cur

/-- The abstract set: the keys stored since the last reset, at most `cap` of them. -/
def storedStep (cap : Nat) (keys : List (BitVec 128)) : FixedSetOp → List (BitVec 128)
  | .insert key => if key ∈ keys ∨ cap ≤ keys.length then keys else key :: keys
  | .reset => []

def storedSince (cap : Nat) (ops : List FixedSetOp) : List (BitVec 128) :=
  ops.foldl (storedStep cap) []

/-- No slot is ahead of the current epoch, and the live slots hold the keys. -/
structure Inv (cap : Nat) (set : FixedSet128) (keys : List (BitVec 128)) : Prop where
  size : set.mask + 1 = cap
  cur : 0 < set.cur ∧ set.cur < 2 ^ 32
  epoch : ∀ i, (set.slots i).epoch ≤ set.cur
  holds : Holds cap home set.live keys

variable {cap : Nat} {set : FixedSet128} {keys : List (BitVec 128)} {key : BitVec 128}

theorem live_eq_some {i : Nat} : set.live i = some key ↔ set.slots i = ⟨key, set.cur⟩ := by
  unfold live
  cases set.slots i
  split_ifs <;> simp_all

theorem live_write (i : Nat) :
    live { set with slots := update set.slots i ⟨key, set.cur⟩ } =
      update set.live i (some key) := by
  funext j
  by_cases hj : j = i
  · subst hj
    simp [live]
  · simp [live, hj]

theorem Inv.withPow2 (h : withPow2 cap = some set) : Inv cap set [] := by
  unfold FixedSet128.withPow2 at h
  split_ifs at h with hc
  have hp : 0 < cap := by
    rw [← hc]
    positivity
  obtain rfl := Option.some.inj h
  exact ⟨Nat.sub_add_cancel hp, by simp, by simp, .empty fun _ => by simp [live]⟩

section

variable (h : Inv cap set keys)
include h

theorem Inv.reset : Inv cap set.reset [] := by
  have hb := h.cur
  unfold FixedSet128.reset
  extract_lets cur
  split_ifs with hc
  · exact ⟨h.size, by simp, by simp, .empty fun _ => by simp [live]⟩
  · have hlt : set.cur + 1 < 2 ^ 32 := by omega
    have hcur : cur = set.cur + 1 := Nat.mod_eq_of_lt hlt
    rw [hcur]
    refine ⟨h.size, ⟨by simp, hlt⟩, fun i => (h.epoch i).trans (Nat.le_succ _), .empty fun i => ?_⟩
    have := h.epoch i
    exact if_neg (by simp; omega)

/-- One insert: what it answers, and the keys that it leaves. -/
theorem Inv.insert (key : BitVec 128) :
    ((set.insert key).1 = false ↔ key ∈ keys) ∧
    Inv cap (set.insert key).2 (storedStep cap keys (.insert key)) := by
  simp only [FixedSet128.insert, storedStep]
  rw [h.size]
  rcases h.holds.probe_cases (h.size ▸ Nat.succ_pos _) key with
    ⟨hk, hr⟩ | ⟨hk, hlt, s, hr, hs⟩ | ⟨hk, he, hr⟩
  · simp [hr, hk, h]
  · rw [← live_write] at hs
    refine ⟨by simp [hr, hk], ?_⟩
    rw [hr, if_neg (by simp [hk, hlt])]
    refine ⟨h.size, h.cur, fun i => ?_, hs⟩
    by_cases hi : i = s
    · simp [hi]
    · simpa [hi] using h.epoch i
  · simp [hr, hk, he, h]

theorem Inv.run (ops : List FixedSetOp) :
    Inv cap (set.run ops) (ops.foldl (storedStep cap) keys) := by
  induction ops generalizing set keys with
  | nil => exact h
  | cons op ops ih =>
    cases op with
    | insert key => exact ih (h.insert key).2
    | reset => exact ih h.reset

theorem Inv.stores_iff : set.Stores key ↔ key ∈ keys := by
  simp only [Stores, h.holds.mem, live_eq_some, h.size]

theorem Inv.hasFreeSlot_iff : set.HasFreeSlot ↔ keys.length < cap := by
  simp [HasFreeSlot, h.holds.length_lt_iff, h.size, live]

end

/-- After any history an insert answers `false` exactly for the keys stored since the last reset,
these are the keys of the live slots, and a new key is stored while a slot is free. -/
theorem insert_exact {start : FixedSet128} (h : withPow2 cap = some start)
    (ops : List FixedSetOp) (key : BitVec 128) :
    (((start.run ops).insert key).1 = false ↔ key ∈ storedSince cap ops) ∧
    (∀ k, (start.run ops).Stores k ↔ k ∈ storedSince cap ops) ∧
    ((start.run ops).HasFreeSlot ↔ (storedSince cap ops).length < cap) ∧
    (key ∉ storedSince cap ops → (start.run ops).HasFreeSlot →
      ((start.run ops).insert key).2.Stores key) := by
  have hi := (Inv.withPow2 h).run ops
  have hk := hi.insert key
  refine ⟨hk.1, fun _ => hi.stores_iff, hi.hasFreeSlot_iff, fun hn hf => ?_⟩
  have hlt := hi.hasFreeSlot_iff.mp hf
  rw [hk.2.stores_iff, storedStep, if_neg (by simp [hlt]; exact hn)]
  exact List.mem_cons_self

theorem insert_exact_repeated :
    ((run ⟨fun _ => ⟨0, 0⟩, 1, 1⟩ [.insert 5]).insert 5).1 = false :=
  (insert_exact (show withPow2 2 = some _ by simp [withPow2]) [.insert 5] 5).1.mpr (by decide)

end FixedSet128

end GossipRs.Stdx
