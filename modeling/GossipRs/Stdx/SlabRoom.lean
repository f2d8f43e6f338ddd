import GossipRs.Contracts.PooledSpec

/-! How much room allocations take. While nothing has been released, a slab grows by one block for
each stored field, so allocations fit exactly when the blocks do. -/

namespace GossipRs

open Lib Stdx Outcome
open Prog (get lift wp wp_mono wp_onErr wp_seq)

variable {ε ε' α β : Type} {debug : Bool} {slab slab' : ByteSlab}

variable {m : Prog ByteSlab Panic ε α} {f : α → Prog ByteSlab Panic ε β} {cost : Nat}
  {E : ε → ByteSlab → Prop} {Q : α → ByteSlab → Prop}

namespace Stdx

def blockSize (n : Nat) : Nat := if n = 0 then 0 else nextPowerOfTwo (max n minBlock)

@[simp] theorem blockSize_zero : blockSize 0 = 0 := rfl

theorem le_blockSize (n) : n ≤ blockSize n := by
  unfold blockSize nextPowerOfTwo
  by_cases hn : n = 0
  · omega
  · rw [if_neg hn]
    exact (Nat.le_max_left n minBlock).trans (Nat.le_pow_clog (by decide) _)

theorem allocSize_eq (n) :
    allocSize n = if blockSize n ≤ u32Max then some (blockSize n) else none := by
  unfold allocSize
  by_cases hn : n = 0
  · rw [if_pos hn, hn]
    rfl
  have hb : blockSize n = nextPowerOfTwo (max n minBlock) := if_neg hn
  have hl := le_blockSize n
  rw [if_neg hn]
  by_cases hbi : u32Max < n
  · rw [if_pos hbi, if_neg (by omega)]
  · rw [if_neg hbi, hb]

/-- Rounding up at most doubles a field, and small fields take one least block. -/
theorem blockSize_le (n) : blockSize n ≤ 2 * n + 16 := by
  unfold blockSize nextPowerOfTwo
  by_cases hn : n = 0
  · rw [if_pos hn]
    omega
  rw [if_neg hn]
  by_cases hs : n ≤ 16
  · have hmax : max n minBlock = 16 := by simp [minBlock]; omega
    rw [hmax, show Nat.clog 2 16 = 4 from by decide]
    omega
  have hmax : max n minBlock = n := by simp [minBlock]; omega
  have hl : 2 ^ (Nat.clog 2 n).pred < n :=
    Nat.pow_pred_clog_lt_self (by decide) (by omega)
  have hp : 0 < Nat.clog 2 n := Nat.clog_pos (by decide) (by omega)
  have hpo : 2 ^ Nat.clog 2 n = 2 * 2 ^ (Nat.clog 2 n).pred := by
    rw [← Nat.pow_succ', Nat.succ_pred_eq_of_pos hp]
  rw [hmax]
  omega

/-! ### What cannot fail -/

theorem noErr_debugAssert (c) [Decidable c] (p) :
    Outcome.NoErr (debugAssert debug c p : Run ε Unit) :=
  noErr_assert _ _

theorem noErr_debugAssertInvariants (slab) :
    Outcome.NoErr (ByteSlab.debugAssertInvariants debug slab : Run ε Unit) :=
  .check fun _ => .check fun _ =>
    .check fun _ => .check fun _ =>
      noErr_debugAssert _ _

theorem noErr_assertSlot (slab) (slot) :
    Outcome.NoErr (ByteSlab.assertSlot debug slab slot : Run ε Unit) := by
  refine .check fun _ => .check fun _ =>
    .bind ?_ fun _ => noErr_assert _ _
  unfold addU32
  split
  · exact noErr_ok _
  split
  · exact noErr_panic _
  · exact noErr_ok _

theorem noErr_get (slab : ByteSlab) (slot) :
    Outcome.NoErr (slab.get debug slot : Run ε Bytes) := by
  unfold ByteSlab.get
  split
  · exact noErr_ok _
  · exact .bind (noErr_assertSlot _ _) fun _ => .check fun _ =>
      noErr_ok _

theorem noErr_absorb [Decidable c] [Decidable c'] [Decidable d] (a b : α) :
    Outcome.NoErr (if d then do
      Outcome.assert c p
      Outcome.assert c' p'
      return a
    else return b : Run ε α) := by
  split
  · exact .check fun _ => .check fun _ =>
      noErr_ok _
  · exact noErr_ok _

theorem noErr_mergeWithNeighbors (slab) (block) :
    Outcome.NoErr (ByteSlab.mergeWithNeighbors slab block : Run ε _) := by
  refine .bind ?_ fun merged => ?_
  · unfold ByteSlab.mergeRight
    dsimp only
    split
    · exact noErr_absorb _ _
    · exact noErr_ok _
  unfold ByteSlab.mergeLeft
  dsimp only
  split
  · exact noErr_absorb _ _
  · exact noErr_ok _

theorem noErr_insertFreeBlock (slab) (offset size) :
    Outcome.NoErr (ByteSlab.insertFreeBlock debug slab offset size : Run ε _) := by
  unfold ByteSlab.insertFreeBlock
  split
  · exact noErr_ok _
  split
  · exact noErr_ok _
  · exact .check fun _ => .check fun _ =>
      noErr_ok _

theorem noErr_deallocate (slot) (slab) :
    Outcome.NoErr ((ByteSlab.deallocate debug slot : Prog ByteSlab Panic ε Unit) slab) := by
  unfold ByteSlab.deallocate
  split
  · exact noErr_ok _
  refine .bind (noErr_assertSlot _ _) fun _ => .bind ?_ fun slab1 =>
    .check fun _ => .check fun _ =>
    .bind (noErr_mergeWithNeighbors _ _) fun merged => ?_
  · unfold ByteSlab.poisonFreed
    split
    · exact .check fun _ => .check fun _ =>
        noErr_ok _
    · exact noErr_ok _
  dsimp only
  split
  · exact .bind (noErr_debugAssertInvariants _) fun _ => noErr_ok _
  · exact .bind (noErr_insertFreeBlock _ _ _) fun _ => .check fun _ =>
      .bind (noErr_debugAssertInvariants _) fun _ => noErr_ok _

theorem noErr_bind (hm : ∀ slab, Outcome.NoErr (m slab)) (hf : ∀ a slab, Outcome.NoErr (f a slab))
    (slab) : Outcome.NoErr ((m >>= f) slab) := by
  rw [Prog.bind_run]
  exact .bind (hm slab) fun r => hf r.1 r.2

theorem noErr_lift {x : Run ε α} (h : Outcome.NoErr x) (slab : ByteSlab) :
    Outcome.NoErr ((lift x : Prog ByteSlab Panic ε α) slab) := by
  cases x with
  | ok a => exact noErr_ok _
  | err e => exact absurd rfl (h e)
  | panic p => exact noErr_panic _

theorem noErr_deallocateAll : ∀ (slots : List ByteSlot) (slab : ByteSlab),
    Outcome.NoErr ((deallocateAll debug slots : Prog ByteSlab Panic ε Unit) slab)
  | [], _ => noErr_ok _
  | slot :: rest, slab =>
    noErr_bind (noErr_deallocate slot) (fun _ => noErr_deallocateAll rest) slab

theorem noErr_writeAllocation (slab) (offset len size) (data) :
    Outcome.NoErr (ByteSlab.writeAllocation slab offset len size data : Run ε _) :=
  .check fun _ => .check fun _ =>
    .check fun _ => noErr_ok _

/-! ### Room -/

structure Grown (slab : ByteSlab) : Prop where
  no_free : slab.freeList = []
  bump_le : slab.bump ≤ slab.capacity
  capacity_le : slab.capacity ≤ u32Max

theorem writeAllocation_grows
    (h : (ByteSlab.writeAllocation slab offset len size data : Run ε _) = .ok p) :
    p.2.freeList = slab.freeList ∧ p.2.bump = slab.bump ∧ p.2.capacity = slab.capacity := by
  obtain ⟨-, h⟩ := check_eq_ok.mp h
  obtain ⟨-, h⟩ := check_eq_ok.mp h
  obtain ⟨-, h⟩ := check_eq_ok.mp h
  cases h
  exact ⟨rfl, rfl, rfl⟩

/-- From a slab that has only grown, `m` takes `cost` more bytes, or they do not fit. -/
def Costs (m : Prog ByteSlab Panic ε α) (slab : ByteSlab) (cost : Nat) : Prop :=
  Grown slab → Prog.wp m slab
    (fun _ slab' => Grown slab' ∧ slab'.bump = slab.bump + cost ∧ slab'.capacity = slab.capacity)
    (fun _ _ => slab.capacity < slab.bump + cost) (fun _ => True)

theorem Costs.of_pure : Costs (pure a : Prog ByteSlab Panic ε α) slab 0 :=
  fun h => ⟨h, rfl, rfl⟩

theorem Costs.panic (p) :
    Costs (lift (.panic p) : Prog ByteSlab Panic ε α) slab cost :=
  fun _ => trivial

theorem Costs.lift_bind {x : Run ε α} (hx : Outcome.NoErr x)
    (hf : ∀ a, x = .ok a → Costs (f a) slab cost) : Costs (lift x >>= f) slab cost := by
  intro hg
  cases x with
  | ok a => exact hf a rfl hg
  | err e => exact absurd rfl (hx e)
  | panic p => trivial

theorem Costs.bind (hm : Costs m slab a) (hf : ∀ x slab', Grown slab' → Costs (f x) slab' b) :
    Costs (m >>= f) slab (a + b) := by
  intro hg
  refine wp_seq (hm hg) (fun x slab1 h1 => ?_) (fun _ _ he => by omega) (fun _ _ => trivial)
  obtain ⟨hg1, hb, hc⟩ := h1
  refine wp_mono (hf x slab1 hg1 hg1) (fun y slab2 h2 => ?_) (fun _ _ he => ?_) (fun _ _ => trivial)
  · exact ⟨h2.1, by rw [h2.2.1, hb]; omega, h2.2.2.trans hc⟩
  · rw [hb, hc] at he
    omega

theorem Costs.get {f : ByteSlab → Prog ByteSlab Panic ε β} (h : Costs (f slab) slab cost) :
    Costs (get >>= f) slab cost := by
  intro hg
  exact h hg

theorem Costs.mapErr {f : ε → ε'} (h : Costs m slab cost) : Costs (m.mapErr f) slab cost := by
  intro hg
  rw [Prog.wp_mapErr]
  exact h hg

theorem wp_trivial (m : Prog ByteSlab Panic ε α) {E} (hE : E) :
    wp m slab (fun _ _ => E) (fun _ _ => E) (fun _ => True) := by
  unfold wp
  cases m slab with
  | ok p | err p => exact hE
  | panic p => trivial

theorem Costs.onErr {f : ε → Prog ByteSlab Panic ε' ε'} (h : Costs m slab cost) :
    Costs (m.onErr f) slab cost := by
  intro hg
  rw [wp_onErr]
  exact wp_mono (h hg) (fun _ _ ho => ho) (fun e slab1 he => wp_trivial (f e) he)
    (fun _ _ => trivial)

theorem costs_allocate (data) :
    Costs (ByteSlab.allocate debug data) slab (blockSize data.length) := by
  intro hg
  unfold wp ByteSlab.allocate
  by_cases hn : data = []
  · rw [if_pos hn, hn]
    exact ⟨hg, rfl, rfl⟩
  rw [if_neg hn, allocSize_eq]
  by_cases hf : blockSize data.length ≤ u32Max
  · rw [if_pos hf]
    have ht : (ByteSlab.takeBestFit slab (blockSize data.length) :
        Run (SlabFull × ByteSlab) _) = .ok none := by
      unfold ByteSlab.takeBestFit
      rw [hg.no_free]
      rfl
    simp only [ht, ok_bind]
    by_cases hr : slab.bump + blockSize data.length ≤ u32Max ∧
        slab.bump + blockSize data.length ≤ slab.capacity
    · rw [if_pos hr]
      refine post_bind.mpr ?_
      refine Outcome.Post.mono (post_of_eq _) (fun p hw _ => ?_)
        (fun e hw _ => absurd hw (noErr_writeAllocation _ _ _ _ _ e)) (fun _ _ _ => trivial)
      obtain ⟨hfr, hb, hc⟩ := writeAllocation_grows hw
      refine post_bind.mpr (Outcome.Post.mono (post_of_eq _) (fun _ _ _ => ?_)
        (fun e he _ => absurd he (noErr_debugAssertInvariants _ e)) (fun _ _ _ => trivial))
      exact ⟨⟨hfr.trans hg.no_free, by rw [hb, hc]; exact hr.2, hc ▸ hg.capacity_le⟩, hb, hc⟩
    rw [if_neg hr]
    have := hg.capacity_le
    show slab.capacity < slab.bump + blockSize data.length
    omega
  · rw [if_neg hf]
    have := hg.capacity_le
    show slab.capacity < slab.bump + blockSize data.length
    omega

theorem costs_allocateFields : ∀ (fields : List Bytes) (done : List ByteSlot) {slab},
    Costs (allocateFields debug fields done) slab (fields.map fun data => blockSize data.length).sum
  | [], _, _ => Costs.of_pure
  | data :: rest, done, slab => by
    unfold allocateFields
    rw [List.map_cons, List.sum_cons]
    exact (costs_allocate data).onErr.bind fun slot _ _ => costs_allocateFields rest (slot :: done)

theorem wp_of_small (hs : SmallSlab slab.capacity)
    (h : wp m slab Q E (MetadataExhausted slab)) : wp m slab Q E (fun _ => False) :=
  wp_mono h (fun _ _ hQ => hQ) (fun _ _ hE => hE) (fun _ hp => hp.2 hs)

/-- A program fails exactly where `cost` more bytes do not fit; it may abort where they do. -/
def Needs (m : Prog ByteSlab Panic ε α) (slab : ByteSlab) (cost : Nat) : Prop :=
  Prog.wp m slab (fun _ _ => slab.bump + cost ≤ slab.capacity)
    (fun _ _ => slab.capacity < slab.bump + cost) (fun _ => slab.bump + cost ≤ slab.capacity)

/-- First `m`, which does not abort, then what needs `b` from there. -/
theorem Costs.seq (hm : Costs m slab a) (hg : Grown slab)
    (hs : wp m slab Q E (fun _ => False))
    (hf : ∀ x slab', Grown slab' → Q x slab' → Needs (f x) slab' b) :
    Needs (m >>= f) slab (a + b) := by
  have hc := hm hg
  unfold Needs
  rw [Prog.wp_bind]
  unfold wp at hc hs ⊢
  cases hr : m slab with
  | ok p =>
    rw [hr] at hc hs
    obtain ⟨hg1, hb, hca⟩ := hc
    have hn := hf p.1 p.2 hg1 hs
    unfold Needs at hn
    rw [hb, hca, Nat.add_assoc] at hn
    exact hn
  | err p =>
    rw [hr] at hc
    have hl : slab.capacity < slab.bump + a := hc
    show slab.capacity < slab.bump + (a + b)
    omega
  | panic p =>
    rw [hr] at hs
    exact hs.elim

theorem Costs.needs (hm : Costs m slab cost) (hg : Grown slab)
    (hs : wp m slab Q E (fun _ => False)) : Needs m slab cost := by
  have hc := hm hg
  unfold Needs wp at *
  cases hr : m slab with
  | ok p =>
    rw [hr] at hc
    obtain ⟨hg1, hb, hca⟩ := hc
    rw [← hb, ← hca]
    exact hg1.bump_le
  | err p =>
    rw [hr] at hc
    exact hc
  | panic p =>
    rw [hr] at hs
    exact hs.elim

theorem Needs.andThen (h : Needs m slab cost) (hf : ∀ a slab', Outcome.NoErr (f a slab')) :
    Needs (m >>= f) slab cost := by
  refine wp_seq h (fun a slab1 hfi => ?_) (fun _ _ he => he) (fun _ hp => hp)
  unfold wp
  cases hm : f a slab1 with
  | ok p | panic p => exact hfi
  | err p => exact absurd hm (hf a slab1 p)

theorem Needs.check {m : Prog ByteSlab Panic ε β} {x : Run ε Unit} (hx : x = .ok ())
    (h : Needs m slab cost) : Needs (lift x >>= fun _ => m) slab cost := by
  rw [hx]
  exact h

theorem Needs.onErr {f : ε → Prog ByteSlab Panic ε' ε'} (h : Needs m slab cost)
    (hm : wp m slab Q E P) (hf : ∀ e slab', E e slab' → ∃ p, f e slab' = .ok p) :
    Needs (m.onErr f) slab cost := by
  unfold Needs at h ⊢
  rw [wp_onErr]
  unfold wp at h hm ⊢
  cases hr : m slab with
  | ok p | panic p =>
    rw [hr] at h
    exact h
  | err p =>
    rw [hr] at h hm
    obtain ⟨_, hq⟩ := hf p.1 p.2 hm
    show Outcome.Post (f p.1 p.2) _ _ _
    rw [hq]
    exact h

theorem Needs.err_iff (h : Needs m slab cost) :
    (∃ e slab', m slab = .err (e, slab')) ↔ slab.capacity < slab.bump + cost := by
  unfold Needs wp at h
  cases hm : m slab with
  | ok p | panic p =>
    rw [hm] at h
    have hl : slab.bump + cost ≤ slab.capacity := h
    simp only [reduceCtorEq, exists_false, false_iff]
    omega
  | err p =>
    rw [hm] at h
    exact ⟨fun _ => h, fun _ => ⟨p.1, p.2, rfl⟩⟩

end Stdx

end GossipRs
