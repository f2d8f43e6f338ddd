import GossipRs.Contracts.Pooled
import GossipRs.Stdx.SlabSpec

/-! Ownership of pooled values: the slots each holds, what it reads as, and what storing, replacing
and releasing it do to the slab. A failed operation gives back all it had taken. -/

namespace GossipRs

open Lib Stdx Outcome List
open Prog (wp)
open Prog (wp_seq wp_mono wp_bind)

variable {ε : Type} {debug : Bool} {slab slab' : ByteSlab} {live : Multiset ByteSlot}

/-! ## Reading held slots -/

namespace Stdx

theorem ByteSlab.readSlot_of_isEmpty (h : s.isEmpty = true) : slab.readSlot s = [] := by
  have : s.len = 0 := by simpa [ByteSlot.isEmpty] using h
  simp [readSlot, readAt, this]

theorem ByteSlab.length_readSlot (slab : ByteSlab) (s : ByteSlot) :
    (slab.readSlot s).length = s.len := by
  simp [readSlot, readAt]

theorem Owns.get_held (h : Owns debug slab live 0) (hs : s.held ≤ live) :
    (slab.get debug s : Run ε Bytes) = .ok (slab.readSlot s) := by
  cases he : s.isEmpty with
  | true => rw [ByteSlab.readSlot_of_isEmpty he, ByteSlab.get, if_pos he]; rfl
  | false =>
    rw [ByteSlot.held, he, if_neg Bool.false_ne_true, Multiset.singleton_le] at hs
    exact h.get_ok hs

theorem ByteSlab.SameReads.held (h : ByteSlab.SameReads live slab slab') (hs : s.held ≤ live) :
    slab'.readSlot s = slab.readSlot s := by
  cases he : s.isEmpty with
  | true => rw [readSlot_of_isEmpty he, readSlot_of_isEmpty he]
  | false =>
    rw [ByteSlot.held, he, if_neg Bool.false_ne_true, Multiset.singleton_le] at hs
    exact h s hs

def heldAll (slots : List ByteSlot) : Multiset ByteSlot := (slots.map ByteSlot.held).sum

@[simp] theorem heldAll_nil : heldAll [] = 0 := rfl

@[simp] theorem heldAll_cons (s) (slots) :
    heldAll (s :: slots) = s.held + heldAll slots := by simp [heldAll]

@[simp] theorem heldAll_append (a b) : heldAll (a ++ b) = heldAll a + heldAll b := by
  simp [heldAll]

theorem heldAll_reverse (slots) : heldAll slots.reverse = heldAll slots := by
  simp [heldAll, sum_reverse]

theorem held_le_heldAll (h : s ∈ slots) : s.held ≤ heldAll slots := by
  obtain ⟨_, _, rfl⟩ := append_of_mem h
  rw [heldAll_append, heldAll_cons]
  exact le_self_add.trans le_add_self

theorem Released.refl (h : Owns debug slab live 0) : Released debug slab live slab :=
  ⟨h, .refl _ _, rfl⟩

theorem Released.trans (h1 : Released debug slab live1 slab1) (h2 : Released debug slab1 live slab2)
    (hl : live ≤ live1) : Released debug slab live slab2 :=
  ⟨h2.owns, (h1.same.mono hl).trans h2.same, h2.capacity.trans h1.capacity⟩

/-- `new` was added to the live slots; those that were live before read the same. -/
structure Placed (debug : Bool) (slab : ByteSlab) (live new : Multiset ByteSlot)
    (slab' : ByteSlab) : Prop where
  owns : Owns debug slab' (new + live) 0
  same : ByteSlab.SameReads live slab slab'
  capacity : slab'.capacity = slab.capacity

theorem MetadataExhausted.of_capacity (h : MetadataExhausted slab' p)
    (hc : slab'.capacity = slab.capacity) : MetadataExhausted slab p :=
  ⟨h.1, hc ▸ h.2⟩

end Stdx

/-! ## Several fields at once -/

theorem deallocateAll_spec : ∀ {slots slab}, Owns debug slab (heldAll slots + live) 0 →
    wp (deallocateAll debug slots : Prog ByteSlab Panic ε Unit) slab
      (fun _ slab' => Released debug slab live slab') (fun _ _ => False) (MetadataExhausted slab)
  | [], slab, h => by
    rw [heldAll_nil, zero_add] at h
    exact Released.refl h
  | slot :: rest, slab, h => by
    rw [heldAll_cons, add_assoc] at h
    unfold deallocateAll
    refine wp_seq (deallocate_spec h) (fun _ slab1 h1 => ?_) (fun _ _ hf => hf) (fun p hp => hp)
    refine wp_mono (deallocateAll_spec h1.owns) (fun _ slab2 h2 => ?_) (fun _ _ hf => hf)
      (fun p hp => hp.of_capacity h1.capacity)
    exact h1.trans h2 le_add_self

structure Stored (debug : Bool) (slab : ByteSlab) (live : Multiset ByteSlot)
    (fields : List Bytes) (slots : List ByteSlot) (slab' : ByteSlab) : Prop extends
    Placed debug slab live (heldAll slots) slab' where
  reads : slots.map slab'.readSlot = fields

theorem map_readSlot_congr (h : ByteSlab.SameReads (heldAll slots + live) slab slab') :
    slots.map slab'.readSlot = slots.map slab.readSlot :=
  map_congr_left fun _ hs =>
    h.held ((held_le_heldAll hs).trans le_self_add)

theorem allocateFields_spec : ∀ (fields : List Bytes) (done : List ByteSlot) {slab},
    Owns debug slab (heldAll done + live) 0 →
    wp (allocateFields debug fields done) slab (fun slots slab' =>
        Stored debug slab live (done.reverse.map slab.readSlot ++ fields) slots slab')
      (fun _ slab' => Released debug slab live slab') (MetadataExhausted slab)
  | [], done, slab, h => by
    refine ⟨⟨?_, .refl _ _, rfl⟩, by simp⟩
    rw [heldAll_reverse]
    exact h
  | data :: rest, done, slab, h => by
    unfold allocateFields
    rw [wp_bind, Prog.wp_onErr]
    refine wp_mono (allocate_spec h data) (fun slot slab1 h1 => ?_) (fun e slab1 he => ?_)
      (fun _ hf => hf.elim)
    · have ho := h1.owns
      rw [← add_assoc, ← heldAll_cons] at ho
      refine wp_mono (allocateFields_spec rest _ ho) (fun slots slab2 h2 => ?_)
        (fun e slab2 h2 => ?_) (fun p hp => hp.of_capacity h1.capacity)
      · refine ⟨⟨h2.owns, (h1.same.mono le_add_self).trans h2.same,
          h2.capacity.trans h1.capacity⟩, ?_⟩
        rw [h2.reads, reverse_cons, map_append, map_singleton, h1.reads,
          append_assoc, singleton_append]
        rw [map_reverse, map_reverse, map_readSlot_congr h1.same]
      · exact ⟨h2.owns, (h1.same.mono le_add_self).trans h2.same, h2.capacity.trans h1.capacity⟩
    · subst he
      refine wp_seq (deallocateAll_spec h) (fun _ slab2 h2 => ?_) (fun _ _ hf => hf.elim)
        (fun p hp => hp)
      exact h2

theorem allocateWithRollback_spec (h : Owns debug slab live 0) (fields) :
    wp (allocateWithRollback debug fields) slab
      (fun slots slab' => Stored debug slab live fields slots slab')
      (fun _ slab' => Released debug slab live slab') (MetadataExhausted slab) :=
  allocateFields_spec fields [] (by simpa using h)

/-! ## Specs -/

namespace PooledShardSpec

def slots (p : PooledShardSpec) : List ByteSlot := [p.keyRangeStart, p.keyRangeEnd, p.metadata]

def held (p : PooledShardSpec) : Multiset ByteSlot := heldAll p.slots

def view (slab : ByteSlab) (p : PooledShardSpec) : ShardSpec :=
  ⟨slab.readSlot p.keyRangeStart, slab.readSlot p.keyRangeEnd, slab.readSlot p.metadata⟩

theorem view_congr {p : PooledShardSpec} (h : ByteSlab.SameReads live slab slab')
    (hp : p.held ≤ live) : p.view slab' = p.view slab := by
  have hs : ∀ s ∈ p.slots, slab'.readSlot s = slab.readSlot s :=
    fun s hs => h.held ((held_le_heldAll hs).trans hp)
  simp [view, hs p.keyRangeStart (by simp [slots]), hs p.keyRangeEnd (by simp [slots]),
    hs p.metadata (by simp [slots])]

theorem fromSpecRef_spec (h : Owns debug slab live 0) (spec : ShardSpec) :
    wp (fromSpecRef debug spec) slab
      (fun p slab' => Placed debug slab live p.held slab' ∧ p.view slab' = spec)
      (fun _ slab' => Released debug slab live slab') (MetadataExhausted slab) := by
  refine wp_seq (allocateWithRollback_spec h _) (fun slots slab' hs => ?_)
    (fun _ _ hr => hr) (fun _ hp => hp)
  have hre := hs.reads
  -- three fields come back as three slots
  match slots, hs, hre with
  | [], _, hre => simp at hre
  | [_], _, hre => simp at hre
  | [_, _], _, hre => simp at hre
  | [start, stop, metadata], hs, hre =>
    simp only [map_cons, map_nil, List.cons.injEq, and_true] at hre
    refine ⟨hs.toPlaced, ?_⟩
    simp [view, hre]
  | _ :: _ :: _ :: _ :: _, _, hre => simp at hre

theorem updateFromRef_spec {p : PooledShardSpec} (h : Owns debug slab (p.held + live) 0)
    (newSpec : ShardSpec) :
    wp (p.updateFromRef debug newSpec) slab
      (fun new slab' => Placed debug slab live new.held slab' ∧ new.view slab' = newSpec)
      (fun _ slab' => Released debug slab (p.held + live) slab') (MetadataExhausted slab) := by
  unfold updateFromRef
  refine wp_seq (fromSpecRef_spec h newSpec) (fun new slab1 h1 => ?_) (fun _ _ hr => hr)
    (fun _ hp => hp)
  obtain ⟨hpl, hv⟩ := h1
  have ho := hpl.owns
  rw [← add_assoc, Multiset.add_comm new.held, add_assoc] at ho
  refine wp_seq (deallocateAll_spec ho) (fun _ slab2 h2 => ?_) (fun _ _ hf => hf.elim)
    (fun _ hp => hp.of_capacity hpl.capacity)
  exact ⟨⟨h2.owns, (hpl.same.mono le_add_self).trans
    (h2.same.mono le_add_self), h2.capacity.trans hpl.capacity⟩,
    (view_congr h2.same le_self_add).trans hv⟩

end PooledShardSpec

/-! ## Cursors -/

namespace PooledCursor

def slots (p : PooledCursor) : List ByteSlot := p.lastKey.toList ++ p.token.toList

def held (p : PooledCursor) : Multiset ByteSlot := heldAll p.slots

def view (slab : ByteSlab) (p : PooledCursor) : CursorValue :=
  ⟨p.lastKey.map slab.readSlot, p.token.map slab.readSlot⟩

theorem view_congr {p : PooledCursor} (h : ByteSlab.SameReads live slab slab')
    (hp : p.held ≤ live) : p.view slab' = p.view slab := by
  have hs : ∀ s ∈ p.slots, slab'.readSlot s = slab.readSlot s :=
    fun s hs => h.held ((held_le_heldAll hs).trans hp)
  simp only [view, CursorValue.mk.injEq]
  exact ⟨Option.map_congr fun s hm => hs s (by simp [slots, Option.mem_def.mp hm]),
    Option.map_congr fun s hm => hs s (by simp [slots, Option.mem_def.mp hm])⟩

theorem fromUpdate_spec (h : Owns debug slab live 0) (update : CursorUpdate) :
    wp (fromUpdate debug update) slab
      (fun p slab' => Placed debug slab live p.held slab' ∧ p.view slab' = update.value)
      (fun _ slab' => Released debug slab live slab') (MetadataExhausted slab) := by
  unfold fromUpdate
  refine wp_seq (allocateWithRollback_spec h _) (fun slots slab' hs => ?_)
    (fun _ _ hr => hr) (fun _ hp => hp)
  have hre := hs.reads
  match slots, hs, hre with
  | [], _, hre => simp at hre
  | [_], _, hre => simp at hre
  | [lastKey, token], hs, hre =>
    simp only [map_cons, map_nil, List.cons.injEq, and_true] at hre
    -- the slot of an absent field is empty, so dropping it loses nothing
    have hd : ∀ (o : Option Bytes) (s : ByteSlot), slab'.readSlot s = o.getD [] →
        heldAll (o.map fun _ => s).toList = s.held ∧ (o.map fun _ => s).map slab'.readSlot = o := by
      intro o s hrea
      cases o with
      | some data => simpa using hrea
      | none =>
        have hl := congrArg length hrea
        rw [ByteSlab.length_readSlot] at hl
        simp [ByteSlot.held, ByteSlot.isEmpty, show s.len = 0 by simpa using hl]
    obtain ⟨hk, hkv⟩ := hd _ _ hre.1
    obtain ⟨ht, htv⟩ := hd _ _ hre.2
    refine ⟨⟨?_, hs.same, hs.capacity⟩, ?_⟩
    · have ho := hs.owns
      simp only [heldAll_cons, heldAll_nil, add_zero] at ho
      simp only [held, PooledCursor.slots, heldAll_append, hk, ht]
      exact ho
    · simp [view, CursorUpdate.value, hkv, htv]
  | _ :: _ :: _ :: _, _, hre => simp at hre

theorem updateFromRef_spec {p : PooledCursor} (h : Owns debug slab (p.held + live) 0)
    (update : CursorUpdate) :
    wp (p.updateFromRef debug update) slab
      (fun new slab' => Placed debug slab live new.held slab' ∧ new.view slab' = update.value)
      (fun _ slab' => Released debug slab (p.held + live) slab') (MetadataExhausted slab) := by
  unfold updateFromRef
  refine wp_seq (fromUpdate_spec h update) (fun new slab1 h1 => ?_) (fun _ _ hr => hr)
    (fun _ hp => hp)
  obtain ⟨hpl, hv⟩ := h1
  have ho := hpl.owns
  rw [← add_assoc, Multiset.add_comm new.held, add_assoc] at ho
  refine wp_seq (deallocateAll_spec ho) (fun _ slab2 h2 => ?_) (fun _ _ hf => hf.elim)
    (fun _ hp => hp.of_capacity hpl.capacity)
  exact ⟨⟨h2.owns, (hpl.same.mono le_add_self).trans
    (h2.same.mono le_add_self), h2.capacity.trans hpl.capacity⟩,
    (view_congr h2.same le_self_add).trans hv⟩

end PooledCursor

/-! ## Spawned lists -/

theorem exists_word : ∀ {a : Bytes}, 8 ≤ a.length → ∃ x1 x2 x3 x4 x5 x6 x7 x8 rest,
    a = x1 :: x2 :: x3 :: x4 :: x5 :: x6 :: x7 :: x8 :: rest
  | x1 :: x2 :: x3 :: x4 :: x5 :: x6 :: x7 :: x8 :: rest, _ =>
    ⟨x1, x2, x3, x4, x5, x6, x7, x8, rest, rfl⟩
  | [], h | [_], h | [_, _], h | [_, _, _], h | [_, _, _, _], h | [_, _, _, _, _], h
  | [_, _, _, _, _, _], h | [_, _, _, _, _, _, _], h => by simp at h

theorem decodeShardIds_append : ∀ (n : Nat) (a b : Bytes), a.length = n * 8 →
    decodeShardIds (a ++ b) = decodeShardIds a ++ decodeShardIds b
  | 0, a, b, h => by
    rw [Nat.zero_mul, length_eq_zero_iff] at h
    subst h
    rfl
  | n + 1, a, b, h => by
    obtain ⟨_, _, _, _, _, _, _, _, rest, rfl⟩ := exists_word (a := a) (by omega)
    simp only [length_cons] at h
    simp [cons_append, decodeShardIds, decodeShardIds_append n rest b (by omega)]

theorem length_decodeShardIds : ∀ (n : Nat) (a : Bytes), a.length = n * 8 →
    (decodeShardIds a).length = n
  | 0, a, h => by
    rw [Nat.zero_mul, length_eq_zero_iff] at h
    subst h
    rfl
  | n + 1, a, h => by
    obtain ⟨_, _, _, _, _, _, _, _, rest, rfl⟩ := exists_word (a := a) (by omega)
    simp only [length_cons] at h
    simp [decodeShardIds, length_cons, length_decodeShardIds n rest (by omega)]

variable {p : PooledSpawned}

namespace PooledSpawned

def held (p : PooledSpawned) : Multiset ByteSlot := p.slot.held

def view (slab : ByteSlab) (p : PooledSpawned) : List ShardId :=
  decodeShardIds (slab.readSlot p.slot)

/-- The slot holds exactly `len` packed ids. -/
def WellFormed (p : PooledSpawned) : Prop := p.slot.len = p.len * 8

theorem wellFormed_new : PooledSpawned.new.WellFormed := rfl

theorem length_view (h : p.WellFormed) (slab) : (p.view slab).length = p.len :=
  length_decodeShardIds _ _ ((slab.length_readSlot _).trans h)

theorem view_congr (h : ByteSlab.SameReads live slab slab') (hp : p.held ≤ live) :
    p.view slab' = p.view slab := by
  rw [view, view, h.held hp]

theorem bytes_ok (h : Owns debug slab live 0) (hp : p.held ≤ live) (hwf : p.WellFormed) :
    (p.bytes debug slab : Run ε Bytes) = .ok (slab.readSlot p.slot) := by
  have hl : (slab.readSlot p.slot).length = p.len * 8 := (slab.length_readSlot _).trans hwf
  simp [bytes, h.get_held hp, ok_bind, debugAssert_of_true hl, pure_eq]

theorem iter_ok (h : Owns debug slab live 0) (hp : p.held ≤ live) (hwf : p.WellFormed) :
    (p.iter debug slab : Run ε (List ShardId)) = .ok (p.view slab) := by
  simp [iter, bytes_ok h hp hwf, ok_bind, pure_eq, view]

theorem allocateAppendedSlot_spec (h : Owns debug slab live 0) (hp : p.held ≤ live)
    (hwf : p.WellFormed) (hn : additional ≠ [])
    (hca : p.len + additional.length ≤ maxSpawnedPerShard) :
    wp (p.allocateAppendedSlot debug additional) slab
      (fun staged slab' => Placed debug slab live staged.held slab' ∧
        staged.view slab' = p.view slab ++ additional ∧ staged.WellFormed)
      (fun _ slab' => slab' = slab) (fun _ => False) := by
  have hl : (slab.readSlot p.slot).length = p.len * 8 := (slab.length_readSlot _).trans hwf
  have hc : (if p.len = 0 then .ok [] else do
      let data ← p.bytes debug slab
      Outcome.assert (data.length = p.len * 8) .spawnedLength
      return data : Run SlabFull Bytes) = .ok (slab.readSlot p.slot) := by
    split
    next hz =>
      rw [hz, Nat.zero_mul, length_eq_zero_iff] at hl
      rw [hl]
    · simp [bytes_ok h hp hwf, ok_bind, assert_of_true hl, pure_eq]
  unfold allocateAppendedSlot
  rw [if_neg hn]
  simp only [wp_bind, Prog.wp_lift, debugAssert_of_true hn, post_ok,
    assert_of_true hca, Prog.wp_get, hc]
  refine wp_mono (allocate_spec h _) (fun slot slab' ha => ?_) (fun _ _ he => he) (fun _ hf => hf)
  refine ⟨⟨ha.owns, ha.same, ha.capacity⟩, ?_, ?_⟩
  · rw [view, ha.reads, decodeShardIds_append _ _ _ hl, decode_encodeShardIds, view]
  · rw [WellFormed, ha.len, length_append, hl, length_encodeShardIds, Nat.add_mul]

theorem installSlot_spec (staged) (h : Owns debug slab (p.held + live) 0) :
    wp (p.installSlot debug staged : Prog ByteSlab Panic ε PooledSpawned) slab
      (fun r slab' => r = staged ∧ Released debug slab live slab') (fun _ _ => False)
      (MetadataExhausted slab) := by
  unfold installSlot
  rw [wp_bind]
  exact wp_mono (deallocate_spec h) (fun _ _ hr => ⟨rfl, hr⟩) (fun _ _ hf => hf) (fun _ hp => hp)

end PooledSpawned

end GossipRs
