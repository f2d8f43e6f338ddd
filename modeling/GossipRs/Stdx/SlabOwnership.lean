import GossipRs.Stdx.ByteSlab
import GossipRs.Lib.Span

/-! Ownership of the byte slab. `Owns` says which slots are live: together with the
free blocks they tile the slab up to its bump pointer, and all of its counters
are sums over the two. A slot that is allocated joins the live ones, a slot that is
released leaves them, and no other live slot reads differently afterwards.

In the middle of an operation a block can be neither free nor live: taken from the
free list and not handed out yet, or released and not back in the list yet. Such
blocks are `pending`. -/

namespace GossipRs.Stdx

open Lib Outcome List
open ByteSlab (assertSlot blocksBefore blocksFrom)
open Multiset (add_cons map_add map_coe map_zero mem_add mem_map_of_mem sum_add sum_coe sum_zero)

variable {ε : Type}

def Block.span (b : Block) : Span := ⟨b.offset, b.size⟩

def Block.stop (b : Block) : Nat := b.offset + b.size

def ByteSlot.span (s : ByteSlot) : Span := ⟨s.offset, s.allocSize⟩

structure Block.Aligned (b : Block) : Prop where
  offset_dvd : minBlock ∣ b.offset
  size_dvd : minBlock ∣ b.size
  size_pos : 0 < b.size

structure ByteSlot.Valid (ownerId : Nat) (s : ByteSlot) : Prop where
  offset_dvd : minBlock ∣ s.offset
  size_dvd : minBlock ∣ s.allocSize
  len_pos : 0 < s.len
  len_le : s.len ≤ s.allocSize
  owner : s.ownerId = ownerId

/-- Free blocks in order, with live memory between any two. -/
def Coalesced (l : List Block) : Prop := l.Pairwise fun a b => a.stop < b.offset

def Poisoned (buf : Nat → UInt8) (b : Block) : Prop :=
  ∀ p, b.offset ≤ p → p < b.stop → buf p = poison

structure Owns (debug : Bool) (slab : ByteSlab) (live : Multiset ByteSlot)
    (pending : Multiset Block) : Prop where
  tiles : Tiles
    (live.map ByteSlot.span + ((slab.freeList : Multiset Block) + pending).map Block.span)
    slab.bump
  coalesced : Coalesced slab.freeList
  aligned : ∀ b ∈ (slab.freeList : Multiset Block) + pending, b.Aligned
  slots : ∀ s ∈ live, s.Valid slab.ownerId
  freeBytes_eq : (slab.freeList.map Block.size).sum = slab.freeBytes
  liveBytes_eq : (live.map ByteSlot.allocSize).sum = slab.liveBytes
  liveCount_eq : live.card = slab.liveCount
  total : slab.liveBytes + (((slab.freeList : Multiset Block) + pending).map Block.size).sum =
    slab.bump
  bump_dvd : minBlock ∣ slab.bump
  bump_le : slab.bump ≤ slab.capacity
  capacity_le : slab.capacity ≤ u32Max
  metadata : slab.freeListCapacity = freeListMetadataCapacity slab.capacity
  room : slab.freeList.length ≤ slab.freeListCapacity
  poisoned : debug = true → ∀ b ∈ slab.freeList, Poisoned slab.buf b

variable {b : Block}

namespace Owns

variable {debug : Bool} {slab slab' : ByteSlab} {live : Multiset ByteSlot}
  {pending : Multiset Block}

theorem slot_stop_le (h : Owns debug slab live pending) (hs : s ∈ live) :
    s.offset + s.allocSize ≤ slab.bump := by
  have hv := h.slots s hs
  exact h.tiles.stop_le (s := s.span) (mem_add.mpr (.inl (mem_map_of_mem _ hs)))
    (Nat.lt_of_lt_of_le hv.len_pos hv.len_le)

theorem block_stop_le (h : Owns debug slab live pending)
    (hb : b ∈ (slab.freeList : Multiset Block) + pending) : b.stop ≤ slab.bump :=
  h.tiles.stop_le (s := b.span) (mem_add.mpr (.inr (mem_map_of_mem _ hb))) (h.aligned b hb).size_pos

theorem freeBytes_add (h : Owns debug slab live pending) :
    slab.liveBytes + slab.freeBytes + (pending.map Block.size).sum = slab.bump := by
  have ht := h.total
  rw [map_add, sum_add, map_coe, sum_coe, h.freeBytes_eq] at ht
  omega

theorem availableBytes_add (h : Owns debug slab live 0) :
    slab.availableBytes + (live.map ByteSlot.allocSize).sum = slab.capacity := by
  have ht := h.freeBytes_add
  have hb := h.bump_le
  rw [h.liveBytes_eq]
  simp only [map_zero, sum_zero, Nat.add_zero] at ht
  simp only [ByteSlab.availableBytes, ByteSlab.availableVirginBytes]
  omega

section

variable (h : Owns debug slab live pending)

include h

theorem liveCount_le :
    minBlock * slab.liveCount ≤ slab.liveBytes := by
  rw [← h.liveCount_eq, ← h.liveBytes_eq]
  rw [Nat.mul_comm, ← Multiset.card_map ByteSlot.allocSize, ← smul_eq_mul]
  refine Multiset.card_nsmul_le_sum (Multiset.forall_mem_map_iff.mpr fun s hs => ?_)
  have hv := h.slots s hs
  exact Nat.le_of_dvd (Nat.lt_of_lt_of_le hv.len_pos hv.len_le) hv.size_dvd

theorem assertSlot_ok (hs : s ∈ live) :
    (assertSlot debug slab s : Run ε Unit) = .ok () := by
  have hv := h.slots s hs
  have hst := h.slot_stop_le hs
  have hc := h.capacity_le
  have hb := h.bump_le
  have ha : (addU32 debug s.offset s.allocSize : Run ε Nat) = .ok (s.offset + s.allocSize) := by
    unfold addU32
    rw [if_pos (by simp [u32Max] at hc; omega)]
  simp [assertSlot, assert_of_true hv.owner,
    assert_of_true hv.len_le, ha, ok_bind, assert_of_true hst]

theorem get_ok (hs : s ∈ live) :
    (slab.get debug s : Run ε Bytes) = .ok (ByteSlab.readAt slab.buf s.offset s.len) := by
  have hv := h.slots s hs
  have hst := h.slot_stop_le hs
  have hb := h.bump_le
  have hn : s.isEmpty = false := by
    have := hv.len_pos
    simp only [ByteSlot.isEmpty, beq_eq_false_iff_ne]
    omega
  have hl := hv.len_le
  simp only [ByteSlab.get, hn, Bool.false_eq_true, if_false, h.assertSlot_ok hs, ok_bind,
    pure_eq, assert_of_true (show s.offset + s.len ≤ slab.capacity by omega)]

theorem regroup (he : live' = live) : Owns debug slab live' pending :=
  he ▸ h

theorem move (pending') (l : List Block)
    (freeBytes : Nat)
    (hm : (l : Multiset Block) + pending' = (slab.freeList : Multiset Block) + pending)
    (hc : Coalesced l) (hf : (l.map Block.size).sum = freeBytes)
    (hr : l.length ≤ slab.freeListCapacity)
    (hp : debug = true → ∀ b ∈ l, Poisoned slab.buf b) :
    Owns debug { slab with freeList := l, freeBytes } live pending' where
  tiles := by rw [hm]; exact h.tiles
  coalesced := hc
  aligned := by rw [hm]; exact h.aligned
  slots := h.slots
  freeBytes_eq := hf
  liveBytes_eq := h.liveBytes_eq
  liveCount_eq := h.liveCount_eq
  total := by rw [hm]; exact h.total
  bump_dvd := h.bump_dvd
  bump_le := h.bump_le
  capacity_le := h.capacity_le
  metadata := h.metadata
  room := hr
  poisoned := hp

end

end Owns

theorem before_append_from (offset) (l) :
    blocksBefore offset l ++ blocksFrom offset l = l :=
  takeWhile_append_dropWhile

variable {offset : Nat} {l : List Block}

theorem offset_lt_of_mem_before (hb : b ∈ blocksBefore offset l) : b.offset < offset := by
  simpa using mem_takeWhile_imp hb

theorem le_offset_of_mem_from (hl : Coalesced l) (hb : b ∈ blocksFrom offset l) :
    offset ≤ b.offset := by
  induction l with
  | nil => simp [blocksFrom] at hb
  | cons a rest ih =>
    obtain ⟨ha, hr⟩ := pairwise_cons.mp hl
    unfold blocksFrom at hb
    rw [dropWhile_cons] at hb
    split at hb
    · exact ih hr hb
    next hlt =>
      have hle : offset ≤ a.offset := by simpa using hlt
      rcases mem_cons.mp hb with rfl | hb
      · exact hle
      have := ha b hb
      unfold Block.stop at this
      omega

theorem mem_of_mem_before (hb : b ∈ blocksBefore offset l) : b ∈ l :=
  (takeWhile_sublist _).subset hb

theorem mem_of_mem_from (hb : b ∈ blocksFrom offset l) : b ∈ l :=
  (dropWhile_sublist _).subset hb

theorem Coalesced.insert (hl : Coalesced l) (hb : ∀ a ∈ l, a.stop < b.offset ∨ b.stop < a.offset) :
    Coalesced (blocksBefore b.offset l ++ b :: blocksFrom b.offset l) := by
  have hs := hl
  rw [← before_append_from b.offset l, Coalesced, pairwise_append] at hs
  obtain ⟨hbe, hf, hcr⟩ := hs
  have hlef : ∀ a ∈ blocksBefore b.offset l, a.stop < b.offset := by
    intro a ha
    have hlt := offset_lt_of_mem_before ha
    rcases hb a (mem_of_mem_before ha) with h | h
    · exact h
    · unfold Block.stop at h
      omega
  have hr : ∀ a ∈ blocksFrom b.offset l, b.stop < a.offset := by
    intro a ha
    have hle := le_offset_of_mem_from hl ha
    rcases hb a (mem_of_mem_from ha) with h | h
    · unfold Block.stop at h
      omega
    · exact h
  refine pairwise_append.mpr ⟨hbe, pairwise_cons.mpr ⟨hr, hf⟩, ?_⟩
  intro a ha c hc
  rcases mem_cons.mp hc with rfl | hc
  · exact hlef a ha
  · exact hcr a ha c hc

/-- Free blocks and the live memory between them take up the segment they lie in. -/
theorem Coalesced.length_le (hl : Coalesced l) (ha : ∀ b ∈ l, b.Aligned)
    (ht : ∀ b ∈ l, b.stop ≤ top) (hba : ∀ b ∈ l, base ≤ b.offset) (hle : base ≤ top) :
    base + 2 * minBlock * l.length ≤ top + minBlock := by
  induction l generalizing base with
  | nil => simp; omega
  | cons a rest ih =>
    obtain ⟨hf, hr⟩ := pairwise_cons.mp hl
    have haa := ha a (by simp)
    have hs := ht a (by simp)
    have hab := hba a (by simp)
    have hsi : minBlock ≤ a.size := Nat.le_of_dvd haa.size_pos haa.size_dvd
    cases rest with
    | nil =>
      simp only [length_cons, length_nil, minBlock, Block.stop] at *
      omega
    | cons b rest =>
      -- the next block starts at least one minimum block after the end of `a`
      have hg : ∀ c ∈ b :: rest, a.stop + minBlock ≤ c.offset := by
        intro c hc
        have hlt := hf c hc
        obtain ⟨_, _⟩ := (ha c (by simp [mem_cons.mp hc])).offset_dvd
        obtain ⟨_, _⟩ := haa.offset_dvd
        obtain ⟨_, _⟩ := haa.size_dvd
        simp only [Block.stop, minBlock] at *
        omega
      have hbt := ht b (by simp)
      have hb := hg b (by simp)
      have := ih hr (fun c hc => ha c (by simp [mem_cons.mp hc]))
        (fun c hc => ht c (by simp [mem_cons.mp hc])) hg
        (by unfold Block.stop at *; omega)
      simp only [length_cons, minBlock, Block.stop] at *
      omega

/-- Slabs whose metadata table has an entry for every block they could ever need. -/
def SmallSlab (capacity : Nat) : Prop := (capacity / minBlock + 1) / 2 ≤ maxFreeListMetadataEntries

namespace ByteSlab

theorem writeAt_inside {buf} (hi : i < data.length) :
    writeAt buf start data (start + i) = data[i] := by
  unfold writeAt
  rw [if_pos (by omega), Nat.add_sub_cancel_left, List.getElem?_eq_getElem hi, Option.getD_some]

theorem writeAt_outside {buf} (h : p < start ∨ start + data.length ≤ p) :
    writeAt buf start data p = buf p := by
  unfold writeAt
  split
  · rw [List.getElem?_eq_none (by omega), Option.getD_none]
  · rfl

theorem readAt_writeAt (buf : Nat → UInt8) (start) (data) :
    readAt (writeAt buf start data) start data.length = data := by
  refine ext_getElem (by simp [readAt]) fun i hi hi' => ?_
  simp only [readAt, getElem_map, getElem_range]
  exact writeAt_inside hi'

theorem readAt_congr {buf} (h : ∀ p, start ≤ p → p < start + len → buf' p = buf p) :
    readAt buf' start len = readAt buf start len := by
  refine map_congr_left fun i hi => ?_
  have := mem_range.mp hi
  exact h _ (by omega) (by omega)

def readSlot (slab : ByteSlab) (s : ByteSlot) : Bytes := readAt slab.buf s.offset s.len

def SameReads (live : Multiset ByteSlot) (slab slab' : ByteSlab) : Prop :=
  ∀ s ∈ live, slab'.readSlot s = slab.readSlot s

theorem SameReads.refl (live) (slab) : SameReads live slab slab :=
  fun _ _ => rfl

theorem SameReads.trans {b} (h1 : SameReads live a b) (h2 : SameReads live b c) :
    SameReads live a c :=
  fun s hs => (h2 s hs).trans (h1 s hs)

theorem SameReads.mono {b} (h : SameReads live a b) (hl : live' ≤ live) :
    SameReads live' a b :=
  fun s hs => h s (Multiset.mem_of_le hl hs)

theorem SameReads.of_buf {b} (h : b.buf = a.buf) : SameReads live a b :=
  fun s _ => by rw [readSlot, readSlot, h]

end ByteSlab

theorem allocSize_spec (hn : n ≠ 0) (h : allocSize n = some needed) :
    n ≤ needed ∧ minBlock ∣ needed ∧ 0 < needed := by
  unfold allocSize at h
  rw [if_neg hn] at h
  split at h
  · exact absurd h (by simp)
  dsimp only at h
  split at h
  · cases h
    unfold nextPowerOfTwo
    have hl : 4 ≤ Nat.clog 2 (max n minBlock) := by
      have h16 : Nat.clog 2 minBlock = 4 := by decide
      rw [← h16]
      exact Nat.clog_mono_right 2 (le_max_right _ _)
    have hle := Nat.le_pow_clog (b := 2) (by decide) (max n minBlock)
    refine ⟨(le_max_left _ _).trans hle, ?_, Nat.pow_pos (by decide)⟩
    exact (show minBlock = 2 ^ 4 from rfl) ▸ Nat.pow_dvd_pow 2 hl
  · exact absurd h (by simp)

def Clear (b : Block) (l : List Block) : Prop := ∀ a ∈ l, a.stop < b.offset ∨ b.stop < a.offset

namespace Owns

variable {debug : Bool} {slab : ByteSlab} {live : Multiset ByteSlot} {pending : Multiset Block}

theorem fresh (h : (ByteSlab.withCapacity capacity ownerId : Run ε ByteSlab) = .ok slab) :
    Owns debug slab 0 0 ∧ slab.capacity = capacity := by
  obtain ⟨hl, h⟩ := check_eq_ok.mp h
  rw [assert_eq_ok] at hl
  cases h
  exact ⟨{
    tiles := by simpa using Tiles.nil
    coalesced := List.Pairwise.nil
    aligned := by simp
    slots := by simp
    freeBytes_eq := rfl
    liveBytes_eq := rfl
    liveCount_eq := rfl
    total := rfl
    bump_dvd := Nat.dvd_zero _
    bump_le := Nat.zero_le _
    capacity_le := hl
    metadata := rfl
    room := Nat.zero_le _
    poisoned := by simp }, rfl⟩

theorem debugAssertInvariants_ok (h : Owns debug slab live 0) :
    (ByteSlab.debugAssertInvariants debug slab : Run ε Unit) = .ok () := by
  have he : ∀ b ∈ slab.freeList, b.offset + b.size ≤ slab.bump :=
    fun b hb => h.block_stop_le (by simpa using hb)
  have hs : slab.liveBytes + slab.freeBytes + (slab.capacity - slab.bump) = slab.capacity := by
    have ht := h.freeBytes_add
    have hb := h.bump_le
    simp only [map_zero, sum_zero] at ht
    omega
  have hc : slab.freeList.IsChain fun prev next => prev.offset + prev.size < next.offset :=
    h.coalesced.isChain
  simp [ByteSlab.debugAssertInvariants, debugAssert_of_true h.bump_le,
    debugAssert_of_true hc, debugAssert_of_true he, debugAssert_of_true h.freeBytes_eq,
    debugAssert_of_true hs, ok_bind]

theorem slot_apart (h : Owns debug slab live pending) (hs : s ∈ live)
    (hb : b ∈ (slab.freeList : Multiset Block) + pending) :
    b.stop ≤ s.offset ∨ s.offset + s.allocSize ≤ b.offset := by
  have hv := h.slots s hs
  obtain ⟨_, rfl⟩ := Multiset.exists_cons_of_mem hs
  have ht := h.tiles
  rw [Multiset.map_cons, Multiset.cons_add] at ht
  exact ht.apart (t := b.span) (mem_add.mpr (.inr (mem_map_of_mem _ hb)))
    (Nat.lt_of_lt_of_le hv.len_pos hv.len_le) (h.aligned b hb).size_pos

theorem block_apart (h : Owns debug slab live (b ::ₘ pending)) (ha : a ∈ slab.freeList) :
    a.stop ≤ b.offset ∨ b.stop ≤ a.offset := by
  have ht := h.tiles
  rw [add_cons, Multiset.map_cons, add_cons] at ht
  have hm : a ∈ (slab.freeList : Multiset Block) + pending := mem_add.mpr (.inl ha)
  exact ht.apart (t := a.span) (mem_add.mpr (.inr (mem_map_of_mem _ hm)))
    (h.aligned b (by simp)).size_pos (h.aligned a (by simp [ha])).size_pos

end Owns

end GossipRs.Stdx
