import GossipRs.Stdx.SlabOwnership

/-! What allocating and releasing do to ownership, stage by stage: a block is taken, split and
written, or released, merged with its neighbours and returned. -/

namespace GossipRs.Stdx

open Lib Outcome
open Block (span stop)
open Multiset (add_comm coe_eq_coe cons_coe map_add map_cons mem_add mem_coe mem_singleton sum_add)
open Multiset (add_cons cons_add sum_cons cons_swap mem_cons map_singleton sum_singleton
  singleton_add card_cons mem_cons_self)
open ByteSlab (bestFit takeBestFit insertFreeBlock blocksFrom blocksBefore splitBlock
  writeAllocation writeAt writeAt_outside readAt_congr debugAssertInvariants allocate readAt
  poisonFreed mergeRight mergeLeft deallocate readSlot)

variable {ε : Type} {debug : Bool} {slab : ByteSlab} {live : Multiset ByteSlot}
    {pending : Multiset Block}

variable {needed : Nat}

theorem bestFit_spec : ∀ {l i best j size}, bestFit needed l i best = some (j, size) →
      best = some (j, size) ∨ ∃ b, i ≤ j ∧ l[j - i]? = some b ∧ needed ≤ b.size
  | [], _, _, _, _, h => .inl h
  | b :: rest, i, best, j, size, h => by
    unfold bestFit at h
    dsimp only at h
    rcases bestFit_spec (l := rest) h with hb | ⟨c, _, hc, hf⟩
    · split at hb
      next hf =>
        -- the head is chosen or the earlier choice stays
        have hh : some (i, b.size) = some (j, size) →
            ∃ c, i ≤ j ∧ (b :: rest)[j - i]? = some c ∧ needed ≤ c.size := by
          intro he
          cases he
          exact ⟨b, Nat.le_refl _, by simp, hf⟩
        split at hb
        · split at hb
          · exact .inr (hh hb)
          · exact .inl hb
        · exact .inr (hh hb)
      · exact .inl hb
    · refine .inr ⟨c, by omega, ?_, hf⟩
      have : j - i = (j - (i + 1)) + 1 := by omega
      rw [this, List.getElem?_cons_succ]
      exact hc

theorem Coalesced.clear_eraseIdx : ∀ {l i b}, Coalesced l →
    l[i]? = some b → Clear b (l.eraseIdx i)
  | a :: rest, 0, b, hl, h => by
    cases h
    exact fun c hc => .inr ((List.pairwise_cons.mp hl).1 c hc)
  | a :: rest, i + 1, b, hl, h => by
    obtain ⟨ha, hr⟩ := List.pairwise_cons.mp hl
    intro c hc
    rcases List.mem_cons.mp hc with rfl | hc
    · exact .inl (ha b (List.mem_of_getElem? h))
    · exact Coalesced.clear_eraseIdx hr h c hc

theorem Owns.unlist (h : Owns debug slab live pending) (hp : slab.freeList.Perm (b :: l))
    (hs : l.Sublist slab.freeList) :
    b.size ≤ slab.freeBytes ∧ l.length < slab.freeListCapacity ∧
      Owns debug { slab with freeList := l, freeBytes := slab.freeBytes - b.size } live
        (b ::ₘ pending) := by
  have hsu := h.freeBytes_eq
  rw [(hp.map Block.size).sum_eq, List.map_cons, List.sum_cons] at hsu
  have hl := hp.length_eq
  have hr := h.room
  rw [List.length_cons] at hl
  refine ⟨by omega, by omega, h.move _ _ _ ?_ (h.coalesced.sublist hs) (by omega) (by omega)
    fun hd c hc => h.poisoned hd c (hs.subset hc)⟩
  rw [coe_eq_coe.mpr hp, ← cons_coe, add_cons, cons_add]

theorem takeBestFit_spec (ε) (h : Owns debug slab live 0) (needed : Nat) :
    (takeBestFit slab needed : Run ε _) = .ok none ∨
    ∃ block slab', (takeBestFit slab needed : Run ε _) = .ok (some (block, slab')) ∧
      Owns debug slab' live {block} ∧ needed ≤ block.size ∧ Clear block slab'.freeList ∧
      (debug = true → Poisoned slab'.buf block) ∧ slab'.buf = slab.buf ∧
      slab'.capacity = slab.capacity ∧ slab'.freeList.length < slab'.freeListCapacity := by
  unfold takeBestFit
  cases hf : bestFit needed slab.freeList 0 none with
  | none => exact .inl rfl
  | some best =>
    obtain ⟨_, size⟩ := best
    rcases bestFit_spec hf with hno | ⟨block, -, hg, hn⟩
    · exact absurd hno (by simp)
    rw [Nat.sub_zero] at hg
    have hm : block ∈ slab.freeList := List.mem_of_getElem? hg
    obtain ⟨hl, hr, ho⟩ := h.unlist (List.getElem_cons_eraseIdx_perm
      (List.getElem?_eq_some_iff.mp hg).1).symm (List.eraseIdx_sublist _ _)
    rw [(List.getElem?_eq_some_iff.mp hg).2] at hl ho
    refine .inr ⟨block, _, ?_, ho, hn, h.coalesced.clear_eraseIdx hg,
      fun hd => h.poisoned hd block hm, rfl, rfl, hr⟩
    simp [Outcome.expect, hg, ok_bind, pure_eq, assert_of_true hl]

/-- A pending block that touches no free one joins the free list, if the metadata table has room. -/
theorem insertFreeBlock_spec (ε) (h : Owns debug slab live (b ::ₘ pending))
    (hc : Clear b slab.freeList) (hpo : debug = true → Poisoned slab.buf b)
    (hr : slab.freeList.length < slab.freeListCapacity) :
    ∃ slab', (insertFreeBlock debug slab b.offset b.size : Run ε _) = .ok (true, slab') ∧
      Owns debug slab' live pending ∧ slab'.buf = slab.buf ∧ slab'.capacity = slab.capacity ∧
      slab'.bump = slab.bump := by
  have hb := h.aligned b (by simp)
  have hby : slab.freeBytes + b.size ≤ u32Max := by
    have h1 := h.freeBytes_add
    have h2 := h.bump_le
    have h3 := h.capacity_le
    rw [map_cons, sum_cons] at h1
    omega
  have hh : ∀ a ∈ (blocksFrom b.offset slab.freeList).head?, a.offset ≠ b.offset := by
    intro a ha
    have hm := mem_of_mem_from (List.mem_of_mem_head? ha)
    have := hb.size_pos
    rcases hc a hm with h' | h' <;> unfold stop at h' <;>
      [have := (h.aligned a (by simp [hm])).size_pos; skip] <;> omega
  have hp : (blocksBefore b.offset slab.freeList ++
      b :: blocksFrom b.offset slab.freeList).Perm (b :: slab.freeList) := by
    refine List.perm_middle.trans ?_
    rw [before_append_from]
  refine ⟨_, ?_, h.move pending (blocksBefore b.offset slab.freeList ++
      b :: blocksFrom b.offset slab.freeList) (slab.freeBytes + b.size) ?_
    (h.coalesced.insert hc) ?_ ?_ ?_, rfl, rfl, rfl⟩
  · unfold insertFreeBlock
    rw [if_neg (by have := hb.size_pos; omega), if_neg (by omega)]
    simp only [debugAssert_of_true hh, assert_of_true hby, ok_bind, pure_eq]
  · rw [coe_eq_coe.mpr hp, add_cons, ← cons_coe, cons_add]
  · rw [(hp.map Block.size).sum_eq, List.map_cons, List.sum_cons, h.freeBytes_eq, Nat.add_comm]
  · rw [hp.length_eq, List.length_cons]
    exact hr
  intro hd a ha
  rcases List.mem_cons.mp (hp.subset ha) with rfl | ha
  · exact hpo hd
  · exact h.poisoned hd a ha

theorem tiles_cut :
    Tiles (spans + (⟨o, a + b⟩ ::ₘ blocks).map span) top ↔
      Tiles (spans + (⟨o, a⟩ ::ₘ ⟨o + a, b⟩ ::ₘ blocks).map span) top := by
  simp only [map_cons, add_cons, span]
  exact Tiles.split

theorem Owns.cut (h : Owns debug slab live (⟨o, a + b⟩ ::ₘ pending)) (hd : minBlock ∣ a)
    (ha : 0 < a) (hb : 0 < b) : Owns debug slab live (⟨o + a, b⟩ ::ₘ ⟨o, a⟩ ::ₘ pending) := by
  have hbl := h.aligned ⟨o, a + b⟩ (by simp)
  have hbd : minBlock ∣ b := (Nat.dvd_add_right hd).mp hbl.size_dvd
  refine { h with tiles := ?_, aligned := ?_, total := ?_ }
  · have ht := h.tiles
    rw [add_cons, tiles_cut] at ht
    rw [cons_swap, add_cons, add_cons]
    exact ht
  · intro c hc
    simp only [add_cons, mem_cons] at hc
    rcases hc with rfl | rfl | hc
    · exact ⟨Nat.dvd_add hbl.offset_dvd hd, hbd, hb⟩
    · exact ⟨hbl.offset_dvd, hd, ha⟩
    · exact h.aligned c (by simp [add_cons, mem_cons, hc, or_true])
  have ht := h.total
  simp only [add_cons, map_cons, sum_cons] at ht ⊢
  omega

theorem Owns.join (h : Owns debug slab live (⟨o, a⟩ ::ₘ ⟨o + a, b⟩ ::ₘ pending)) :
    Owns debug slab live (⟨o, a + b⟩ ::ₘ pending) := by
  have hl := h.aligned ⟨o, a⟩ (by simp)
  have hr := h.aligned ⟨o + a, b⟩ (by simp)
  refine { h with tiles := ?_, aligned := ?_, total := ?_ }
  · have ht := h.tiles
    rw [add_cons, add_cons] at ht
    rw [add_cons, tiles_cut]
    exact ht
  · intro c hc
    simp only [add_cons, mem_cons] at hc
    rcases hc with rfl | hc
    · exact ⟨hl.offset_dvd, Nat.dvd_add hl.size_dvd hr.size_dvd,
        Nat.lt_of_lt_of_le hl.size_pos (Nat.le_add_right _ _)⟩
    · exact h.aligned c (by simp [add_cons, mem_cons, hc, or_true])
  have ht := h.total
  simp only [add_cons, map_cons, sum_cons] at ht ⊢
  omega

variable {block : Block}

/-- Splitting hands out exactly the size asked for: sizes are multiples of the minimum block,
and the entry just taken leaves room for the remainder. -/
theorem splitBlock_spec (ε) (h : Owns debug slab live {block}) (hf : needed ≤ block.size)
    (hdv : minBlock ∣ needed) (hpos : 0 < needed) (hc : Clear block slab.freeList)
    (hp : debug = true → Poisoned slab.buf block)
    (hr : slab.freeList.length < slab.freeListCapacity) :
    ∃ slab', (splitBlock debug slab block needed : Run ε _) = .ok (needed, slab') ∧
      Owns debug slab' live {⟨block.offset, needed⟩} ∧ slab'.buf = slab.buf ∧
      slab'.capacity = slab.capacity := by
  have hb := h.aligned block (by simp)
  have hs := h.block_stop_le (b := block) (by simp)
  have hbu := h.bump_le
  have hca := h.capacity_le
  unfold splitBlock
  dsimp only
  split
  next hre =>
    have hsi : block.size = needed + (block.size - needed) := by omega
    have hcu : Owns debug slab live
        (⟨block.offset + needed, block.size - needed⟩ ::ₘ {⟨block.offset, needed⟩}) := by
      refine Owns.cut ?_ hdv hpos (by simp [minBlock] at hre; omega)
      rw [← hsi]
      exact h
    have hse : Clear ⟨block.offset + needed, block.size - needed⟩ slab.freeList := by
      intro a ha
      have := hc a ha
      simp only [stop] at *
      omega
    have hpo : debug = true → Poisoned slab.buf ⟨block.offset + needed, block.size - needed⟩ := by
      intro hd p h1 h2
      simp only [stop] at h1 h2
      exact hp hd p (by omega) (by simp [stop]; omega)
    obtain ⟨slab', hin, ho, hbuf, hc', -⟩ := insertFreeBlock_spec ε hcu hse hpo hr
    refine ⟨slab', ?_, ho, hbuf, hc'⟩
    simp only [stop] at hs
    rw [assert_of_true (by omega), ok_bind, hin]
    rfl
  next hre =>
    have hz : block.size = needed := by
      obtain ⟨_, hm⟩ := hdv
      obtain ⟨_, hn⟩ := hb.size_dvd
      simp only [minBlock] at hm hn hre
      omega
    refine ⟨slab, by rw [hz]; rfl, ?_, rfl, rfl⟩
    rw [← hz]
    exact h

theorem writeAllocation_spec (ε) {data : Bytes} (h : Owns debug slab live {⟨offset, size⟩})
    (hlen : data.length ≤ size) (hpo : data ≠ []) :
    ∃ slab', (writeAllocation slab offset data.length size data : Run ε _) =
        .ok (⟨offset, data.length, size, slab.ownerId⟩, slab') ∧
      Owns debug slab' (⟨offset, data.length, size, slab.ownerId⟩ ::ₘ live) 0 ∧
      slab'.readSlot ⟨offset, data.length, size, slab.ownerId⟩ = data ∧
      ByteSlab.SameReads live slab slab' ∧ slab'.capacity = slab.capacity := by
  have hbl := h.aligned ⟨offset, size⟩ (by simp)
  have hst := h.block_stop_le (b := ⟨offset, size⟩) (by simp)
  simp only [stop] at hst
  have hbu := h.bump_le
  have hca := h.capacity_le
  have hto := h.freeBytes_add
  rw [map_singleton, sum_singleton] at hto
  dsimp only at hto
  have hc := h.liveCount_le
  have hl : 0 < data.length := List.length_pos_of_ne_nil hpo
  -- bytes outside the block keep their value
  have ho : ∀ p, p < offset ∨ offset + size ≤ p → writeAt slab.buf offset data p = slab.buf p :=
    fun p hp => writeAt_outside (by omega)
  refine ⟨{ slab with
    buf := writeAt slab.buf offset data
    liveBytes := slab.liveBytes + size
    liveCount := slab.liveCount + 1 }, ?_, ?_, ByteSlab.readAt_writeAt _ _ _, ?_, rfl⟩
  · unfold writeAllocation
    rw [assert_of_true (by omega), ok_bind, assert_of_true (by omega),
      ok_bind, assert_of_true (by simp [minBlock, u32Max] at *; omega)]
    rfl
  · refine { h with
      tiles := ?_, aligned := ?_, slots := ?_, liveBytes_eq := ?_, liveCount_eq := ?_,
      total := ?_, poisoned := ?_ }
    · have ht := h.tiles
      rw [map_add, map_singleton, ← add_assoc, add_comm, singleton_add] at ht
      rw [add_zero, map_cons, cons_add]
      exact ht
    · intro b hb
      exact h.aligned b (by simp at hb; simp [mem_coe.mp hb])
    · intro s hs
      rcases Multiset.mem_cons.mp hs with rfl | hs
      · exact ⟨hbl.offset_dvd, hbl.size_dvd, hl, hlen, rfl⟩
      · exact h.slots s hs
    · rw [map_cons, sum_cons, h.liveBytes_eq, Nat.add_comm]
    · rw [card_cons, h.liveCount_eq]
    · have ht := h.total
      rw [map_add, sum_add, map_singleton, sum_singleton] at ht
      rw [add_zero]
      dsimp only at ht ⊢
      omega
    intro hd b hb p h1 h2
    have ha := Owns.block_apart (b := ⟨offset, size⟩) h hb
    simp only [stop] at ha h2
    refine (ho p (by omega)).trans ?_
    exact h.poisoned hd b hb p h1 (by simp [stop]; omega)
  · intro s hs
    have ha := h.slot_apart hs (b := ⟨offset, size⟩) (by simp)
    have hv := h.slots s hs
    have hle := hv.len_le
    simp only [stop] at ha
    exact readAt_congr fun p h1 h2 => ho p (by omega)

theorem Owns.grow (h : Owns debug slab live 0) (hd : minBlock ∣ needed) (hp : 0 < needed)
    (hl : slab.bump + needed ≤ slab.capacity) :
    Owns debug { slab with bump := slab.bump + needed } live {⟨slab.bump, needed⟩} := by
  refine { h with
    tiles := ?_, aligned := ?_, total := ?_, bump_dvd := Nat.dvd_add h.bump_dvd hd,
    bump_le := hl }
  · have ht := h.tiles.grow needed
    rw [add_zero] at ht
    rw [map_add, map_singleton, ← add_assoc, add_comm, singleton_add]
    exact ht
  · intro b hb
    rcases mem_add.mp hb with hb | hb
    · exact h.aligned b (mem_add.mpr (.inl hb))
    · rw [mem_singleton.mp hb]
      exact ⟨h.bump_dvd, hd, hp⟩
  have ht := h.total
  rw [add_zero] at ht
  rw [map_add, sum_add, map_singleton, sum_singleton]
  dsimp only
  omega

def ByteSlot.held (s : ByteSlot) : Multiset ByteSlot := if s.isEmpty then 0 else {s}

@[simp] theorem ByteSlot.held_empty : ByteSlot.empty.held = 0 := rfl

theorem ByteSlot.held_of_len {s : ByteSlot} (h : 0 < s.len) : s.held = {s} := by
  rw [held, if_neg (by simp [isEmpty, beq_iff_eq]; omega)]

structure Allocated (debug : Bool) (slab : ByteSlab) (live : Multiset ByteSlot) (data : Bytes)
    (slot : ByteSlot) (slab' : ByteSlab) : Prop where
  owns : Owns debug slab' (slot.held + live) 0
  reads : slab'.readSlot slot = data
  len : slot.len = data.length
  same : ByteSlab.SameReads live slab slab'
  capacity : slab'.capacity = slab.capacity

theorem Allocated.of_write (ε) (slab0 : ByteSlab) {data : Bytes}
    (h : Owns debug slab live {⟨offset, needed⟩}) (hl : data.length ≤ needed) (hp : data ≠ [])
    (hs : ByteSlab.SameReads live slab0 slab) (hc : slab.capacity = slab0.capacity) :
    ∃ slot slab', (do
        let (slot, slab) ← writeAllocation slab offset data.length needed data
        debugAssertInvariants debug slab
        return (slot, slab) : Run ε _) = .ok (slot, slab') ∧
      Allocated debug slab0 live data slot slab' := by
  obtain ⟨slab', hw, ho, hr, hs', hc'⟩ := writeAllocation_spec ε h hl hp
  refine ⟨_, slab', ?_, ?_, hr, rfl, hs.trans hs', hc'.trans hc⟩
  · simp [hw, ok_bind, ho.debugAssertInvariants_ok, pure_eq]
  · rw [ByteSlot.held_of_len (List.length_pos_of_ne_nil hp), singleton_add]
    exact ho

/-- **Allocation** stores the bytes in memory of their own, or leaves the slab as it was. It does
not panic. -/
theorem allocate_spec (h : Owns debug slab live 0) (data : Bytes) :
    Prog.wp (allocate debug data) slab (Allocated debug slab live data)
      (fun _ slab' => slab' = slab) (fun _ => False) := by
  unfold Prog.wp allocate
  split
  next hni =>
    exact ⟨by simpa using h, by rw [hni]; rfl, by rw [hni]; rfl, .refl _ _, rfl⟩
  rename_i hne
  have hpos : data.length ≠ 0 := by simpa using hne
  cases hsi : allocSize data.length with
  | none => rfl
  | some needed =>
    obtain ⟨hl, hdv, hn⟩ := allocSize_spec hpos hsi
    rcases takeBestFit_spec (SlabFull × ByteSlab) h needed with ht |
      ⟨block, _, ht, ho1, hf, hc, hp, hb1, hc1, hr⟩
    · -- nothing fits in the free list: grow the bump pointer
      simp only [ht, ok_bind]
      split
      next hle =>
        obtain ⟨slot, slab', he, hs⟩ := Allocated.of_write (SlabFull × ByteSlab) slab
          (h.grow hdv hn hle.2) hl hne (.of_buf rfl) rfl
        rw [he]
        exact hs
      · rfl
    · obtain ⟨slab2, hsp, ho2, hb2, hc2⟩ := splitBlock_spec (SlabFull × ByteSlab)
        ho1 hf hdv hn hc hp hr
      have hpo : debug = false ∨ ∀ b ∈ readAt slab2.buf block.offset needed, b = poison := by
        cases hd : debug with
        | false => exact .inl rfl
        | true =>
          refine .inr fun b hb => ?_
          obtain ⟨_, hi, rfl⟩ := List.mem_map.mp hb
          have := List.mem_range.mp hi
          rw [hb2]
          exact hp hd _ (by omega) (by simp [stop]; omega)
      obtain ⟨slot, slab', he, hs⟩ := Allocated.of_write (SlabFull × ByteSlab) slab
        ho2 hl hne (.of_buf (hb2.trans hb1)) (hc2.trans hc1)
      simp only [ht, ok_bind, hsp, debugAssert, assert_of_true hpo]
      rw [he]
      exact hs

variable {slot : ByteSlot}

/-- Releasing a slot makes its memory a pending block; the bytes of the block may change on the way.
-/
theorem Owns.releaseSlot (h : Owns debug slab (slot ::ₘ live) 0)
    (hbu : ∀ p, p < slot.offset ∨ slot.offset + slot.allocSize ≤ p → buf p = slab.buf p) :
    Owns debug { slab with
      buf, liveBytes := slab.liveBytes - slot.allocSize, liveCount := slab.liveCount - 1 } live
      {⟨slot.offset, slot.allocSize⟩} := by
  have hm : slot ∈ slot ::ₘ live := mem_cons_self slot live
  have hv := h.slots slot hm
  have hby := h.liveBytes_eq
  rw [map_cons, sum_cons] at hby
  refine { h with
    tiles := ?_, aligned := ?_, slots := fun s hs => h.slots s (Multiset.mem_cons_of_mem hs),
    liveBytes_eq := ?_, liveCount_eq := ?_, total := ?_, poisoned := ?_ }
  · have ht := h.tiles
    rw [add_zero, map_cons, cons_add] at ht
    rw [map_add, map_singleton, ← add_assoc, add_comm, singleton_add]
    exact ht
  · intro b hb
    rcases mem_add.mp hb with hb | hb
    · exact h.aligned b (mem_add.mpr (.inl hb))
    · rw [mem_singleton.mp hb]
      exact ⟨hv.offset_dvd, hv.size_dvd, Nat.lt_of_lt_of_le hv.len_pos hv.len_le⟩
  · dsimp only
    omega
  · have hc := h.liveCount_eq
    rw [card_cons] at hc
    dsimp only
    omega
  · have ht := h.total
    rw [add_zero] at ht
    rw [map_add, sum_add, map_singleton, sum_singleton]
    dsimp only
    omega
  intro hd b hb p h1 h2
  have ha := h.slot_apart hm (b := b) (mem_add.mpr (.inl hb))
  simp only [stop] at ha h2
  exact (hbu p (by omega)).trans (h.poisoned hd b hb p h1 h2)

theorem poisonFreed_spec (ε) (h : Owns debug slab (slot ::ₘ live) 0) :
    ∃ buf, (poisonFreed debug slab slot : Run ε _) = .ok { slab with buf } ∧
      (∀ p, p < slot.offset ∨ slot.offset + slot.allocSize ≤ p → buf p = slab.buf p) ∧
      (debug = true → Poisoned buf ⟨slot.offset, slot.allocSize⟩) := by
  have hm : slot ∈ slot ::ₘ live := mem_cons_self slot live
  have hs := h.slot_stop_le hm
  have hbu := h.bump_le
  unfold poisonFreed
  cases hd : debug with
  | false => exact ⟨slab.buf, rfl, fun _ _ => rfl, by simp⟩
  | true =>
    have hf : ∀ b ∈ slab.freeList,
        slot.offset + slot.allocSize ≤ b.offset ∨ b.offset + b.size ≤ slot.offset := by
      intro b hb
      exact (h.slot_apart hm (b := b) (mem_add.mpr (.inl hb))).symm
    refine ⟨writeAt slab.buf slot.offset (List.replicate slot.allocSize poison), ?_, ?_, ?_⟩
    · simp only [if_true, assert_of_true hf, ok_bind, pure_eq,
        assert_of_true (show slot.offset + slot.allocSize ≤ slab.capacity by omega)]
    · intro p hp
      exact writeAt_outside (by rw [List.length_replicate]; exact hp)
    intro _ p h1 h2
    simp only [stop] at h1 h2
    obtain ⟨_, rfl⟩ := Nat.exists_eq_add_of_le h1
    rw [ByteSlab.writeAt_inside (by rw [List.length_replicate]; omega), List.getElem_replicate]

/-- What merging keeps: the grown block is pending in place of the old one. -/
structure Merged (debug : Bool) (slab : ByteSlab) (live : Multiset ByteSlot) (block' : Block)
    (slab' : ByteSlab) : Prop where
  owns : Owns debug slab' live {block'}
  poisoned : debug = true → Poisoned slab'.buf block'
  buf : slab'.buf = slab.buf
  capacity : slab'.capacity = slab.capacity

theorem Poisoned.join (ha : Poisoned buf a) (hb : Poisoned buf b) (hab : a.stop = b.offset)
    (ho : c.offset = a.offset) (hs : c.stop = b.stop) : Poisoned buf c := by
  intro p h1 h2
  by_cases hp : p < a.stop
  · exact ha p (by omega) hp
  · exact hb p (by omega) (by omega)

theorem mergeRight_spec (ε) (h : Owns debug slab live {block})
    (hp : debug = true → Poisoned slab.buf block) :
    ∃ block' slab', (mergeRight slab block : Run ε _) = .ok (block', slab') ∧
      Merged debug slab live block' slab' ∧
      ∀ a ∈ slab'.freeList, a.stop ≤ block'.offset ∨ block'.stop < a.offset := by
  have hbl := h.aligned block (by simp)
  have hb := h.freeBytes_add
  rw [map_singleton, sum_singleton] at hb
  have hbu := h.bump_le
  have hca := h.capacity_le
  have hs := before_append_from (block.offset + block.size) slab.freeList
  have hap : ∀ a ∈ slab.freeList, a.stop ≤ block.offset ∨ block.stop ≤ a.offset :=
    fun a ha => Owns.block_apart (b := block) h ha
  unfold mergeRight
  dsimp only
  cases hf : blocksFrom (block.offset + block.size) slab.freeList with
  | nil =>
    refine ⟨block, slab, rfl, ⟨h, hp, rfl, rfl⟩, fun a ha => ?_⟩
    rw [hf, List.append_nil] at hs
    have hlt := offset_lt_of_mem_before (hs ▸ ha)
    rcases hap a ha with h' | h'
    · exact .inl h'
    · simp only [stop] at h'
      omega
  | cons right rest =>
    have hr : right ∈ slab.freeList := mem_of_mem_from (hf ▸ List.mem_cons_self)
    have hc := h.coalesced
    rw [← hs, hf, Coalesced, List.pairwise_append, List.pairwise_cons] at hc
    obtain ⟨_, ⟨hrr, _⟩, _⟩ := hc
    have hrp := (h.aligned right (by simp [hr])).size_pos
    dsimp only
    split
    next had =>
      have hl := hs.symm
      rw [hf] at hl
      obtain ⟨_, -, hm⟩ := h.unlist ((List.Perm.of_eq hl).trans List.perm_middle)
        (((List.sublist_cons_self right rest).append_left _).trans (by rw [← hl]))
      rw [show right ::ₘ {block} = block ::ₘ {right} from cons_swap _ _ _] at hm
      have hj : Owns debug _ live {⟨block.offset, block.size + right.size⟩} :=
        Owns.join (by rw [← had]; exact hm)
      refine ⟨_, _, ?_, ⟨hj, fun hd => ?_, rfl, rfl⟩, fun a ha => ?_⟩
      · rw [assert_of_true (by omega), ok_bind, assert_of_true (by omega)]
        rfl
      · refine (hp hd).join (h.poisoned hd right hr) had.symm rfl ?_
        simp only [stop]
        omega
      rcases List.mem_append.mp ha with ha | ha
      · have hlt := offset_lt_of_mem_before ha
        rcases hap a (mem_of_mem_before ha) with h' | h' <;>
          simp only [stop] at h' ⊢ <;> omega
      have := hrr a ha
      simp only [stop] at this ⊢
      omega
    next had =>
      refine ⟨block, slab, rfl, ⟨h, hp, rfl, rfl⟩, fun a ha => ?_⟩
      rcases hap a ha with h' | h'
      · exact .inl h'
      -- the entries from the partition point on start after the head, which is not adjacent
      have hfr := le_offset_of_mem_from h.coalesced (hf ▸ List.mem_cons_self :
        right ∈ blocksFrom (block.offset + block.size) slab.freeList)
      rw [← hs, hf, List.mem_append, List.mem_cons] at ha
      simp only [stop] at h' ⊢
      rcases ha with ha | rfl | ha
      · have := offset_lt_of_mem_before ha
        omega
      · omega
      have := hrr a ha
      simp only [stop] at this
      omega

theorem mergeLeft_spec (ε) (h : Owns debug slab live {block})
    (hp : debug = true → Poisoned slab.buf block)
    (hc : ∀ a ∈ slab.freeList, a.stop ≤ block.offset ∨ block.stop < a.offset) :
    ∃ block' slab', (mergeLeft slab block : Run ε _) = .ok (block', slab') ∧
      Merged debug slab live block' slab' ∧ Clear block' slab'.freeList := by
  have hbl := h.aligned block (by simp)
  have hby := h.freeBytes_add
  rw [map_singleton, sum_singleton] at hby
  have hbu := h.bump_le
  have hca := h.capacity_le
  have hs := before_append_from block.offset slab.freeList
  -- an entry that starts before the block and does not touch it ends before it
  have hb : ∀ a ∈ blocksBefore block.offset slab.freeList, a.stop ≤ block.offset := by
    intro a ha
    have hlt := offset_lt_of_mem_before ha
    rcases hc a (mem_of_mem_before ha) with h' | h'
    · exact h'
    · simp only [stop] at h'
      omega
  have haf : ∀ a ∈ blocksFrom block.offset slab.freeList, block.stop < a.offset := by
    intro a ha
    have hle := le_offset_of_mem_from h.coalesced ha
    have hme := mem_of_mem_from ha
    have hap := (h.aligned a (by simp [hme])).size_pos
    rcases hc a hme with h' | h'
    · simp only [stop] at h'
      omega
    · exact h'
  unfold mergeLeft
  cases hl : (blocksBefore block.offset slab.freeList).getLast? with
  | none =>
    rw [List.getLast?_eq_none_iff] at hl
    refine ⟨block, slab, rfl, ⟨h, hp, rfl, rfl⟩, fun a ha => .inr ?_⟩
    rw [← hs, hl, List.nil_append] at ha
    exact haf a ha
  | some left =>
    obtain ⟨init, hin⟩ := List.getLast?_eq_some_iff.mp hl
    have hlef : left ∈ slab.freeList := mem_of_mem_before (List.mem_of_getLast? hl)
    have hco := h.coalesced
    rw [← hs, hin, Coalesced, List.append_assoc, List.singleton_append,
      List.pairwise_append, List.pairwise_cons] at hco
    obtain ⟨_, ⟨_, _⟩, hcr⟩ := hco
    dsimp only
    split
    next had =>
      have hdr : (blocksBefore block.offset slab.freeList).dropLast = init := by
        rw [hin, List.dropLast_concat]
      have hli := hs.symm
      rw [hin, List.append_assoc, List.singleton_append] at hli
      obtain ⟨hle, -, hm⟩ := h.unlist ((List.Perm.of_eq hli).trans List.perm_middle)
        (((List.sublist_cons_self left _).append_left _).trans (by rw [← hli]))
      have hj : Owns debug _ live {⟨left.offset, left.size + block.size⟩} :=
        Owns.join (by rw [had]; exact hm)
      rw [Nat.add_comm left.size] at hj
      refine ⟨_, _, ?_, ⟨hj, fun hd => ?_, rfl, rfl⟩, fun a ha => ?_⟩
      · rw [assert_of_true (by omega), ok_bind, assert_of_true (by omega), hdr]
        rfl
      · refine (h.poisoned hd left hlef).join (hp hd) had rfl ?_
        simp only [stop]
        omega
      rcases List.mem_append.mp ha with ha | ha
      · exact .inl (hcr a ha left List.mem_cons_self)
      have := haf a ha
      simp only [stop] at this ⊢
      omega
    next had =>
      refine ⟨block, slab, rfl, ⟨h, hp, rfl, rfl⟩, fun a ha => ?_⟩
      rw [← hs, List.mem_append] at ha
      rcases ha with ha | ha
      · left
        have hlt := offset_lt_of_mem_before (List.mem_of_getLast? hl)
        have hle := hb a ha
        rw [hin, List.mem_append, List.mem_singleton] at ha
        rcases ha with ha | rfl
        · have := hcr a ha left List.mem_cons_self
          omega
        · simp only [stop] at hle ⊢
          omega
      · exact .inr (haf a ha)

theorem Owns.shrink (h : Owns debug slab live {block})
    (hto : block.offset + block.size = slab.bump) :
    Owns debug { slab with bump := block.offset } live 0 := by
  have hbl := h.aligned block (by simp)
  refine { h with
    tiles := ?_, aligned := ?_, total := ?_, bump_dvd := hbl.offset_dvd, bump_le := ?_ }
  · have ht := h.tiles
    rw [map_add, map_singleton, ← add_assoc, add_comm, singleton_add, ← hto] at ht
    rw [add_zero]
    exact ht.shrink (s := block.span)
  · intro b hb
    exact h.aligned b (by simp at hb; simp [mem_coe.mp hb])
  · have ht := h.total
    rw [map_add, sum_add, map_singleton, sum_singleton] at ht
    rw [add_zero]
    dsimp only
    omega
  have := h.bump_le
  dsimp only
  omega

/-- In a small slab the metadata table always has room for one more block: blocks are apart by at
least as much as they are long. -/
theorem Owns.room_of_small (h : Owns debug slab live {block}) (hc : Clear block slab.freeList)
    (hs : SmallSlab slab.capacity) : slab.freeList.length < slab.freeListCapacity := by
  have hp : (blocksBefore block.offset slab.freeList ++
      block :: blocksFrom block.offset slab.freeList).Perm (block :: slab.freeList) := by
    refine List.perm_middle.trans ?_
    rw [before_append_from]
  have hme : ∀ b ∈ blocksBefore block.offset slab.freeList ++
      block :: blocksFrom block.offset slab.freeList,
      b ∈ (slab.freeList : Multiset Block) + {block} := by
    intro b hb
    rcases List.mem_cons.mp (hp.subset hb) with rfl | hb
    · simp
    · simp [hb]
  have hl := (h.coalesced.insert hc).length_le (fun b hb => h.aligned b (hme b hb))
    (fun b hb => h.block_stop_le (hme b hb)) (fun b _ => Nat.zero_le b.offset) (Nat.zero_le _)
  rw [hp.length_eq, List.length_cons] at hl
  have hbu := h.bump_le
  have hm := h.metadata
  rw [freeListMetadataCapacity, Nat.min_eq_left hs] at hm
  rw [hm]
  simp only [minBlock] at hl ⊢
  omega

/-- The last stage of a release: the merged block goes back to the virgin region or the free list.
-/
theorem returnBlock_spec (h : Owns debug slab live {block}) (hc : Clear block slab.freeList)
    (hp : debug = true → Poisoned slab.buf block) : ((do
      if block.offset + block.size = slab.bump then
        let slab := { slab with bump := block.offset }
        debugAssertInvariants debug slab
        return ((), slab)
      else
        let (inserted, slab) ← insertFreeBlock debug slab block.offset block.size
        Outcome.assert inserted .slabFreeListMetadataExhausted
        debugAssertInvariants debug slab
        return ((), slab)) : Run ε (Unit × ByteSlab)).Post
      (fun r => Owns debug r.2 live 0 ∧ r.2.buf = slab.buf ∧ r.2.capacity = slab.capacity)
      (fun _ => False)
      (fun p => p = .slabFreeListMetadataExhausted ∧ ¬ SmallSlab slab.capacity) := by
  split
  next ht =>
    have ho := h.shrink ht
    dsimp only
    rw [ho.debugAssertInvariants_ok]
    exact ⟨ho, rfl, rfl⟩
  · rcases Nat.lt_or_eq_of_le h.room with hr | hf
    · obtain ⟨_, hin, ho, hb, hca, -⟩ := insertFreeBlock_spec ε h hc hp hr
      simp only [hin, ok_bind, assert_of_true, ho.debugAssertInvariants_ok, pure_eq, post_ok]
      exact ⟨ho, hb, hca⟩
    have hin : (insertFreeBlock debug slab block.offset block.size : Run ε _) =
        .ok (false, slab) := by
      have hpo := (h.aligned block (by simp)).size_pos
      unfold insertFreeBlock
      rw [if_neg (by omega), if_pos hf]
      rfl
    have hl : ¬ SmallSlab slab.capacity := by
      intro hs
      have := h.room_of_small hc hs
      omega
    rw [hin]
    exact ⟨rfl, hl⟩

structure Released (debug : Bool) (slab : ByteSlab) (live : Multiset ByteSlot)
    (slab' : ByteSlab) : Prop where
  owns : Owns debug slab' live 0
  same : ByteSlab.SameReads live slab slab'
  capacity : slab'.capacity = slab.capacity

/-- The one way in which a release can panic. -/
def MetadataExhausted (slab : ByteSlab) (p : Panic) : Prop :=
  p = .slabFreeListMetadataExhausted ∧ ¬ SmallSlab slab.capacity

theorem mergeRight_frame (h : (mergeRight slab block : Run ε _) = .ok (block', slab')) :
    slab'.bump = slab.bump ∧ ∀ b ∈ slab'.freeList, b ∈ slab.freeList := by
  unfold mergeRight at h
  dsimp only at h
  split at h
  next right rest hf =>
    split at h
    · rw [check_eq_ok, check_eq_ok] at h
      cases h.2.2
      refine ⟨rfl, fun b hb => ?_⟩
      rcases List.mem_append.mp hb with hb | hb
      · exact mem_of_mem_before hb
      · exact mem_of_mem_from (hf ▸ List.mem_cons_of_mem _ hb)
    · cases h
      exact ⟨rfl, fun b hb => hb⟩
  · cases h
    exact ⟨rfl, fun b hb => hb⟩

theorem mergeLeft_frame (h : (mergeLeft slab block : Run ε _) = .ok (block', slab')) :
    slab'.bump = slab.bump ∧ ∀ b ∈ slab'.freeList, b ∈ slab.freeList := by
  unfold mergeLeft at h
  split at h
  · split at h
    · rw [check_eq_ok, check_eq_ok] at h
      cases h.2.2
      refine ⟨rfl, fun b hb => ?_⟩
      rcases List.mem_append.mp hb with hb | hb
      · exact mem_of_mem_before (List.dropLast_subset _ hb)
      · exact mem_of_mem_from hb
    · cases h
      exact ⟨rfl, fun b hb => hb⟩
  · cases h
    exact ⟨rfl, fun b hb => hb⟩

/-- Before the last stage of a release the freed memory and its free neighbours are one pending
block, and nothing else has changed. -/
structure Unlisted (debug : Bool) (slab : ByteSlab) (live : Multiset ByteSlot)
    (block : Block) (slab' : ByteSlab) : Prop where
  owns : Owns debug slab' live {block}
  clear : Clear block slab'.freeList
  poisoned : debug = true → Poisoned slab'.buf block
  capacity : slab'.capacity = slab.capacity
  bump : slab'.bump = slab.bump
  freeList : ∀ b ∈ slab'.freeList, b ∈ slab.freeList
  reads : ByteSlab.SameReads live slab slab'

theorem deallocate_eq (h : Owns debug slab (slot ::ₘ live) 0) (hn : ¬ slot.isEmpty = true) :
    ∃ block slab1, Unlisted debug slab live block slab1 ∧
      (deallocate debug slot : Prog ByteSlab Panic ε Unit) slab = (do
        if block.offset + block.size = slab1.bump then
          let slab := { slab1 with bump := block.offset }
          debugAssertInvariants debug slab
          return ((), slab)
        else
          let (inserted, slab) ← insertFreeBlock debug slab1 block.offset block.size
          Outcome.assert inserted .slabFreeListMetadataExhausted
          debugAssertInvariants debug slab
          return ((), slab)) := by
  have hm : slot ∈ slot ::ₘ live := mem_cons_self slot live
  have hby := h.liveBytes_eq
  rw [map_cons, sum_cons] at hby
  have hc := h.liveCount_eq
  rw [card_cons] at hc
  obtain ⟨buf, hpo, ho, hp⟩ := poisonFreed_spec (ε × ByteSlab) h
  have hf := h.releaseSlot ho
  obtain ⟨_, slab1, hr, hm1, hc1⟩ := mergeRight_spec (ε × ByteSlab) hf hp
  obtain ⟨block2, slab2, hl, hm2, hc2⟩ :=
    mergeLeft_spec (ε × ByteSlab) hm1.owns hm1.poisoned hc1
  have hbu : slab2.buf = buf := hm2.buf.trans hm1.buf
  obtain ⟨hb1, hl1⟩ := mergeRight_frame hr
  obtain ⟨hb2, hl2⟩ := mergeLeft_frame hl
  refine ⟨block2, slab2, ⟨hm2.owns, hc2, hm2.poisoned, hm2.capacity.trans hm1.capacity,
    hb2.trans hb1, fun b hb => hl1 b (hl2 b hb), fun s hs => ?_⟩, ?_⟩
  · have ha := hf.slot_apart hs (b := ⟨slot.offset, slot.allocSize⟩) (by simp)
    have hle := (hf.slots s hs).len_le
    simp only [stop] at ha
    rw [readSlot, readSlot, hbu]
    exact readAt_congr fun p h1 h2 => ho p (by omega)
  rw [deallocate, if_neg hn]
  simp [h.assertSlot_ok hm, ok_bind, hpo, ByteSlab.mergeWithNeighbors, hr,
    hl, assert_of_true (show slot.allocSize ≤ slab.liveBytes by omega),
    assert_of_true (show 1 ≤ slab.liveCount by omega)]

/-- **Release.** The memory of a live slot is given back and no other slot is affected. -/
theorem deallocate_spec (h : Owns debug slab (slot.held + live) 0) :
    Prog.wp (deallocate debug slot : Prog ByteSlab Panic ε Unit) slab
      (fun _ slab' => Released debug slab live slab') (fun _ _ => False)
      (MetadataExhausted slab) := by
  unfold Prog.wp
  by_cases hn : slot.isEmpty = true
  · rw [ByteSlot.held, if_pos hn, zero_add] at h
    rw [deallocate, if_pos hn]
    exact ⟨h, .refl _ _, rfl⟩
  rw [ByteSlot.held, if_neg hn, singleton_add] at h
  obtain ⟨_, _, hst, he⟩ := deallocate_eq (ε := ε) h hn
  rw [he]
  refine (returnBlock_spec hst.owns hst.clear hst.poisoned).mono ?_ (fun _ _ hf => hf) ?_
  · intro r _ hr
    obtain ⟨ho, hb, hc⟩ := hr
    refine ⟨ho, fun s hs => ?_, hc.trans hst.capacity⟩
    rw [readSlot, hb]
    exact hst.reads s hs
  · intro p _ hp
    exact ⟨hp.1, hst.capacity ▸ hp.2⟩

end GossipRs.Stdx
