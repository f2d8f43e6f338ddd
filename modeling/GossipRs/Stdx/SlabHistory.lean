import GossipRs.Stdx.SlabSpec

/-! Whole histories of a byte slab: any allocations and releases in which a slot is released at most
once. Ownership is kept from call to call, and no free block ever reaches the bump pointer; together
they determine the free list and the bump pointer from the live regions. -/

namespace GossipRs.Lib

theorem exists_of_covers (h : covers m p ≠ 0) : ∃ s ∈ m, s.start ≤ p ∧ p < s.stop := by
  by_contra hcon
  refine h (Multiset.sum_eq_zero fun n hn => ?_)
  obtain ⟨s, hs, rfl⟩ := Multiset.mem_map.mp hn
  exact if_neg fun hp => hcon ⟨s, hs, hp⟩

theorem covers_pos (hs : s ∈ m) (h1 : s.start ≤ p) (h2 : p < s.stop) : 1 ≤ covers m p := by
  obtain ⟨_, rfl⟩ := Multiset.exists_cons_of_mem hs
  rw [covers_cons, Span.cover_eq_one h1 h2]
  omega

def Span.positions (s : Span) : Set Nat := Set.Ico s.start s.stop

theorem Tiles.pairwise_disjoint {l : List Span} : ∀ {m top}, Tiles ((l : Multiset Span) + m) top →
      l.Pairwise fun a b => Disjoint a.positions b.positions := by
  induction l with
  | nil =>
    intro m top h
    exact List.Pairwise.nil
  | cons a rest ih =>
    intro m top h
    have hr : Tiles ((rest : Multiset Span) + (a ::ₘ m)) top := by
      rwa [Multiset.add_cons, ← Multiset.cons_add, Multiset.cons_coe]
    refine List.pairwise_cons.mpr ⟨fun b hb => ?_, ih hr⟩
    refine Set.disjoint_left.mpr fun p ha hbp => ?_
    have hp := h p
    rw [← Multiset.cons_coe, Multiset.cons_add, covers_cons, covers_add,
      Span.cover_eq_one ha.1 ha.2] at hp
    have hpo := covers_pos (Multiset.mem_coe.mpr hb) hbp.1 hbp.2
    split at hp <;> omega

theorem Tiles.nodup (h : Tiles (m + n) top) (hpo : ∀ s ∈ m, 0 < s.size) : m.Nodup := by
  refine Multiset.nodup_iff_count_le_one.mpr fun s => ?_
  by_contra hcon
  have hl : Multiset.replicate 2 s ≤ m := Multiset.le_count_iff_replicate_le.mp (by omega)
  obtain ⟨_, rfl⟩ := Multiset.le_iff_exists_add.mp hl
  have hs := hpo s (by simp)
  have hp := h s.start
  have hc : s.cover s.start = 1 :=
    Span.cover_eq_one le_rfl (by simp [Span.stop]; omega)
  simp only [covers_add, Multiset.replicate_succ, Multiset.replicate_zero, covers_cons, hc,
    covers_zero] at hp
  split at hp <;> omega

end GossipRs.Lib

namespace GossipRs.Stdx

open Lib Outcome
open Block (stop)
open List (map_cons mem_cons mem_cons_of_mem mem_cons_self mem_map not_mem_nil)
open ByteSlab (takeBestFit insertFreeBlock splitBlock writeAllocation bestFit withCapacity)

/-! ## Free lists with the same memory are equal -/

def Listed (l : List Block) (p : Nat) : Prop := ∃ b ∈ l, b.offset ≤ p ∧ p < b.stop

theorem Coalesced.head_le (h : Coalesced (a :: rest)) (hp : Listed (a :: rest) p) :
    a.offset ≤ p := by
  obtain ⟨b, hb, hl, -⟩ := hp
  rcases mem_cons.mp hb with rfl | hb
  · exact hl
  have ha := (List.pairwise_cons.mp h).1 b hb
  unfold stop at ha
  omega

/-- What follows the first block is listed strictly after its end. -/
theorem Coalesced.listed_cons (h : Coalesced (a :: rest)) (hp : a.stop ≤ p) :
    Listed (a :: rest) p ↔ Listed rest p := by
  constructor
  · intro hl
    obtain ⟨b, hb, hle, hlt⟩ := hl
    rcases mem_cons.mp hb with rfl | hb
    · omega
    · exact ⟨b, hb, hle, hlt⟩
  intro hl
  obtain ⟨b, hb, hbo⟩ := hl
  exact ⟨b, mem_cons_of_mem _ hb, hbo⟩

theorem Coalesced.not_listed_stop (h : Coalesced (a :: rest)) : ¬ Listed (a :: rest) a.stop := by
  intro hl
  rw [h.listed_cons le_rfl] at hl
  obtain ⟨b, hb, _, -⟩ := hl
  have ha := (List.pairwise_cons.mp h).1 b hb
  omega

theorem Coalesced.ext : ∀ {l'}, Coalesced l → Coalesced l' →
    (∀ b ∈ l, 0 < b.size) → (∀ b ∈ l', 0 < b.size) → (∀ p, Listed l p ↔ Listed l' p) → l = l' := by
  induction l with
  | nil =>
    intro l' _ _ _ hp' hp
    cases l' with
    | nil => rfl
    | cons b rest =>
      have hsi := hp' b mem_cons_self
      obtain ⟨c, hc, -⟩ := (hp b.offset).mpr ⟨b, mem_cons_self, le_rfl, by unfold stop; omega⟩
      exact absurd hc not_mem_nil
  | cons a rest ih =>
    intro l' hl hl' hpo hp' hp
    have hsi := hpo a mem_cons_self
    have hs : Listed (a :: rest) a.offset :=
      ⟨a, mem_cons_self, le_rfl, by unfold stop; omega⟩
    cases l' with
    | nil =>
      obtain ⟨c, hc, -⟩ := (hp a.offset).mp hs
      exact absurd hc not_mem_nil
    | cons b rest' =>
      have hsi' := hp' b mem_cons_self
      have hs' : Listed (b :: rest') b.offset :=
        ⟨b, mem_cons_self, le_rfl, by unfold stop; omega⟩
      have ho : a.offset = b.offset :=
        le_antisymm (hl.head_le ((hp _).mpr hs')) (hl'.head_le ((hp _).mp hs))
      -- a block that went on past the other's end would list that end
      have hst : a.stop = b.stop := by
        rcases Nat.lt_trichotomy a.stop b.stop with hlt | he | hg
        · refine absurd ((hp a.stop).mpr ⟨b, mem_cons_self, ?_, hlt⟩) hl.not_listed_stop
          unfold stop
          omega
        · exact he
        refine absurd ((hp b.stop).mp ⟨a, mem_cons_self, ?_, hg⟩) hl'.not_listed_stop
        unfold stop
        omega
      have ha : a = b := by
        cases a
        simp only [stop] at ho hst
        congr 1
        omega
      subst ha
      have hre : ∀ p, Listed rest p ↔ Listed rest' p := by
        intro p
        by_cases hle : a.stop ≤ p
        · rw [← hl.listed_cons hle, ← hl'.listed_cons hle]
          exact hp p
        have hn : ∀ r, Coalesced (a :: r) → ¬ Listed r p := by
          intro r hr hli
          obtain ⟨c, hc, _, -⟩ := hli
          have hac := (List.pairwise_cons.mp hr).1 c hc
          omega
        exact ⟨fun h => absurd h (hn rest hl), fun h => absurd h (hn rest' hl')⟩
      rw [ih (List.pairwise_cons.mp hl).2 (List.pairwise_cons.mp hl').2
        (fun c hc => hpo c (mem_cons_of_mem _ hc))
        (fun c hc => hp' c (mem_cons_of_mem _ hc)) hre]

/-! ## The bump pointer -/

def Topped (slab : ByteSlab) : Prop := ∀ b ∈ slab.freeList, b.stop < slab.bump

variable {needed : Nat} {data : Bytes} {slot : ByteSlot}

section Calls

variable {ε : Type} {debug : Bool} {slab slab' : ByteSlab} {live : Multiset ByteSlot}

theorem takeBestFit_eq_some (h : (takeBestFit slab needed : Run ε _) = .ok (some (block, slab'))) :
    block ∈ slab.freeList ∧ slab'.bump = slab.bump ∧ ∀ b ∈ slab'.freeList, b ∈ slab.freeList := by
  unfold takeBestFit at h
  split at h
  · cases h
  obtain ⟨_, hg, h⟩ := bind_eq_ok.mp h
  rw [check_eq_ok] at h
  cases h.2
  exact ⟨List.mem_of_getElem? (expect_eq_ok.mp hg), rfl,
    fun b hb => (List.eraseIdx_sublist _ _).subset hb⟩

theorem insertFreeBlock_frame
    (h : (insertFreeBlock debug slab offset size : Run ε _) = .ok (inserted, slab')) :
    slab'.bump = slab.bump ∧ ∀ b ∈ slab'.freeList, b ∈ slab.freeList ∨ b = ⟨offset, size⟩ := by
  unfold insertFreeBlock at h
  split at h
  · cases h
    exact ⟨rfl, fun b hb => .inl hb⟩
  split at h
  · cases h
    exact ⟨rfl, fun b hb => .inl hb⟩
  rw [check_eq_ok, check_eq_ok] at h
  cases h.2.2
  refine ⟨rfl, fun b hb => ?_⟩
  rcases List.mem_append.mp hb with hb | hb
  · exact .inl (mem_of_mem_before hb)
  rcases mem_cons.mp hb with hb | hb
  · exact .inr hb
  · exact .inl (mem_of_mem_from hb)

theorem splitBlock_frame (hf : needed ≤ block.size)
    (h : (splitBlock debug slab block needed : Run ε _) = .ok (size, slab')) :
    slab'.bump = slab.bump ∧ ∀ b ∈ slab'.freeList, b ∈ slab.freeList ∨ b.stop = block.stop := by
  unfold splitBlock at h
  dsimp only at h
  split at h
  · rw [check_eq_ok] at h
    obtain ⟨_, hin, h⟩ := bind_eq_ok.mp h.2
    cases h
    obtain ⟨hbu, hl⟩ := insertFreeBlock_frame hin
    refine ⟨hbu, fun b hb => (hl b hb).imp_right fun he => ?_⟩
    rw [he]
    simp only [stop]
    omega
  · cases h
    exact ⟨rfl, fun b hb => .inl hb⟩

theorem writeAllocation_frame
    (h : (writeAllocation slab offset len size data : Run ε _) = .ok (slot, slab')) :
    slab'.bump = slab.bump ∧ slab'.freeList = slab.freeList := by
  unfold writeAllocation at h
  rw [check_eq_ok, check_eq_ok, check_eq_ok] at h
  cases h.2.2.2
  exact ⟨rfl, rfl⟩

theorem bestFit_eq_none : ∀ {i best},
    bestFit needed l i best = none → best = none ∧ ∀ b ∈ l, b.size < needed := by
  induction l with
  | nil =>
    intro i best h
    exact ⟨h, fun b hb => absurd hb not_mem_nil⟩
  | cons a rest ih =>
    intro i best h
    obtain ⟨hbe, hr⟩ := ih h
    by_cases hf : needed ≤ a.size
    · rw [if_pos hf] at hbe
      split at hbe
      · split at hbe
        · cases hbe
        · cases hbe
      · cases hbe
    · rw [if_neg hf] at hbe
      exact ⟨hbe, List.forall_mem_cons.mpr ⟨by omega, hr⟩⟩

theorem takeBestFit_eq_none (h : (takeBestFit slab needed : Run ε _) = .ok none) :
    ∀ b ∈ slab.freeList, b.size < needed := by
  unfold takeBestFit at h
  split at h
  next hn =>
    exact (bestFit_eq_none hn).2
  · obtain ⟨_, -, h⟩ := bind_eq_ok.mp h
    rw [check_eq_ok] at h
    cases h.2

/-- Allocation keeps the free list below the bump pointer: a split leaves the end of the block where
it was, and growing moves the pointer up. -/
theorem Topped.allocate (ho : Owns debug slab live 0) (ht : Topped slab)
    (h : ByteSlab.allocate debug data slab = .ok (slot, slab')) : Topped slab' := by
  unfold ByteSlab.allocate at h
  split at h
  · cases h
    exact ht
  split at h
  · cases h
  next needed hsi =>
    rcases takeBestFit_spec (SlabFull × ByteSlab) ho needed with hta |
      ⟨block, slab1, hta, -, hf, -⟩
    · rw [hta, ok_bind] at h
      dsimp only at h
      split at h
      · obtain ⟨r, hw, h⟩ := bind_eq_ok.mp h
        obtain ⟨_, slab1⟩ := r
        rw [check_eq_ok] at h
        cases h.2
        obtain ⟨hbu, hl⟩ := writeAllocation_frame hw
        intro b hb
        rw [hl] at hb
        rw [hbu]
        exact Nat.lt_of_lt_of_le (ht b hb) (Nat.le_add_right _ _)
      · cases h
    · rw [hta, ok_bind] at h
      obtain ⟨r, hs, h⟩ := bind_eq_ok.mp h
      rw [check_eq_ok] at h
      obtain ⟨r, hw, h⟩ := bind_eq_ok.mp h.2
      rw [check_eq_ok] at h
      cases h.2
      obtain ⟨hm, hb1, hl1⟩ := takeBestFit_eq_some hta
      obtain ⟨hb2, hl2⟩ := splitBlock_frame hf hs
      obtain ⟨hb3, hl3⟩ := writeAllocation_frame hw
      intro b hb
      rw [hl3] at hb
      rw [hb3, hb2, hb1]
      rcases hl2 b hb with hb | hst
      · exact ht b (hl1 b hb)
      · rw [hst]
        exact ht block hm

/-- Release keeps it too: a block that ends at the pointer moves it down to its start, and no free
block touches it there. -/
theorem Topped.deallocate (ho : Owns debug slab (slot.held + live) 0) (ht : Topped slab)
    (h : (ByteSlab.deallocate debug slot : Prog ByteSlab Panic ε Unit) slab = .ok ((), slab')) :
    Topped slab' := by
  by_cases hn : slot.isEmpty = true
  · rw [ByteSlab.deallocate, if_pos hn] at h
    cases h
    exact ht
  rw [ByteSlot.held, if_neg hn, Multiset.singleton_add] at ho
  obtain ⟨block, _, hs, he⟩ := deallocate_eq (ε := ε) ho hn
  have hbl := hs.owns.block_stop_le (b := block) (by simp)
  rw [he] at h
  split at h
  · rw [check_eq_ok] at h
    cases h.2
    intro b hb
    have hst := hs.owns.block_stop_le (b := b) (by simp; exact .inl hb)
    rcases hs.clear b hb with hlt | hg
    · exact hlt
    · simp only [stop] at hg hst hbl
      omega
  next hto =>
    obtain ⟨r, hin, h⟩ := bind_eq_ok.mp h
    obtain ⟨_, _⟩ := r
    rw [check_eq_ok, check_eq_ok] at h
    cases h.2.2
    obtain ⟨hbu, hl⟩ := insertFreeBlock_frame hin
    intro b hb
    rw [hbu, hs.bump]
    rcases hl b hb with hb | rfl
    · exact ht b (hs.freeList b hb)
    have hb1 := hs.bump
    simp only [stop] at hbl ⊢
    omega

def roundedSize (n : Nat) : Nat := nextPowerOfTwo (max n minBlock)

theorem le_roundedSize (n) : n ≤ roundedSize n :=
  (le_max_left _ _).trans (Nat.le_pow_clog (by decide) _)

structure NoRoom (slab : ByteSlab) (n : Nat) : Prop where
  blocks : ∀ b ∈ slab.freeList, b.size < roundedSize n
  virgin : slab.availableVirginBytes < roundedSize n

theorem noRoom_of_allocate_err (ho : Owns debug slab live 0)
    (h : ByteSlab.allocate debug data slab = .err (full, slab')) :
    slab' = slab ∧ NoRoom slab data.length := by
  have hsa := Prog.wp_err (allocate_spec ho data) h
  refine ⟨hsa, ?_⟩
  have hbu := ho.bump_le
  have hca := ho.capacity_le
  have he : ∀ b ∈ slab.freeList, b.size ≤ slab.bump := by
    intro b hb
    have hst := ho.block_stop_le (b := b) (by simpa using hb)
    unfold stop at hst
    omega
  unfold ByteSlab.allocate at h
  split at h
  · cases h
  next hne =>
    have hpo : data.length ≠ 0 := by simpa using hne
    have hv : slab.availableVirginBytes ≤ slab.capacity := Nat.sub_le _ _
    split at h
    · -- the request does not fit in a u32, let alone in the slab
      rename_i hs
      have hl : u32Max < roundedSize data.length := by
        unfold allocSize at hs
        rw [if_neg hpo] at hs
        split at hs
        next hlt =>
          exact Nat.lt_of_lt_of_le hlt (le_roundedSize _)
        · dsimp only at hs
          split at hs
          · cases hs
          next hle =>
            exact not_le.mp hle
      refine ⟨fun b hb => ?_, ?_⟩
      · have := he b hb
        omega
      · omega
    next needed hs =>
      have hn : needed = roundedSize data.length := by
        unfold allocSize at hs
        rw [if_neg hpo] at hs
        split at hs
        · cases hs
        dsimp only at hs
        split at hs
        · cases hs
          rfl
        · cases hs
      rcases takeBestFit_spec (SlabFull × ByteSlab) ho needed with ht |
        ⟨_, slab1, ht, ho1, hf, hc, hp, hb1, hc1, hr⟩
      · rw [ht, ok_bind] at h
        dsimp only at h
        subst hn
        refine ⟨takeBestFit_eq_none ht, ?_⟩
        split at h
        · obtain ⟨-, hd, hp'⟩ := allocSize_spec hpo hs
          rename_i hle
          obtain ⟨slot, slab1, heq, -⟩ := Allocated.of_write (SlabFull × ByteSlab) slab
            (ho.grow hd hp' hle.2) (allocSize_spec hpo hs).1 hne (.of_buf rfl) rfl
          rw [heq] at h
          cases h
        · simp only [ByteSlab.availableVirginBytes] at hv ⊢
          omega
      · obtain ⟨hlen, hd, hp'⟩ := allocSize_spec hpo hs
        obtain ⟨_, hsp, ho2, hb2, hc2⟩ := splitBlock_spec (SlabFull × ByteSlab)
          ho1 hf hd hp' hc hp hr
        obtain ⟨slot, _, heq, -⟩ := Allocated.of_write (SlabFull × ByteSlab) slab
          ho2 hlen hne (.of_buf (hb2.trans hb1)) (hc2.trans hc1)
        rw [ht, ok_bind] at h
        dsimp only at h
        rw [hsp, ok_bind] at h
        rcases bind_eq_err.mp h with h | ⟨-, -, h⟩
        · exact absurd h assert_ne_err
        · rw [heq] at h
          cases h

end Calls

/-! ## Histories -/

/-- The slots handed out and not yet released, each with the bytes it was given. -/
abbrev Held := List (ByteSlot × Bytes)

/-- The states a slab of `capacity` bytes can be in, with the slots its clients hold. A client
releases only slots it holds. -/
inductive SlabRun (debug : Bool) (capacity : Nat) : ByteSlab → Held → Prop
  | start {ownerId : Nat} {slab : ByteSlab}
      (h : (withCapacity capacity ownerId : Run Empty ByteSlab) = .ok slab) :
      SlabRun debug capacity slab []
  | allocate {slab slab' : ByteSlab} {held : Held} {data : Bytes} {slot : ByteSlot}
      (h : SlabRun debug capacity slab held)
      (hcall : ByteSlab.allocate debug data slab = .ok (slot, slab')) :
      SlabRun debug capacity slab' ((slot, data) :: held)
  | refuse {slab slab' : ByteSlab} {held : Held} {data : Bytes} {full : SlabFull}
      (h : SlabRun debug capacity slab held)
      (hcall : ByteSlab.allocate debug data slab = .err (full, slab')) :
      SlabRun debug capacity slab' held
  | deallocate {slab slab' : ByteSlab} {held : Held} {entry : ByteSlot × Bytes}
      (h : SlabRun debug capacity slab held) (hentry : entry ∈ held)
      (hcall : (ByteSlab.deallocate debug entry.1 : Prog ByteSlab Panic Empty Unit) slab =
        .ok ((), slab')) :
      SlabRun debug capacity slab' (held.erase entry)

variable {entry : ByteSlot × Bytes}

namespace Held

def live (held : Held) : Multiset ByteSlot := (held.map fun entry => entry.1.held).sum

def spans (held : Held) : List Span := held.map fun entry => entry.1.span

def regions (held : Held) : Set Span := {region | 0 < region.size ∧ region ∈ held.spans}

def highest (held : Held) : Nat := (held.spans.map Span.stop).foldr max 0

@[simp] theorem live_nil : live [] = 0 := rfl

@[simp] theorem live_cons (entry : ByteSlot × Bytes) (held : Held) :
    live (entry :: held) = entry.1.held + held.live := by
  simp [live]

theorem live_of_mem {held : Held} (h : entry ∈ held) :
    held.live = entry.1.held + live (held.erase entry) := by
  have hp := List.perm_cons_erase h
  have hs := (hp.map fun entry => entry.1.held).sum_eq
  rw [live, hs, map_cons, List.sum_cons]
  rfl

theorem mem_live {held : Held} (h : entry ∈ held) (hl : 0 < entry.1.len) :
    entry.1 ∈ held.live := by
  rw [live_of_mem h, ByteSlot.held_of_len hl]
  exact Multiset.mem_add.mpr (.inl (Multiset.mem_singleton_self _))

theorem exists_of_mem_live {held : Held} (h : slot ∈ held.live) :
    ∃ entry ∈ held, entry.1 = slot := by
  induction held with
  | nil => exact absurd h (Multiset.notMem_zero slot)
  | cons entry rest ih =>
    rw [live_cons] at h
    rcases Multiset.mem_add.mp h with h | h
    · rw [ByteSlot.held] at h
      split at h
      · exact absurd h (Multiset.notMem_zero slot)
      · exact ⟨entry, mem_cons_self, (Multiset.mem_singleton.mp h).symm⟩
    · obtain ⟨other, ho, he⟩ := ih h
      exact ⟨other, mem_cons_of_mem _ ho, he⟩

end Held

structure History (debug : Bool) (capacity : Nat) (slab : ByteSlab) (held : Held) : Prop where
  owns : Owns debug slab held.live 0
  topped : Topped slab
  capacity_eq : slab.capacity = capacity
  empty : ∀ entry ∈ held, entry.1.len = 0 → entry.1 = ByteSlot.empty
  len : ∀ entry ∈ held, entry.1.len = entry.2.length
  reads : ∀ entry ∈ held, 0 < entry.1.len → slab.readSlot entry.1 = entry.2

theorem allocate_empty (h : ByteSlab.allocate debug data slab = .ok (slot, slab'))
    (hl : data.length = 0) : slot = ByteSlot.empty := by
  rw [ByteSlab.allocate, if_pos (List.length_eq_zero_iff.mp hl)] at h
  cases h
  rfl

theorem SlabRun.history (h : SlabRun debug capacity slab held) :
    History debug capacity slab held := by
  induction h with
  | @start ownerId slab h =>
    have hf : Owns debug slab 0 0 ∧ slab.capacity = capacity := Owns.fresh h
    obtain ⟨ho, hca⟩ := hf
    refine ⟨ho, ?_, hca, ?_, ?_, ?_⟩
    · rw [withCapacity, check_eq_ok] at h
      cases h.2
      exact fun b hb => absurd hb not_mem_nil
    · exact fun entry hm => absurd hm not_mem_nil
    · exact fun entry hm => absurd hm not_mem_nil
    · exact fun entry hm => absurd hm not_mem_nil
  | @allocate slab slab' held data slot _ hc ih =>
    have ha : Allocated debug slab held.live data slot slab' :=
      Prog.wp_ok (allocate_spec ih.owns data) hc
    refine ⟨?_, ih.topped.allocate ih.owns hc, ha.capacity.trans ih.capacity_eq, ?_, ?_, ?_⟩
    · exact ha.owns
    · intro entry hm hl
      rcases mem_cons.mp hm with rfl | hm
      · exact allocate_empty hc (ha.len ▸ hl)
      · exact ih.empty entry hm hl
    · exact List.forall_mem_cons.mpr ⟨ha.len, ih.len⟩
    intro entry hm hl
    rcases mem_cons.mp hm with rfl | hm
    · exact ha.reads
    · rw [ha.same entry.1 (Held.mem_live hm hl)]
      exact ih.reads entry hm hl
  | refuse _ hc ih =>
    obtain ⟨rfl, -⟩ := noRoom_of_allocate_err ih.owns hc
    exact ih
  | @deallocate slab slab' held entry _ hentry hc ih =>
    have ho := ih.owns
    rw [Held.live_of_mem hentry] at ho
    have hr := Prog.wp_ok (deallocate_spec (ε := Empty) ho) hc
    refine ⟨hr.owns, ih.topped.deallocate ho hc, hr.capacity.trans ih.capacity_eq, ?_, ?_, ?_⟩
    · exact fun other hm => ih.empty other (List.mem_of_mem_erase hm)
    · exact fun other hm => ih.len other (List.mem_of_mem_erase hm)
    intro other hm hl
    rw [hr.same other.1 (Held.mem_live hm hl)]
    exact ih.reads other (List.mem_of_mem_erase hm) hl

namespace History

variable {debug : Bool} {capacity : Nat} {slab slab' : ByteSlab} {held held' : Held}

section

variable (h : History debug capacity slab held)

include h

theorem covers_spans (p) :
    covers (held.spans : Multiset Span) p = covers (held.live.map ByteSlot.span) p := by
  have he := h.empty
  clear h
  induction held with
  | nil => rfl
  | cons entry rest ih =>
    obtain ⟨hen, hr⟩ := List.forall_mem_cons.mp he
    have hh : entry.1.span.cover p = covers (entry.1.held.map ByteSlot.span) p := by
      by_cases hl : entry.1.len = 0
      · rw [hen hl, ByteSlot.held_empty, Multiset.map_zero, covers_zero]
        exact if_neg fun hp => by simp only [ByteSlot.span, ByteSlot.empty, Span.stop] at hp; omega
      · rw [ByteSlot.held_of_len (by omega), Multiset.map_singleton, ← Multiset.cons_zero,
          covers_cons, covers_zero, Nat.add_zero]
    rw [Held.live_cons, Multiset.map_add, covers_add, ← hh, ← ih hr, Held.spans,
      map_cons, ← Multiset.cons_coe, covers_cons]
    rfl

theorem tiles :
    Tiles ((held.spans : Multiset Span) + ((slab.freeList.map Block.span : List Span) :
      Multiset Span)) slab.bump := by
  intro p
  have hp := h.owns.tiles p
  rw [covers_add, add_zero, Multiset.map_coe, ← h.covers_spans p] at hp
  rw [covers_add]
  exact hp

theorem stop_le (hs : s ∈ held.spans) : s.stop ≤ slab.bump := by
  obtain ⟨entry, hm, rfl⟩ := mem_map.mp hs
  by_cases hl : entry.1.len = 0
  · rw [h.empty entry hm hl]
    exact Nat.zero_le _
  · exact h.owns.slot_stop_le (Held.mem_live hm (by omega))

theorem listed_iff (p) :
    Listed slab.freeList p ↔ p < slab.bump ∧ ∀ s ∈ held.spans, ¬ (s.start ≤ p ∧ p < s.stop) := by
  have hp := h.tiles p
  rw [covers_add] at hp
  constructor
  · intro hl
    obtain ⟨b, hb, hle, hlt⟩ := hl
    have hf : 1 ≤ covers ((slab.freeList.map Block.span : List Span) : Multiset Span) p :=
      covers_pos (s := b.span) (Multiset.mem_coe.mpr (List.mem_map_of_mem hb)) hle hlt
    refine ⟨by split at hp <;> omega, fun s hs hc => ?_⟩
    have hh := covers_pos (Multiset.mem_coe.mpr hs) hc.1 hc.2
    split at hp <;> omega
  intro hl
  obtain ⟨hlt, hn⟩ := hl
  rw [if_pos hlt] at hp
  have hh : covers (held.spans : Multiset Span) p = 0 := by
    by_contra hc
    obtain ⟨s, hs, hbo⟩ := exists_of_covers hc
    exact hn s (Multiset.mem_coe.mp hs) hbo
  obtain ⟨s, hs, hbo⟩ := exists_of_covers
    (m := ((slab.freeList.map Block.span : List Span) : Multiset Span)) (p := p) (by omega)
  obtain ⟨b, hb, rfl⟩ := mem_map.mp (Multiset.mem_coe.mp hs)
  exact ⟨b, hb, hbo⟩

/-- The byte below a positive bump pointer is held: no free block reaches that far. -/
theorem exists_top (hp : 0 < slab.bump) :
    ∃ s ∈ held.spans, 0 < s.size ∧ s.stop = slab.bump := by
  have hn : ¬ Listed slab.freeList (slab.bump - 1) := by
    intro hl
    obtain ⟨b, hb, _, _⟩ := hl
    have := h.topped b hb
    omega
  rw [h.listed_iff] at hn
  by_contra hcon
  refine hn ⟨by omega, fun s hs hc => hcon ⟨s, hs, ?_, ?_⟩⟩
  · unfold Span.stop at *
    omega
  · have := h.stop_le hs
    omega

end

theorem foldr_max_eq {l : List Nat} (hl : ∀ a ∈ l, a ≤ n) (hm : n = 0 ∨ n ∈ l) :
    l.foldr max 0 = n := by
  refine le_antisymm ?_ ?_
  · exact List.max_le_of_forall_le l n hl
  rcases hm with rfl | hm
  · exact Nat.zero_le _
  · exact List.le_max_of_le' 0 hm (Nat.le_refl n)

theorem bump_eq_highest (h : History debug capacity slab held) : slab.bump = held.highest := by
  refine (foldr_max_eq (fun a ha => ?_) ?_).symm
  · obtain ⟨s, hs, rfl⟩ := mem_map.mp ha
    exact h.stop_le hs
  rcases Nat.eq_zero_or_pos slab.bump with hz | hp
  · exact .inl hz
  · obtain ⟨s, hs, -, hst⟩ := h.exists_top hp
    exact .inr (mem_map.mpr ⟨s, hs, hst⟩)

theorem bump_le_of_regions (h : History debug capacity slab held)
    (h' : History debug capacity slab' held') (hr : held.regions = held'.regions) :
    slab.bump ≤ slab'.bump := by
  rcases Nat.eq_zero_or_pos slab.bump with hz | hp
  · omega
  obtain ⟨s, hs, hsi, hst⟩ := h.exists_top hp
  have hm : s ∈ held'.regions := hr ▸ (show s ∈ held.regions from ⟨hsi, hs⟩)
  rw [← hst]
  exact h'.stop_le hm.2

theorem uncovered_iff (p) : (∀ s ∈ held.spans, ¬ (s.start ≤ p ∧ p < s.stop)) ↔
    ∀ s ∈ held.regions, ¬ (s.start ≤ p ∧ p < s.stop) := by
  constructor
  · intro hn s hs
    exact hn s hs.2
  intro hn s hs hc
  have hsi : 0 < s.size := by
    unfold Span.stop at *
    omega
  exact hn s ⟨hsi, hs⟩ hc

section

variable (h : History debug capacity slab held)

include h

theorem freeList_eq
    (h' : History debug capacity slab' held') (hr : held.regions = held'.regions) :
    slab.freeList = slab'.freeList := by
  have hbu : slab.bump = slab'.bump :=
    le_antisymm (h.bump_le_of_regions h' hr) (h'.bump_le_of_regions h hr.symm)
  refine h.owns.coalesced.ext h'.owns.coalesced
    (fun b hb => (h.owns.aligned b (by simpa using hb)).size_pos)
    (fun b hb => (h'.owns.aligned b (by simpa using hb)).size_pos) fun p => ?_
  rw [h.listed_iff, h'.listed_iff, uncovered_iff, uncovered_iff, hbu, hr]

theorem mem_live_span (s) :
    s ∈ held.live.map ByteSlot.span ↔ s ∈ held.regions := by
  constructor
  · intro hs
    obtain ⟨slot, hsl, rfl⟩ := Multiset.mem_map.mp hs
    have hv := h.owns.slots slot hsl
    refine ⟨Nat.lt_of_lt_of_le hv.len_pos hv.len_le, ?_⟩
    obtain ⟨entry, he, rfl⟩ := Held.exists_of_mem_live hsl
    exact List.mem_map_of_mem he
  intro hs
  obtain ⟨hsi, hs⟩ := hs
  obtain ⟨entry, hm, rfl⟩ := mem_map.mp hs
  refine Multiset.mem_map_of_mem _ (Held.mem_live hm ?_)
  by_contra hlen
  rw [h.empty entry hm (by omega)] at hsi
  exact absurd hsi (by decide)

theorem live_spans_nodup :
    (held.live.map ByteSlot.span).Nodup :=
  h.owns.tiles.nodup fun s hs => ((h.mem_live_span s).mp hs).1

theorem state_eq
    (h' : History debug capacity slab' held') (hr : held'.regions = held.regions) :
    slab' = { slab with buf := slab'.buf, ownerId := slab'.ownerId } := by
  have hl := h'.freeList_eq h hr
  have hb : slab'.bump = slab.bump :=
    le_antisymm (h'.bump_le_of_regions h hr) (h.bump_le_of_regions h' hr.symm)
  have hca : slab'.capacity = slab.capacity := h'.capacity_eq.trans h.capacity_eq.symm
  have hm : slab'.freeListCapacity = slab.freeListCapacity := by
    rw [h'.owns.metadata, h.owns.metadata, hca]
  have hf : slab'.freeBytes = slab.freeBytes := by
    rw [← h'.owns.freeBytes_eq, ← h.owns.freeBytes_eq, hl]
  have hli : slab'.liveBytes = slab.liveBytes := by
    have hsu := h.owns.freeBytes_add
    have hs' := h'.owns.freeBytes_add
    omega
  have hco : slab'.liveCount = slab.liveCount := by
    have hs : held'.live.map ByteSlot.span = held.live.map ByteSlot.span :=
      (Multiset.Nodup.ext h'.live_spans_nodup h.live_spans_nodup).mpr fun s => by
        rw [h'.mem_live_span, h.mem_live_span, hr]
    have hc := congrArg Multiset.card hs
    rw [Multiset.card_map, Multiset.card_map, h'.owns.liveCount_eq, h.owns.liveCount_eq] at hc
    exact hc
  cases slab
  subst hl hb hca hm hf hli hco
  rfl

/-- Held regions, free blocks and the virgin tail cover every byte of the slab once. -/
theorem tiles_capacity :
    Tiles (⟨slab.bump, slab.capacity - slab.bump⟩ ::ₘ ((held.spans : Multiset Span) +
      ((slab.freeList.map Block.span : List Span) : Multiset Span))) capacity := by
  have hg := h.tiles.grow (slab.capacity - slab.bump)
  rw [Nat.add_sub_cancel' h.owns.bump_le] at hg
  exact h.capacity_eq ▸ hg

theorem get_eq (hm : entry ∈ held) :
    (slab.get debug entry.1 : Run Empty Bytes) = .ok entry.2 := by
  by_cases hl : entry.1.len = 0
  · have hd : entry.2 = [] := List.length_eq_zero_iff.mp ((h.len entry hm).symm.trans hl)
    rw [h.empty entry hm hl, hd]
    rfl
  · rw [h.owns.get_ok (Held.mem_live hm (by omega)), ← h.reads entry hm (by omega)]
    rfl

end

end History

structure SlabGuarantee (debug : Bool) (capacity : Nat) (slab : ByteSlab) (held : Held) :
    Prop where
  reads : ∀ entry ∈ held, (slab.get debug entry.1 : Run Empty Bytes) = .ok entry.2
  disjoint : held.spans.Pairwise fun a b => Disjoint a.positions b.positions
  partition : Tiles (⟨slab.bump, slab.capacity - slab.bump⟩ ::ₘ ((held.spans : Multiset Span) +
    ((slab.freeList.map Block.span : List Span) : Multiset Span))) capacity
  coalesced : slab.freeList.Pairwise fun a b => a.stop < b.offset
  bump : slab.bump = held.highest
  determined : ∀ slab' held', SlabRun debug capacity slab' held' →
    held'.regions = held.regions →
      slab' = { slab with buf := slab'.buf, ownerId := slab'.ownerId }
  refuses : ∀ data full slab', ByteSlab.allocate debug data slab = .err (full, slab') →
    slab' = slab ∧ NoRoom slab data.length
  allocates : ∀ data p, ByteSlab.allocate debug data slab ≠ .panic p
  releases : capacity ≤ 64 * 1024 * 1024 → ∀ entry ∈ held, ∀ p,
    (ByteSlab.deallocate debug entry.1 : Prog ByteSlab Panic Empty Unit) slab ≠ .panic p

/-- Every history of a byte slab keeps its guarantees. -/
theorem byteSlab_guarantee {debug : Bool} {capacity : Nat} {slab : ByteSlab} {held : Held}
    (h : SlabRun debug capacity slab held) : SlabGuarantee debug capacity slab held := by
  have hist := h.history
  refine ⟨fun entry hmem => hist.get_eq hmem, hist.tiles.pairwise_disjoint, hist.tiles_capacity,
    hist.owns.coalesced, hist.bump_eq_highest, ?_, ?_, ?_, ?_⟩
  · intro slab' held' h' hregions
    exact hist.state_eq h'.history hregions
  · intro data full slab' hcall
    exact noRoom_of_allocate_err hist.owns hcall
  · intro data p hcall
    have hspec := allocate_spec hist.owns data
    rw [Prog.wp, hcall] at hspec
    exact hspec
  intro hcap entry hmem p hcall
  have hown := hist.owns
  rw [Held.live_of_mem hmem] at hown
  have hspec := deallocate_spec (ε := Empty) hown
  rw [Prog.wp, hcall] at hspec
  refine hspec.2 ?_
  rw [SmallSlab, hist.capacity_eq]
  simp only [minBlock, maxFreeListMetadataEntries]
  omega

/-- Two slots are handed out and the first is released: its block is then on the free list,
and the bump pointer stays at the end of the second. -/
theorem byteSlab_guarantee_two : ∃ slab held, SlabRun true 64 slab held ∧
    slab.freeList = [⟨0, 16⟩] ∧ slab.bump = 48 ∧ SlabGuarantee true 64 slab held := by
  have hrun : ((withCapacity 64 7 : Run Empty ByteSlab).okAnd fun slab =>
      (ByteSlab.allocate true [1, 2] slab).okAnd fun first =>
      (ByteSlab.allocate true (List.replicate 20 3) first.2).okAnd fun second =>
      ((ByteSlab.deallocate true first.1 : Prog ByteSlab Panic Empty Unit) second.2).okAnd
        fun freed => decide (freed.2.freeList = [⟨0, 16⟩] ∧ freed.2.bump = 48)) = true := by
    decide +kernel
  obtain ⟨slab, hstart, hrun⟩ := exists_of_okAnd hrun
  obtain ⟨first, hfirst, hrun⟩ := exists_of_okAnd hrun
  obtain ⟨second, hsecond, hrun⟩ := exists_of_okAnd hrun
  obtain ⟨freed, hfreed, hrun⟩ := exists_of_okAnd hrun
  obtain ⟨hlist, hbump⟩ := of_decide_eq_true hrun
  have htwo := SlabRun.allocate (.allocate (.start hstart) hfirst) hsecond
  have hmem : (first.1, ([1, 2] : Bytes)) ∈ [(second.1, List.replicate 20 3), (first.1, [1, 2])] :=
    List.mem_cons_of_mem _ List.mem_cons_self
  have hthree := SlabRun.deallocate htwo hmem hfreed
  exact ⟨freed.2, _, hthree, hlist, hbump, byteSlab_guarantee hthree⟩

end GossipRs.Stdx
