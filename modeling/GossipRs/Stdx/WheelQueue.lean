import GossipRs.Stdx.TimingWheel

/-! The timing wheel as a priority queue: the items it holds, in push order, and what `push` and
`advance_and_drain` do to them. -/

namespace GossipRs.Stdx

open Lib List
open Function (update)
open Function (update_of_ne update_self)

theorem satAdd_eq (h : a + b ≤ u64Max) : satAdd a b = a + b := Nat.min_eq_left h

namespace TimingWheel

variable {T E : Type} {G : Nat}

/-- The wheel holds the items, in push order. `chain none` is the free list, `chain (some s)` the
list of slot `s`. -/
structure Holds (key : E → Nat) (val : E → T) (w : TimingWheel T G)
    (chain : Option Nat → List Nat) (items : List E) : Prop where
  pow : ∃ n, w.wheelSize = 2 ^ n
  occBits : w.occ.bits = w.wheelSize
  occValid : w.occ.Valid
  cursorSlot : w.cursorSlot = w.cursorAbs % w.wheelSize
  window : ∀ e ∈ items, w.cursorAbs ≤ key e ∧ key e < w.cursorAbs + w.wheelSize ∧ key e < u64Max
  free : Linked w.next w.freeHead (chain none)
  slots : ∀ s, Linked w.next (w.head s) (chain (some s))
  tail : ∀ s, w.tail s = (chain (some s)).getLast?
  nodup : ∀ o, (chain o).Nodup
  disjoint : ∀ o o' n, n ∈ chain o → n ∈ chain o' → o = o'
  bound : ∀ o, ∀ n ∈ chain o, n < w.cap
  contents : ∀ s, (chain (some s)).map w.payload =
    (items.filter fun e => decide (key e % w.wheelSize = s)).map fun e => some (val e)
  slotKey : ∀ e ∈ items, w.slotKey (key e % w.wheelSize) = key e
  occ : ∀ s, w.occ.has s = true ↔ chain (some s) ≠ []
  len : w.len = items.length

section Queue

variable {key : E → Nat} {val : E → T} {w : TimingWheel T G} {chain : Option Nat → List Nat}
  {items : List E}

theorem Holds.size_pos (h : Holds key val w chain items) : 0 < w.wheelSize := by
  obtain ⟨n, hn⟩ := h.pow
  rw [hn]
  exact Nat.two_pow_pos n

theorem Holds.slotOf_eq (h : Holds key val w chain items) (k : Nat) :
    w.slotOf k = k % w.wheelSize := by
  obtain ⟨_, hn⟩ := h.pow
  rw [slotOf, hn, Nat.and_two_pow_sub_one_eq_mod]

theorem eq_of_mod_eq {c W a b : Nat} (ha : c ≤ a ∧ a < c + W) (hb : c ≤ b ∧ b < c + W)
    (h : a % W = b % W) : a = b := by
  rcases Nat.le_total a b with hl | hl
  · have hd : W ∣ b - a := (Nat.modEq_iff_dvd' hl).mp h
    have := Nat.eq_zero_of_dvd_of_lt hd (by omega)
    omega
  have hd : W ∣ a - b := (Nat.modEq_iff_dvd' hl).mp h.symm
  have := Nat.eq_zero_of_dvd_of_lt hd (by omega)
  omega

theorem Holds.chain_ne_nil_iff (h : Holds key val w chain items) (s : Nat) :
    chain (some s) ≠ [] ↔ ∃ e ∈ items, key e % w.wheelSize = s := by
  have hl := congrArg length (h.contents s)
  rw [length_map, length_map] at hl
  rw [← length_pos_iff, hl, length_pos_iff_exists_mem]
  simp

/-! ### Pushing -/

/-- What linking a node to a slot leaves behind, whether the slot was empty or not. -/
structure Joined (w w' : TimingWheel T G) (chain : Option Nat → List Nat) (s k idx : Nat)
    (free : List Nat) (x : T) : Prop where
  same : w'.wheelSize = w.wheelSize ∧ w'.cursorAbs = w.cursorAbs ∧ w'.cursorSlot = w.cursorSlot ∧
    w'.nowBucket = w.nowBucket ∧ w'.cap = w.cap ∧ w'.len = w.len + 1
  freeList : Linked w'.next w'.freeHead free
  others : ∀ t, t ≠ s → w'.head t = w.head t ∧ w'.tail t = w.tail t ∧ w'.slotKey t = w.slotKey t ∧
    ∀ n ∈ chain (some t), w'.next n = w.next n
  slot : Linked w'.next (w'.head s) (chain (some s) ++ [idx])
  slotTail : w'.tail s = some idx
  slotKey : w'.slotKey s = k
  payload : w'.payload = Function.update w.payload idx (some x)
  occBits : w'.occ.bits = w.occ.bits
  occValid : w'.occ.Valid
  occ : ∀ t, w'.occ.has t = true ↔ t = s ∨ w.occ.has t = true

def linkChain (chain : Option Nat → List Nat) (s idx : Nat) (free : List Nat) :
    Option Nat → List Nat
  | none => free
  | some t => if t = s then chain (some s) ++ [idx] else chain (some t)

section

variable (h : Holds key val w chain items)

include h

theorem Holds.joined {free} (hf : chain none = idx :: free)
    (hw : w.cursorAbs ≤ key e ∧ key e < w.cursorAbs + w.wheelSize ∧ key e < u64Max)
    (hl : Joined w w' chain (key e % w.wheelSize) (key e) idx free (val e)) :
    Holds key val w' (linkChain chain (key e % w.wheelSize) idx free) (items ++ [e]) := by
  obtain ⟨hW, hc, hcs, -, hca, hle⟩ := hl.same
  have hid : idx ∈ chain none := hf ▸ mem_cons_self
  have hnew : ∀ t, idx ∉ chain (some t) := fun t hm => by
    cases h.disjoint _ _ _ hid hm
  have hno := h.nodup none
  rw [hf, nodup_cons] at hno
  -- every node of the new lists was in a list before, and only `idx` changed its list
  have hm : ∀ o n, n ∈ linkChain chain (key e % w.wheelSize) idx free o →
      (n = idx ∧ o = some (key e % w.wheelSize)) ∨ (n ≠ idx ∧ n ∈ chain o) := by
    intro o n hn
    cases o with
    | none =>
      have hn' : n ∈ free := hn
      exact .inr ⟨fun he => hno.1 (he ▸ hn'), by rw [hf]; exact mem_cons_of_mem _ hn'⟩
    | some t =>
      rw [linkChain] at hn
      split at hn
      next ht =>
        rcases mem_append.mp hn with hol | hla
        · exact .inr ⟨fun he => hnew _ (he ▸ hol), ht ▸ hol⟩
        · exact .inl ⟨mem_singleton.mp hla, by rw [ht]⟩
      · exact .inr ⟨fun he => hnew _ (he ▸ hn), hn⟩
  refine
    { pow := by rw [hW]; exact h.pow
      occBits := by rw [hl.occBits, hW, h.occBits]
      occValid := hl.occValid
      cursorSlot := by rw [hcs, hc, hW, h.cursorSlot]
      window := ?_
      free := hl.freeList
      slots := fun t => ?_
      tail := fun t => ?_
      nodup := fun o => ?_
      disjoint := fun o o' n hn hn' => ?_
      bound := fun o n hn => ?_
      contents := fun t => ?_
      slotKey := ?_
      occ := fun t => ?_
      len := by rw [hle, h.len, length_append, length_singleton] }
  · rw [hW, hc]
    intro e' he'
    rcases mem_append.mp he' with hol | hla
    · exact h.window e' hol
    · rw [mem_singleton.mp hla]
      exact hw
  · rw [linkChain]
    split
    next ht =>
      rw [ht]
      exact hl.slot
    next ht =>
      obtain ⟨hh, -, -, hnex⟩ := hl.others t ht
      rw [hh]
      exact (h.slots t).congr hnex
  · rw [linkChain]
    split
    next ht =>
      rw [ht, hl.slotTail, getLast?_append, getLast?_singleton, Option.some_or]
    next ht =>
      rw [(hl.others t ht).2.1, h.tail]
  · cases o with
    | none => exact hno.2
    | some t =>
      rw [linkChain]
      split
      · exact (h.nodup _).append (nodup_singleton _)
          (disjoint_singleton.mpr (hnew _))
      · exact h.nodup _
  · rcases hm o n hn with ⟨rfl, ho⟩ | ⟨hne, hol⟩
    · rcases hm o' n hn' with ⟨-, ho'⟩ | ⟨hne', -⟩
      · rw [ho, ho']
      · exact absurd rfl hne'
    rcases hm o' n hn' with ⟨he, -⟩ | ⟨-, hol'⟩
    · exact absurd he hne
    · exact h.disjoint o o' n hol hol'
  · rw [hca]
    rcases hm o n hn with ⟨rfl, -⟩ | ⟨-, hol⟩
    · exact h.bound none _ hid
    · exact h.bound o n hol
  · have hk : ∀ t, (chain (some t)).map w'.payload = (chain (some t)).map w.payload := by
      intro t
      refine map_congr_left fun n hn => ?_
      have hne : n ≠ idx := fun he => hnew t (he ▸ hn)
      rw [hl.payload, update_of_ne hne]
    rw [hW, filter_append, map_append, ← h.contents t, linkChain]
    split
    next ht =>
      rw [map_append, hk, ht]
      simp [hl.payload]
    next ht =>
      rw [hk, filter_singleton]
      simp [Ne.symm ht]
  · rw [hW]
    intro e' he'
    by_cases hs : key e' % w.wheelSize = key e % w.wheelSize
    · have hw' : w.cursorAbs ≤ key e' ∧ key e' < w.cursorAbs + w.wheelSize := by
        rcases mem_append.mp he' with hol | hla
        · exact ⟨(h.window e' hol).1, (h.window e' hol).2.1⟩
        · rw [mem_singleton.mp hla]
          exact ⟨hw.1, hw.2.1⟩
      rw [hs, hl.slotKey]
      exact (eq_of_mod_eq hw' ⟨hw.1, hw.2.1⟩ hs).symm
    rw [(hl.others _ hs).2.2.1]
    rcases mem_append.mp he' with hol | hla
    · exact h.slotKey e' hol
    · exact absurd (by rw [mem_singleton.mp hla]) hs
  · rw [hl.occ, h.occ, linkChain]
    split
    next ht =>
      simp [ht]
    next ht =>
      simp [ht]

theorem Holds.joined_startSlot {free} (hs : s < w.wheelSize) (hf : chain none = idx :: free)
    (he : chain (some s) = []) :
    Joined w
      ({ w with freeHead := w.next idx, payload := update w.payload idx (some x) }.startSlot
        s k idx) chain s k idx free x := by
  have hl := h.free
  rw [hf] at hl
  have hno := h.nodup none
  rw [hf, nodup_cons] at hno
  have hid : idx ∈ chain none := hf ▸ mem_cons_self
  refine
    { same := ⟨rfl, rfl, rfl, rfl, rfl, rfl⟩
      freeList := hl.2.update_of_notMem hno.1 _
      others := fun t ht => ⟨update_of_ne ht _ _, update_of_ne ht _ _,
        update_of_ne ht _ _, fun n hn => ?_⟩
      slot := ?_
      slotTail := update_self _ _ _
      slotKey := update_self _ _ _
      payload := rfl
      occBits := Bitset2.set_bits
      occValid := h.occValid.set (by rw [h.occBits]; exact hs)
      occ := fun t => ?_ }
  · refine update_of_ne (fun heq : n = idx => ?_) _ _
    cases h.disjoint _ _ _ hid (heq ▸ hn)
  · rw [he]
    exact ⟨update_self _ _ _, update_self _ _ _⟩
  have hse : (w.occ.set s).has t = true ↔ t = s ∨ w.occ.has t = true := by
    rw [Bitset2.has_set, Bool.or_eq_true, decide_eq_true_iff]
  exact hse

theorem Holds.joined_extendSlot {free} (hf : chain none = idx :: free)
    (hl : (chain (some s)).getLast? = some last) (hk : w.slotKey s = k) :
    Joined w
      ({ w with freeHead := w.next idx, payload := update w.payload idx (some x) }.extendSlot
        s last idx) chain s k idx free x := by
  have hli := h.free
  rw [hf] at hli
  have hno := h.nodup none
  rw [hf, nodup_cons] at hno
  have hid : idx ∈ chain none := hf ▸ mem_cons_self
  have hm := List.mem_of_getLast? hl
  have hne : ∀ t, idx ∉ chain (some t) := fun t hin => by
    cases h.disjoint _ _ _ hid hin
  have hlf : last ∉ free := fun hin => by
    cases h.disjoint _ _ _ (hf ▸ mem_cons_of_mem _ hin) hm
  refine
    { same := ⟨rfl, rfl, rfl, rfl, rfl, rfl⟩
      freeList := (hli.2.update_of_notMem hlf _).update_of_notMem hno.1 _
      others := fun t ht => ⟨rfl, update_of_ne ht _ _, rfl, fun n hn => ?_⟩
      slot := (h.slots s).push_back hl (h.nodup _) (hne s)
      slotTail := update_self _ _ _
      slotKey := hk
      payload := rfl
      occBits := rfl
      occValid := h.occValid
      occ := fun t => ?_ }
  · have hni : n ≠ idx := fun he => hne t (he ▸ hn)
    have hnl : n ≠ last := fun he => by
      have := h.disjoint _ _ _ hn (he ▸ hm)
      exact ht (Option.some.inj this)
    exact (update_of_ne hni _ _).trans (update_of_ne hnl _ _)
  have ho : w.occ.has s = true := (h.occ s).mpr (ne_nil_of_mem hm)
  refine ⟨.inr, fun hin => hin.elim (fun he => ?_) id⟩
  rw [he]
  exact ho

theorem Holds.push_cases (hk : key e = ceilDiv hiEnd G) (hv : val e = x) :
    (ceilDiv hiEnd G < w.cursorAbs ∧ w.push hiEnd x = (.ok (.ready x), w)) ∨
    (satAdd w.cursorAbs w.wheelSize ≤ ceilDiv hiEnd G ∧
      w.push hiEnd x = (.error (.tooFarInFuture (ceilDiv hiEnd G) w.cursorAbs w.wheelSize), w)) ∨
    w.push hiEnd x = (.error .poolExhausted, w) ∨
    ∃ w' chain', w.push hiEnd x = (.ok .scheduled, w') ∧ Holds key val w' chain' (items ++ [e]) ∧
      w'.wheelSize = w.wheelSize ∧ w'.cursorAbs = w.cursorAbs ∧ w'.nowBucket = w.nowBucket := by
  by_cases hr : ceilDiv hiEnd G < w.cursorAbs
  · exact .inl ⟨hr, if_pos hr⟩
  by_cases hfa : satAdd w.cursorAbs w.wheelSize ≤ ceilDiv hiEnd G
  · refine .inr (.inl ⟨hfa, ?_⟩)
    rw [push, if_neg hr, if_pos hfa]
  cases hh : w.freeHead with
  | none =>
    refine .inr (.inr (.inl ?_))
    rw [push, if_neg hr, if_neg hfa, allocNode, hh]
    rfl
  | some idx =>
    refine .inr (.inr (.inr ?_))
    have hw : w.cursorAbs ≤ key e ∧ key e < w.cursorAbs + w.wheelSize ∧ key e < u64Max := by
      rw [satAdd] at hfa
      omega
    obtain ⟨free, hf⟩ : ∃ free, chain none = idx :: free := by
      have hl := h.free
      rw [hh] at hl
      cases hc : chain none with
      | nil =>
        rw [hc] at hl
        cases hl
      | cons m free =>
        rw [hc] at hl
        exact ⟨free, by rw [Option.some.inj hl.1]⟩
    have hlt : key e % w.wheelSize < w.wheelSize := Nat.mod_lt _ h.size_pos
    -- the outcome is fixed by the joined state, whichever branch built it
    have done : ∀ w', Joined w w' chain (key e % w.wheelSize) (key e) idx free x →
        w.push hiEnd x = (.ok .scheduled, w') → ∃ w' chain',
          w.push hiEnd x = (.ok .scheduled, w') ∧ Holds key val w' chain' (items ++ [e]) ∧
          w'.wheelSize = w.wheelSize ∧ w'.cursorAbs = w.cursorAbs ∧
          w'.nowBucket = w.nowBucket := by
      intro w' hj hp
      obtain ⟨hW, hc, -, hn, -, -⟩ := hj.same
      exact ⟨w', _, hp, h.joined hf hw (hv ▸ hj), hW, hc, hn⟩
    have hs : slotOf ({ w with
        freeHead := w.next idx
        payload := update w.payload idx (some x) } : TimingWheel T G) (ceilDiv hiEnd G) =
          key e % w.wheelSize := by
      rw [hk, ← h.slotOf_eq]
      rfl
    by_cases he : w.head (key e % w.wheelSize) = none
    · refine done _ (h.joined_startSlot hlt hf ((h.slots _).eq_nil_iff.mpr he)) ?_
      rw [push, if_neg hr, if_neg hfa, allocNode, hh, Option.map_some]
      dsimp only
      rw [link, hs]
      rw [if_pos he, hk]
    -- an occupied slot holds an item of the same key
    have hne : chain (some (key e % w.wheelSize)) ≠ [] := mt (h.slots _).eq_nil_iff.mp he
    obtain ⟨e', he', hm⟩ := (h.chain_ne_nil_iff _).mp hne
    have hsa : key e' = key e := eq_of_mod_eq
      ⟨(h.window e' he').1, (h.window e' he').2.1⟩ ⟨hw.1, hw.2.1⟩ hm
    have hka : w.slotKey (key e % w.wheelSize) = key e := by
      rw [← hm, h.slotKey e' he', hsa]
    obtain ⟨_, hla⟩ := Option.isSome_iff_exists.mp (getLast?_isSome.mpr hne)
    refine done _ (h.joined_extendSlot hf hla hka) ?_
    rw [push, if_neg hr, if_neg hfa, allocNode, hh, Option.map_some]
    dsimp only
    rw [link, hs]
    rw [if_neg he, if_neg (not_not.mpr (by rw [hka, hk])), h.tail, hla, Option.getD_some]

end

/-! ### Draining -/

/-- Walking a list frees its nodes and hands out their payloads; nothing else changes. -/
theorem drainList_spec {l free} : ∀ {fuel} {w : TimingWheel T G} {o},
    l.length ≤ fuel → Linked w.next o l → Linked w.next w.freeHead free → (l ++ free).Nodup →
    ∃ N F, (drainList fuel w o) = (l.flatMap fun n => (w.payload n).toList,
        { w with next := N, freeHead := F, len := w.len - l.length }) ∧
      Linked N F (l.reverse ++ free) ∧ ∀ n, n ∉ l → N n = w.next n := by
  induction l generalizing free with
  | nil =>
    intro fuel w o _ ho hf _
    rw [show o = none from ho]
    refine ⟨w.next, w.freeHead, ?_, hf, fun _ _ => rfl⟩
    cases fuel <;> rfl
  | cons m l ih =>
    intro fuel w o hle ho hf hno
    obtain ⟨hm, hl⟩ := nodup_cons.mp (show (m :: (l ++ free)).Nodup from hno)
    have hml : m ∉ l := fun h => hm (mem_append_left _ h)
    have hmf : m ∉ free := fun h => hm (mem_append_right _ h)
    cases fuel with
    | zero => exact absurd hle (by simp)
    | succ fuel =>
      have hn' : (l ++ m :: free).Nodup :=
        perm_middle.nodup_iff.mpr (nodup_cons.mpr ⟨hm, hl⟩)
      obtain ⟨N, F, he, hN, hk⟩ := @ih (m :: free) fuel
        { w.freeNode m with len := w.len - 1 } (w.next m) (by simpa using hle)
        (ho.2.update_of_notMem hml _) (hf.push_front hmf) hn'
      refine ⟨N, F, ?_, ?_, fun n hn => ?_⟩
      · rw [ho.1, drainList, he]
        simp only [flatMap_cons, length_cons, freeNode]
        rw [Nat.sub_sub, Nat.add_comm 1]
      · rw [reverse_cons, append_assoc]
        exact hN
      rw [mem_cons, not_or] at hn
      rw [hk n hn.2]
      exact update_of_ne hn.1 _ _

def drainChain (chain : Option Nat → List Nat) (s : Nat) : Option Nat → List Nat
  | none => (chain (some s)).reverse ++ chain none
  | some t => if t = s then [] else chain (some t)

section

variable (h : Holds key val w chain items)

include h

theorem Holds.drainSlot (s) :
    (w.drainSlot s).1 = (items.filter fun e => decide (key e % w.wheelSize = s)).map val ∧
      Holds key val (w.drainSlot s).2 (drainChain chain s)
        (items.filter fun e => decide (key e % w.wheelSize ≠ s)) ∧
      (w.drainSlot s).2.wheelSize = w.wheelSize ∧ (w.drainSlot s).2.cursorAbs = w.cursorAbs ∧
      (w.drainSlot s).2.nowBucket = w.nowBucket := by
  have hd : ∀ n ∈ chain (some s), n ∉ chain none := fun n hn hn' => by
    cases h.disjoint _ _ _ hn hn'
  have hno : (chain (some s) ++ chain none).Nodup :=
    (h.nodup _).append (h.nodup _) fun n hn hn' => hd n hn hn'
  obtain ⟨N, F, heq, hf, hke⟩ := @drainList_spec T G (chain (some s)) (chain none) w.cap
    { w with
      head := update w.head s none
      tail := update w.tail s none
      slotKey := update w.slotKey s 0
      occ := w.occ.clear s }
    (w.head s) (Linked.length_le (h.nodup _) (h.bound _)) (h.slots s) h.free hno
  rw [TimingWheel.drainSlot, heq]
  have hp : (chain (some s)).flatMap (fun n => (w.payload n).toList) =
      (items.filter fun e => decide (key e % w.wheelSize = s)).map val := by
    have hma : (chain (some s)).flatMap (fun n => (w.payload n).toList) =
        ((chain (some s)).map w.payload).flatMap Option.toList := by
      rw [flatMap_map]
    rw [hma, h.contents, flatMap_map]
    exact map_eq_flatMap.symm
  refine ⟨hp, ?_, rfl, rfl, rfl⟩
  have hm : ∀ o n, n ∈ drainChain chain s o → (o = none ∧ n ∈ chain (some s)) ∨
      (n ∈ chain o ∧ o ≠ some s) := by
    intro o n hn
    cases o with
    | none =>
      rcases mem_append.mp hn with hin | hin
      · exact .inl ⟨rfl, mem_reverse.mp hin⟩
      · exact .inr ⟨hin, fun heq => by cases heq⟩
    | some t =>
      rw [drainChain] at hn
      split at hn
      · cases hn
      next ht =>
        exact .inr ⟨hn, fun heq => ht (Option.some.inj heq)⟩
  have hot : ∀ t, t ≠ s → ∀ n ∈ chain (some t), n ∉ chain (some s) := by
    intro t ht n hn hn'
    exact ht (Option.some.inj (h.disjoint _ _ _ hn hn'))
  refine
    { pow := h.pow
      occBits := by
        have hbi : (w.occ.clear s).bits = w.wheelSize := by rw [Bitset2.clear_bits, h.occBits]
        exact hbi
      occValid := h.occValid.clear
      cursorSlot := h.cursorSlot
      window := fun e he => h.window e (mem_of_mem_filter he)
      free := hf
      slots := fun t => ?_
      tail := fun t => ?_
      nodup := fun o => ?_
      disjoint := fun o o' n hn hn' => ?_
      bound := fun o n hn => ?_
      contents := fun t => ?_
      slotKey := fun e he => ?_
      occ := fun t => ?_
      len := ?_ }
  · rw [drainChain]
    dsimp only
    split
    next ht =>
      rw [ht, update_self]
      exact rfl
    next ht =>
      rw [update_of_ne ht]
      exact (h.slots t).congr fun n hn => hke n (hot t ht n hn)
  · rw [drainChain]
    dsimp only
    split
    next ht =>
      rw [ht, update_self]
      rfl
    next ht =>
      rw [update_of_ne ht, h.tail]
  · cases o with
    | none =>
      exact (nodup_reverse.mpr (h.nodup _)).append (h.nodup _) fun n hn hn' =>
        hd n (mem_reverse.mp hn) hn'
    | some t =>
      rw [drainChain]
      split
      · exact nodup_nil
      · exact h.nodup _
  · rcases hm o n hn with ⟨ho, hin⟩ | ⟨hin, hne⟩
    · rcases hm o' n hn' with ⟨ho', -⟩ | ⟨hi', hne'⟩
      · rw [ho, ho']
      · exact absurd (h.disjoint _ _ _ hi' hin) hne'
    rcases hm o' n hn' with ⟨-, hi'⟩ | ⟨hi', -⟩
    · exact absurd (h.disjoint _ _ _ hin hi') hne
    · exact h.disjoint _ _ _ hin hi'
  · rcases hm o n hn with ⟨-, hin⟩ | ⟨hin, -⟩
    · exact h.bound _ n hin
    · exact h.bound _ n hin
  · rw [filter_filter, drainChain]
    split
    next ht =>
      symm
      rw [map_nil, map_eq_nil_iff, filter_eq_nil_iff]
      intro e _ hb
      simp only [ht, Bool.and_eq_true, decide_eq_true_iff] at hb
      exact hb.2 hb.1
    next ht =>
      rw [h.contents]
      congr 1
      refine filter_congr fun e _ => ?_
      by_cases hk : key e % w.wheelSize = t
      · simp [hk, ht]
      · simp [hk]
  · have hin := mem_filter.mp he
    have hne : key e % w.wheelSize ≠ s := of_decide_eq_true hin.2
    exact (update_of_ne hne _ _).trans (h.slotKey e hin.1)
  · have hc : (w.occ.clear s).has t = true ↔ t ≠ s ∧ chain (some t) ≠ [] := by
      rw [Bitset2.has_clear, Bool.and_eq_true, h.occ]
      simp
    refine hc.trans ?_
    rw [drainChain]
    split
    next ht =>
      simp [ht]
    next ht =>
      simp [ht]
  · have hl := congrArg length (h.contents s)
    rw [length_map, length_map] at hl
    have hs := length_eq_length_filter_add (l := items)
      fun e => decide (key e % w.wheelSize = s)
    dsimp only
    rw [h.len, hl, hs, Nat.add_sub_cancel_left]
    congr 1
    refine filter_congr fun e _ => ?_
    rw [decide_not]

theorem Holds.cyclicDist_mod (hs : s < w.wheelSize) :
    w.cyclicDist s < w.wheelSize ∧ (w.cursorAbs + w.cyclicDist s) % w.wheelSize = s := by
  have hfr := Nat.mod_lt w.cursorAbs h.size_pos
  have hd := Nat.div_add_mod w.cursorAbs w.wheelSize
  rw [cyclicDist, h.cursorSlot]
  generalize hf : w.cursorAbs % w.wheelSize = from_ at hfr hd
  split
  · refine ⟨by omega, ?_⟩
    have : w.cursorAbs + (s - from_) = w.wheelSize * (w.cursorAbs / w.wheelSize) + s := by omega
    rw [this, Nat.mul_add_mod, Nat.mod_eq_of_lt hs]
  refine ⟨by omega, ?_⟩
  have : w.cursorAbs + (w.wheelSize - (from_ - s)) =
      w.wheelSize * (w.cursorAbs / w.wheelSize + 1) + s := by
    rw [Nat.mul_add]
    omega
  rw [this, Nat.mul_add_mod, Nat.mod_eq_of_lt hs]

theorem Holds.key_eq (he : e ∈ items) :
    key e = w.cursorAbs + w.cyclicDist (key e % w.wheelSize) := by
  obtain ⟨_, hm⟩ := h.cyclicDist_mod (Nat.mod_lt (key e) h.size_pos)
  obtain ⟨hl, hh, -⟩ := h.window e he
  exact eq_of_mod_eq ⟨hl, hh⟩ ⟨by omega, by omega⟩ hm.symm

theorem Holds.found (hs : w.occ.findNextSetCyclic w.cursorSlot = some s) :
    (∃ e ∈ items, key e = w.cursorAbs + w.cyclicDist s) ∧
      (∀ e ∈ items, w.cursorAbs + w.cyclicDist s ≤ key e) ∧
      ∀ e ∈ items, key e % w.wheelSize = s ↔ key e = w.cursorAbs + w.cyclicDist s := by
  have hf := (Bitset2.findNextSetCyclic_spec h.occValid w.cursorSlot).1 s hs
  have hse : w.occ.has s = true := hf.elim (fun hn => hn.1) fun hn => hn.1.1
  have hlt : s < w.wheelSize := h.occBits ▸ h.occValid.bounded s hse
  obtain ⟨e0, he0, hm0⟩ := (h.chain_ne_nil_iff s).mp ((h.occ s).mp hse)
  have hk0 := h.key_eq he0
  rw [hm0] at hk0
  have hsl : ∀ e ∈ items, w.occ.has (key e % w.wheelSize) = true := fun e he =>
    (h.occ _).mpr ((h.chain_ne_nil_iff _).mpr ⟨e, he, rfl⟩)
  refine ⟨⟨e0, he0, hk0⟩, fun e he => ?_, fun e he => ⟨fun hm => ?_, fun hk => ?_⟩⟩
  · rw [h.key_eq he]
    have hin := hsl e he
    have hl' := Nat.mod_lt (key e) h.size_pos
    refine Nat.add_le_add_left ?_ _
    rw [cyclicDist, cyclicDist]
    generalize key e % w.wheelSize = t at hin hl'
    rcases hf with ⟨-, hg, hl⟩ | ⟨⟨-, -, hl⟩, hb⟩
    · rw [if_pos hg]
      split
      · have := hl t hin (by assumption)
        omega
      · omega
    have h1 := hb t hin
    have h3 := hl t hin (Nat.zero_le _)
    rw [if_neg (by omega), if_neg (by omega)]
    omega
  · rw [h.key_eq he, hm]
  · rw [hk]
    exact (h.cyclicDist_mod hlt).2

theorem Holds.moveCursor (hb : w.cursorAbs ≤ base) (hk : ∀ e ∈ items, base ≤ key e) :
    Holds key val (w.moveCursor base) chain items :=
  { h with
    cursorSlot := h.slotOf_eq base
    window := fun e he => ⟨hk e he, by
      have hh := (h.window e he).2.1
      have : key e < base + w.wheelSize := by omega
      exact this, (h.window e he).2.2⟩ }

end

/-- The order of delivery: by bucket, and inside a bucket by `R`. -/
def Delivery (key : E → Nat) (R : E → E → Prop) (a b : E) : Prop :=
  key a < key b ∨ (key a = key b ∧ R a b)

structure Drained (key : E → Nat) (val : E → T) (R : E → E → Prop) (items : List E) (now : Nat)
    (out : List T) (ds : List E) : Prop where
  out_eq : out = ds.map val
  ordered : ds.Pairwise (Delivery key R)
  mem_iff : ∀ e, e ∈ ds ↔ e ∈ items ∧ key e ≤ now

theorem Drained.nothing (hl : ∀ e ∈ items, now < key e) : Drained key val R items now [] [] where
  out_eq := rfl
  ordered := List.Pairwise.nil
  mem_iff e := ⟨fun he => (by cases he), fun he => absurd he.2 (Nat.not_le.mpr (hl e he.1))⟩

theorem filter_late (hl : ∀ e ∈ items, now < key e) :
    items.filter (fun e => decide (now < key e)) = items :=
  filter_eq_self.mpr fun e he => decide_eq_true (hl e he)

theorem Drained.cons (hp : ∀ e ∈ items, p e = true ↔ key e = k) (hk : k ≤ now)
    (hl : ∀ e ∈ items, k ≤ key e) (hR : items.Pairwise R)
    (h : Drained key val R (items.filter fun e => !p e) now out ds) :
    Drained key val R items now ((items.filter p).map val ++ out) (items.filter p ++ ds) := by
  refine ⟨by rw [map_append, h.out_eq], pairwise_append.mpr ⟨?_, h.ordered, ?_⟩, ?_⟩
  · refine (hR.filter p).imp_of_mem fun {a b} ha hb hab => .inr ⟨?_, hab⟩
    have ha := mem_filter.mp ha
    have hb := mem_filter.mp hb
    rw [(hp a ha.1).mp ha.2, (hp b hb.1).mp hb.2]
  · intro a ha b hb
    have ha := mem_filter.mp ha
    have hb := mem_filter.mp ((h.mem_iff b).mp hb).1
    have hn : key b ≠ k := fun he => by
      have := (hp b hb.1).mpr he
      simp [this] at hb
    have := hl b hb.1
    refine .inl ?_
    rw [(hp a ha.1).mp ha.2]
    omega
  · intro e
    rw [mem_append, h.mem_iff, mem_filter, mem_filter]
    by_cases hin : e ∈ items
    · by_cases hpe : p e = true
      · have : key e ≤ now := by rw [(hp e hin).mp hpe]; exact hk
        simp [hin, hpe, this]
      · simp [hin, hpe]
    · simp [hin]

theorem drainDue_spec : ∀ {fuel} {w : TimingWheel T G}
    {chain} {items}, Holds key val w chain items →
    items.Pairwise R → w.nowBucket + 1 - w.cursorAbs ≤ fuel →
    ∃ chain' ds, Drained key val R items w.nowBucket (drainDue fuel w).1 ds ∧
      Holds key val (drainDue fuel w).2 chain'
        (items.filter fun e => decide (w.nowBucket < key e)) ∧
      (drainDue fuel w).2.wheelSize = w.wheelSize ∧
      (drainDue fuel w).2.nowBucket = w.nowBucket ∧
      (drainDue fuel w).2.cursorAbs ≤ max w.cursorAbs (w.nowBucket + 1) := by
  intro fuel
  induction fuel with
  | zero =>
    intro w chain items h _ hfu
    have hl : ∀ e ∈ items, w.nowBucket < key e := fun e he => by
      have := (h.window e he).1
      omega
    rw [drainDue, filter_late hl]
    exact ⟨chain, [], Drained.nothing hl, h, rfl, rfl, Nat.le_max_left _ _⟩
  | succ fuel ih =>
    intro w chain items h hR hfu
    -- a round that stops leaves only later items
    have stop : (∀ e ∈ items, w.nowBucket < key e) →
        ∃ chain' ds, Drained key val R items w.nowBucket ([] : List T) ds ∧
          Holds key val w chain' (items.filter fun e => decide (w.nowBucket < key e)) ∧
          w.wheelSize = w.wheelSize ∧ w.nowBucket = w.nowBucket ∧
          w.cursorAbs ≤ max w.cursorAbs (w.nowBucket + 1) := by
      intro hl
      rw [filter_late hl]
      exact ⟨chain, [], Drained.nothing hl, h, rfl, rfl, Nat.le_max_left _ _⟩
    rw [drainDue]
    by_cases hp : w.nowBucket < w.cursorAbs
    · rw [if_pos hp]
      refine stop fun e he => ?_
      have := (h.window e he).1
      omega
    rw [if_neg hp]
    cases hf : w.occ.findNextSetCyclic w.cursorSlot with
    | none =>
      refine stop fun e he => ?_
      have hno := (Bitset2.findNextSetCyclic_spec h.occValid w.cursorSlot).2 hf
        (key e % w.wheelSize)
      have hy := (h.occ _).mpr ((h.chain_ne_nil_iff _).mpr ⟨e, he, rfl⟩)
      rw [hno] at hy
      cases hy
    | some s =>
      obtain ⟨⟨e0, he0, hk0⟩, hle, hs⟩ := h.found hf
      have hmax := (h.window e0 he0).2.2
      rw [hk0] at hmax
      have ha : satAdd w.cursorAbs (w.cyclicDist s) = w.cursorAbs + w.cyclicDist s :=
        satAdd_eq (by omega)
      dsimp only
      rw [ha]
      generalize w.cursorAbs + w.cyclicDist s = k at *
      by_cases hd : w.nowBucket < k
      · rw [if_pos hd]
        exact stop fun e he => lt_of_lt_of_le hd (hle e he)
      rw [if_neg hd, satAdd_eq (by omega : k + 1 ≤ u64Max)]
      obtain ⟨ho, hr, hW, hc, hn⟩ := h.drainSlot s
      have hk : ∀ e ∈ items.filter (fun e => decide (key e % w.wheelSize ≠ s)), k + 1 ≤ key e := by
        intro e he
        have hin := mem_filter.mp he
        have hne : key e ≠ k := fun heq => of_decide_eq_true hin.2 ((hs e hin.1).mpr heq)
        have := hle e hin.1
        omega
      have hb : w.cursorAbs ≤ k := hk0 ▸ (h.window e0 he0).1
      have hm := hr.moveCursor (by rw [hc]; omega) hk
      have hn' : ((w.drainSlot s).2.moveCursor (k + 1)).nowBucket = w.nowBucket := hn
      have hW' : ((w.drainSlot s).2.moveCursor (k + 1)).wheelSize = w.wheelSize := hW
      have hc' : ((w.drainSlot s).2.moveCursor (k + 1)).cursorAbs = k + 1 := rfl
      obtain ⟨chain', ds, hds, hh, hW'', hn'', hc''⟩ := ih hm (hR.filter _)
        (by rw [hn', hc']; omega)
      rw [hn'] at hds hh hn'' hc''
      rw [hc'] at hc''
      refine ⟨chain', items.filter (fun e => decide (key e % w.wheelSize = s)) ++ ds, ?_, ?_,
        hW''.trans hW', hn'', hc''.trans (by omega)⟩
      · rw [ho]
        refine Drained.cons (k := k) (fun e he => ?_) (by omega) hle hR ?_
        · rw [decide_eq_true_iff]
          exact hs e he
        · simpa only [decide_not] using hds
      rw [filter_filter] at hh
      have hsa : items.filter (fun e => decide (w.nowBucket < key e) &&
          decide (key e % w.wheelSize ≠ s)) =
            items.filter fun e => decide (w.nowBucket < key e) := by
        refine filter_congr fun e he => ?_
        by_cases hl : w.nowBucket < key e
        · have hne : key e % w.wheelSize ≠ s := fun heq => by
            have := (hs e he).mp heq
            omega
          simp [hl, hne]
        · simp [hl]
      rwa [hsa] at hh

/-- Whether time has been observed yet, and where the cursor then stands. -/
def OnTime (w : TimingWheel T G) : Prop :=
  (w.cursorAbs = 0 ∧ w.nowBucket = 0) ∨ w.cursorAbs = w.nowBucket + 1

theorem Holds.advanceAndDrain (h : Holds key val w chain items) (hR : items.Pairwise R)
    (hcl : w.OnTime) (hmono : w.nowBucket ≤ now / G) (hmax : now / G < u64Max) :
    ∃ chain' ds, Drained key val R items (now / G) (w.advanceAndDrain now).1 ds ∧
      Holds key val (w.advanceAndDrain now).2 chain'
        (items.filter fun e => decide (now / G < key e)) ∧
      (w.advanceAndDrain now).2.wheelSize = w.wheelSize ∧
      (w.advanceAndDrain now).2.nowBucket = now / G ∧
      (w.advanceAndDrain now).2.cursorAbs = now / G + 1 := by
  rw [TimingWheel.advanceAndDrain]
  dsimp only
  rw [if_neg (Nat.not_lt.mpr hmono)]
  by_cases hs : now / G = w.nowBucket ∧ now / G < w.cursorAbs
  · rw [if_pos hs]
    have hcu : w.cursorAbs = now / G + 1 := by
      rcases hcl with hst | ha
      · omega
      · rw [ha, hs.1]
    have hl : ∀ e ∈ items, now / G < key e := fun e he => by
      have := (h.window e he).1
      omega
    rw [filter_late hl]
    exact ⟨chain, [], Drained.nothing hl, h, rfl, hs.1.symm, hcu⟩
  rw [if_neg hs]
  have hcu : w.cursorAbs ≤ now / G + 1 := by
    rcases hcl with hst | ha
    · omega
    · omega
  have hse : Holds key val ({ w with nowBucket := now / G } : TimingWheel T G) chain items :=
    { h with }
  obtain ⟨chain', ds, hd, hh, hW, hn, hc⟩ := drainDue_spec hse hR le_rfl
  have hc : (drainDue (now / G + 1 - w.cursorAbs) { w with nowBucket := now / G }).2.cursorAbs ≤
      now / G + 1 := hc.trans (Nat.max_le.mpr ⟨hcu, le_rfl⟩)
  refine ⟨chain', ds, hd, ?_⟩
  rw [fastForward, hn, satAdd_eq (by omega : now / G + 1 ≤ u64Max)]
  split
  · refine ⟨hh.moveCursor hc fun e he => ?_, hW, hn, rfl⟩
    exact of_decide_eq_true (mem_filter.mp he).2
  next hr =>
    exact ⟨hh, hW, hn, Nat.le_antisymm hc (Nat.not_lt.mp hr)⟩

/-! ### A new wheel -/

theorem linked_range' {next m}
    (hn : ∀ i < m, next i = if i + 1 < m then some (i + 1) else none) :
    ∀ n i, i + n = m → Linked next (if i < m then some i else none) (range' i n) := by
  intro n
  induction n with
  | zero =>
    intro i hi
    rw [if_neg (by omega)]
    exact rfl
  | succ n ih =>
    intro i hi
    rw [if_pos (by omega)]
    refine ⟨rfl, ?_⟩
    rw [hn i (by omega)]
    exact ih (i + 1) (by omega)

theorem nextPow2_pow (x) : ∃ n, nextPow2 x = 2 ^ n := ⟨_, rfl⟩

theorem le_nextPow2 {x} (hx : x ≤ 2 ^ 63) : x ≤ nextPow2 x := by
  rw [nextPow2]
  cases hf : (List.range 64).find? fun n => decide (x ≤ 2 ^ n) with
  | none => exact hx
  | some n =>
    have hn := List.find?_some hf
    exact of_decide_eq_true hn

/-- The lists of a new wheel: every node is free. Indices that `u32` cannot store are never reached.
-/
def newChain (nodeCap : Nat) : Option Nat → List Nat
  | none => List.range' 0 (min nodeCap (2 ^ 32 - 1))
  | some _ => []

theorem holds_new (maxHorizonBytes nodeCap) :
    Holds key val (new maxHorizonBytes nodeCap : TimingWheel T G) (newChain nodeCap) [] := by
  refine
    { pow := nextPow2_pow _
      occBits := rfl
      occValid := Bitset2.valid_new _
      cursorSlot := (Nat.zero_mod _).symm
      window := fun e he => (by cases he)
      free := ?_
      slots := fun s => rfl
      tail := fun s => rfl
      nodup := fun o => ?_
      disjoint := fun o o' n hn hn' => ?_
      bound := fun o n hn => ?_
      contents := fun s => rfl
      slotKey := fun e he => (by cases he)
      occ := fun s => ?_
      len := rfl }
  · have hl := @linked_range' (new maxHorizonBytes nodeCap : TimingWheel T G).next
      (min nodeCap (2 ^ 32 - 1)) (fun i hi => ?_) (min nodeCap (2 ^ 32 - 1)) 0 (Nat.zero_add _)
    · have hh : (new maxHorizonBytes nodeCap : TimingWheel T G).freeHead =
          if 0 < min nodeCap (2 ^ 32 - 1) then some 0 else none := by
        by_cases hc : nodeCap = 0
        · simp [new, hc]
        have hp : 0 < min nodeCap (2 ^ 32 - 1) := by omega
        rw [if_pos hp]
        exact if_neg hc
      rw [hh]
      exact hl
    · rw [new]
      dsimp only
      rw [asU32]
      have hm : (i + 1) % 2 ^ 32 = i + 1 := Nat.mod_eq_of_lt (by omega)
      rw [hm]
      by_cases hin : i + 1 < min nodeCap (2 ^ 32 - 1)
      · rw [if_pos (by omega), if_neg (by omega), if_pos hin]
      rw [if_neg hin]
      by_cases hc : i + 1 < nodeCap
      · rw [if_pos hc, if_pos (by omega)]
      · rw [if_neg hc]
  · cases o with
    | none => exact nodup_range'
    | some s => exact nodup_nil
  · cases o with
    | none =>
      cases o' with
      | none => rfl
      | some s => cases hn'
    | some s => cases hn
  · cases o with
    | none =>
      have := (mem_range'_1.mp hn).2
      have hlt : n < nodeCap := by omega
      exact hlt
    | some s => cases hn
  · simp [new, Bitset2.has, Bitset2.new, newChain]

end Queue

end TimingWheel

end GossipRs.Stdx
