import GossipRs.Stdx.WheelQueue

/-! Runs of a timing wheel: any interleaving of `push` and `advance_and_drain` with non-decreasing
offsets. Each item is delivered once, by the first advance that reaches its bucket, in order. -/

namespace GossipRs.Stdx

open List

theorem ceilDiv_le_iff (hd : 0 < d) : ceilDiv n d ≤ k ↔ n ≤ k * d := by
  have hdi := Nat.div_add_mod n d
  rw [ceilDiv]
  split
  next hr =>
    refine (Nat.div_lt_iff_lt_mul hd).trans ⟨Nat.le_of_lt, fun hl => Nat.lt_of_le_of_ne hl ?_⟩
    intro he
    rw [he, Nat.mul_mod_left] at hr
    exact hr rfl
  · have hn : n = n / d * d := by
      rw [Nat.mul_comm]
      omega
    refine ⟨fun hl => ?_, fun hl => ?_⟩
    · rw [hn]
      exact Nat.mul_le_mul_right d hl
    · rw [hn] at hl
      exact Nat.le_of_mul_le_mul_right hl hd

variable {chain : Option Nat → List Nat}

namespace TimingWheel

inductive WheelEvent (T : Type) where
  | pushed (hiEnd : Nat) (payload : T) (result : Except PushError (PushOutcome T))
  | advanced (now : Nat) (delivered : List T)

def lastNow {T : Type} (tr : List (WheelEvent T)) : Nat :=
  tr.foldl (fun last ev =>
    match ev with
    | .pushed _ _ _ => last
    | .advanced now _ => now) 0

structure Entry (T : Type) where
  index : Nat
  hiEnd : Nat
  payload : T

def Entry.key {T : Type} (G : Nat) (e : Entry T) : Nat := ceilDiv e.hiEnd G

/-- The push was answered `Scheduled`, and no advance since has reached its bucket. -/
def Outstanding {T : Type} (G : Nat) (tr : List (WheelEvent T)) (e : Entry T) : Prop :=
  tr[e.index]? = some (.pushed e.hiEnd e.payload (.ok .scheduled)) ∧
    ∀ j now out, e.index < j → tr[j]? = some (.advanced now out) → now / G < e.key G

/-- What an advance delivers after a run: the outstanding items that it reaches, by bucket and then
in push order, none before its right edge and none left that is `G` bytes late. -/
def Delivers {T : Type} (G : Nat) (pre : List (WheelEvent T)) (now : Nat) (out : List T) : Prop :=
  ∃ ds : List (Entry T), out = ds.map Entry.payload ∧
    ds.Pairwise (Delivery (Entry.key G) fun a b => a.index < b.index) ∧
    (∀ e, e ∈ ds ↔ Outstanding G pre e ∧ e.key G ≤ now / G) ∧
    (∀ e ∈ ds, e.hiEnd ≤ now) ∧
    ∀ e, Outstanding G pre e → e ∉ ds → now < e.hiEnd + G

structure Answers {T : Type} (G maxHorizonBytes : Nat) (pre : List (WheelEvent T)) (hiEnd : Nat)
    (x : T) (r : Except PushError (PushOutcome T)) : Prop where
  ready : ∀ y, r = .ok (.ready y) → y = x ∧ hiEnd ≤ lastNow pre
  collision : ∀ slot existing new, r ≠ .error (.slotCollision slot existing new)
  horizon : ∀ k base size, r = .error (.tooFarInFuture k base size) →
    wRequired G maxHorizonBytes ≤ 2 ^ 30 → ¬ (G = 1 ∧ hiEnd = u64Max) →
      lastNow pre + maxHorizonBytes < hiEnd

def Meets {T : Type} (G maxHorizonBytes : Nat) (pre : List (WheelEvent T)) :
    WheelEvent T → Prop
  | .pushed hiEnd x r => Answers G maxHorizonBytes pre hiEnd x r
  | .advanced now out => Delivers G pre now out

inductive Run {T : Type} (G maxHorizonBytes nodeCap : Nat) :
    List (WheelEvent T) → TimingWheel T G → Prop
  | new : Run G maxHorizonBytes nodeCap [] (new maxHorizonBytes nodeCap)
  | push {tr w} (hiEnd : Nat) (x : T) : Run G maxHorizonBytes nodeCap tr w → hiEnd ≤ u64Max →
      Run G maxHorizonBytes nodeCap (tr ++ [.pushed hiEnd x (w.push hiEnd x).1])
        (w.push hiEnd x).2
  | advance {tr w} (now : Nat) : Run G maxHorizonBytes nodeCap tr w → lastNow tr ≤ now →
      now < 2 ^ 64 - G →
      Run G maxHorizonBytes nodeCap (tr ++ [.advanced now (w.advanceAndDrain now).1])
        (w.advanceAndDrain now).2

section History

variable {T : Type} {G maxHorizonBytes nodeCap : Nat} {tr : List (WheelEvent T)}
  {w : TimingWheel T G}

@[simp] theorem lastNow_push (hiEnd) (x) (r : Except PushError (PushOutcome T)) :
    lastNow (tr ++ [.pushed hiEnd x r]) = lastNow tr := by
  simp [lastNow]

@[simp] theorem lastNow_advance (now) (out) :
    lastNow (tr ++ [.advanced now out]) = now := by
  simp [lastNow]

theorem outstanding_push : Outstanding G (tr ++ [.pushed hiEnd x r]) e ↔
      Outstanding G tr e ∨ (r = .ok .scheduled ∧ e = ⟨tr.length, hiEnd, x⟩) := by
  have hl : ∀ {j now : Nat} {out : List T}, (tr ++ [WheelEvent.pushed hiEnd x r])[j]? =
      some (.advanced now out) ↔ tr[j]? = some (.advanced now out) := by
    intro j now out
    rcases Nat.lt_trichotomy j tr.length with hlt | rfl | hgt
    · rw [List.getElem?_append_left hlt]
    · simp
    · rw [List.getElem?_eq_none (by simp; omega), List.getElem?_eq_none (by omega)]
  rw [Outstanding, Outstanding]
  simp only [hl]
  rcases Nat.lt_trichotomy e.index tr.length with hlt | he | hgt
  · rw [List.getElem?_append_left hlt]
    refine ⟨.inl, fun h => h.elim id fun hn => ?_⟩
    rw [hn.2] at hlt
    exact absurd hlt (Nat.lt_irrefl _)
  · rw [he, List.getElem?_concat_length, List.getElem?_eq_none le_rfl]
    refine ⟨fun h => .inr ?_, fun h => h.elim (fun ho => by cases ho.1) fun hn => ?_⟩
    · obtain ⟨hh, hx, hr⟩ := WheelEvent.pushed.inj (Option.some.inj h.1)
      refine ⟨hr, ?_⟩
      rw [hh, hx, ← he]
    refine ⟨by rw [hn.1, hn.2], fun j now out hj hg => ?_⟩
    rw [List.getElem?_eq_none (by omega)] at hg
    cases hg
  rw [List.getElem?_eq_none (by simp; omega), List.getElem?_eq_none (by omega)]
  refine ⟨fun h => (by cases h.1), fun h => h.elim (fun ho => by cases ho.1) fun hn => ?_⟩
  rw [hn.2] at hgt
  exact absurd hgt (Nat.lt_irrefl _)

theorem outstanding_advance :
    Outstanding G (tr ++ [.advanced now out]) e ↔ Outstanding G tr e ∧ now / G < e.key G := by
  rw [Outstanding, Outstanding]
  have hp : (tr ++ [WheelEvent.advanced now out])[e.index]? =
      some (.pushed e.hiEnd e.payload (.ok .scheduled)) ↔
        tr[e.index]? = some (.pushed e.hiEnd e.payload (.ok .scheduled)) := by
    rcases Nat.lt_trichotomy e.index tr.length with hl | he | hgt
    · rw [List.getElem?_append_left hl]
    · rw [he]
      simp
    · rw [List.getElem?_eq_none (by simp; omega), List.getElem?_eq_none (by omega)]
  rw [hp]
  refine ⟨fun h => ⟨⟨h.1, fun j n o hj hg => ?_⟩, ?_⟩, fun h => ⟨h.1.1, fun j n o hj hg => ?_⟩⟩
  · have hl := (List.getElem?_eq_some_iff.mp hg).1
    exact h.2 j n o hj (by rw [List.getElem?_append_left hl]; exact hg)
  · have hl := (List.getElem?_eq_some_iff.mp h.1).1
    exact h.2 tr.length now out hl List.getElem?_concat_length
  rcases Nat.lt_trichotomy j tr.length with hl | he | hgt
  · rw [List.getElem?_append_left hl] at hg
    exact h.1.2 j n o hj hg
  · rw [he, List.getElem?_concat_length] at hg
    obtain ⟨rfl, -⟩ := WheelEvent.advanced.inj (Option.some.inj hg)
    exact h.2
  · rw [List.getElem?_eq_none (by simp; omega)] at hg
    cases hg

structure Tracks (maxHorizonBytes nodeCap : Nat) (tr : List (WheelEvent T)) (w : TimingWheel T G)
    (chain : Option Nat → List Nat) (items : List (Entry T)) : Prop where
  holds : Holds (Entry.key G) Entry.payload w chain items
  inOrder : items.Pairwise fun a b => a.index < b.index
  outstanding : ∀ e, e ∈ items ↔ Outstanding G tr e
  onTime : w.OnTime
  clock : w.nowBucket = lastNow tr / G
  size : w.wheelSize = (new maxHorizonBytes nodeCap : TimingWheel T G).wheelSize

theorem tracks_new : Tracks maxHorizonBytes nodeCap [] (new maxHorizonBytes nodeCap)
    (newChain nodeCap) ([] : List (Entry T)) (G := G) where
  holds := holds_new _ _
  inOrder := List.Pairwise.nil
  outstanding e := ⟨fun he => (by cases he), fun he => (by cases he.1)⟩
  onTime := .inl ⟨rfl, rfl⟩
  clock := (Nat.zero_div G).symm
  size := rfl

theorem wRequired_le_size (h : wRequired G maxHorizonBytes ≤ 2 ^ 30) :
    wRequired G maxHorizonBytes ≤ (new maxHorizonBytes nodeCap : TimingWheel T G).wheelSize := by
  have hl := @le_nextPow2 (min (max (wRequired G maxHorizonBytes) 2) (2 ^ 30)) (by omega)
  exact Nat.le_trans (by omega) hl

variable {items : List (Entry T)}

section

variable (h : Tracks maxHorizonBytes nodeCap tr w chain items)

include h

theorem Tracks.key_lt (hG : 0 < G) (hG32 : G < 2 ^ 32) (hca : wRequired G maxHorizonBytes ≤ 2 ^ 30)
    (hn : hiEnd ≤ lastNow tr + maxHorizonBytes) :
    ceilDiv hiEnd G < w.cursorAbs + w.wheelSize := by
  have hsi : wRequired G maxHorizonBytes ≤ w.wheelSize := by
    rw [h.size]
    exact wRequired_le_size hca
  -- neither addition of `new` saturates
  have hr : wRequired G maxHorizonBytes = ceilDiv (satAdd maxHorizonBytes (G - 1)) G + 1 := by
    rw [wRequired, satAdd]
    rw [wRequired, satAdd, u64Max] at hca
    rw [u64Max]
    omega
  have hw : satAdd maxHorizonBytes (G - 1) = maxHorizonBytes + (G - 1) := by
    have hl := (ceilDiv_le_iff hG).mp (show ceilDiv (satAdd maxHorizonBytes (G - 1)) G ≤ 2 ^ 30 by
      omega)
    rw [satAdd, u64Max] at hl ⊢
    omega
  have hc := (ceilDiv_le_iff hG).mp (Nat.le_refl (ceilDiv (satAdd maxHorizonBytes (G - 1)) G))
  rw [hw] at hc hr
  have hk : ceilDiv hiEnd G ≤ lastNow tr / G + ceilDiv (maxHorizonBytes + (G - 1)) G := by
    rw [ceilDiv_le_iff hG, Nat.add_mul]
    have hd := Nat.div_add_mod (lastNow tr) G
    have hm := Nat.mod_lt (lastNow tr) hG
    rw [Nat.mul_comm] at hd
    omega
  have hcu : lastNow tr / G ≤ w.cursorAbs := by
    rcases h.onTime with hs | ha
    · rw [← h.clock, hs.2]
      exact Nat.zero_le _
    · rw [← h.clock, ha]
      exact Nat.le_succ _
  omega

theorem Tracks.push (hG : 0 < G) (hG32 : G < 2 ^ 32) (x) (hmax : hiEnd ≤ u64Max) :
    Answers G maxHorizonBytes tr hiEnd x (w.push hiEnd x).1 ∧
      ∃ chain' items', Tracks maxHorizonBytes nodeCap
        (tr ++ [.pushed hiEnd x (w.push hiEnd x).1]) (w.push hiEnd x).2 chain' items' := by
  -- a push that schedules nothing leaves the wheel as it is
  have keep : ∀ r : Except PushError (PushOutcome T), r ≠ .ok .scheduled →
      Tracks maxHorizonBytes nodeCap (tr ++ [.pushed hiEnd x r]) w chain items := by
    intro r hr
    refine ⟨h.holds, h.inOrder, fun e => ?_, h.onTime, ?_, h.size⟩
    · rw [h.outstanding, outstanding_push]
      exact ⟨.inl, fun he => he.elim id fun hne => absurd hne.1 hr⟩
    · rw [lastNow_push, h.clock]
  rcases h.holds.push_cases (e := ⟨tr.length, hiEnd, x⟩) rfl rfl with
    ⟨hd, heq⟩ | ⟨hf, heq⟩ | heq | ⟨w', chain', heq, hh, hW, hc, hn⟩
  · rw [heq]
    refine ⟨⟨fun y hy => ?_, (fun _ _ _ hr => by cases hr), (fun _ _ _ hr => by cases hr)⟩,
      chain, items, keep _ (fun hr => by cases hr)⟩
    obtain rfl := PushOutcome.ready.inj (Except.ok.inj hy)
    refine ⟨rfl, ?_⟩
    rcases h.onTime with hs | haf
    · rw [hs.1] at hd
      exact absurd hd (Nat.not_lt_zero _)
    have hl : ceilDiv hiEnd G ≤ lastNow tr / G := by
      rw [haf, h.clock] at hd
      exact Nat.le_of_lt_succ hd
    exact ((ceilDiv_le_iff hG).mp hl).trans (Nat.div_mul_le_self _ _)
  · rw [heq]
    refine ⟨⟨(fun _ hr => by cases hr), (fun _ _ _ hr => by cases hr),
      fun k base size hk hca hed => ?_⟩, chain, items, keep _ (fun hr => by cases hr)⟩
    by_contra hnear
    replace hf : satAdd w.cursorAbs w.wheelSize ≤ ceilDiv hiEnd G := hf
    have hlt := h.key_lt hG hG32 hca (Nat.not_lt.mp hnear)
    have hsa : u64Max ≤ ceilDiv hiEnd G := by
      rw [satAdd] at hf
      omega
    -- only the last key of the finest granularity saturates the window
    refine hed ?_
    by_cases ho : G = 1
    · refine ⟨ho, Nat.le_antisymm hmax ?_⟩
      have hid : ceilDiv hiEnd G ≤ hiEnd := by
        rw [ceilDiv_le_iff hG, ho, Nat.mul_one]
      exact hsa.trans hid
    have hha : ceilDiv hiEnd G ≤ 2 ^ 63 := by
      rw [ceilDiv_le_iff hG]
      rw [u64Max] at hmax
      omega
    rw [u64Max] at hsa
    omega
  · rw [heq]
    exact ⟨⟨(fun _ hr => by cases hr), (fun _ _ _ hr => by cases hr),
      (fun _ _ _ hr => by cases hr)⟩,
      chain, items, keep _ (fun hr => by cases hr)⟩
  · rw [heq]
    refine ⟨⟨(fun _ hr => by cases hr), (fun _ _ _ hr => by cases hr),
      (fun _ _ _ hr => by cases hr)⟩,
      chain', _, hh, ?_, fun e => ?_, ?_, ?_, hW.trans h.size⟩
    · refine pairwise_append.mpr ⟨h.inOrder, pairwise_singleton _ _, ?_⟩
      intro a ha b hb
      rw [mem_singleton.mp hb]
      exact (List.getElem?_eq_some_iff.mp ((h.outstanding a).mp ha).1).1
    · rw [mem_append, h.outstanding, outstanding_push, mem_singleton]
      exact ⟨fun he => he.imp_right fun hne => ⟨rfl, hne⟩, fun he => he.imp_right And.right⟩
    · have := h.onTime
      rw [OnTime] at this ⊢
      rwa [hc, hn]
    · rw [hn, lastNow_push, h.clock]

theorem Tracks.advance (hG : 0 < G) (hmono : lastNow tr ≤ now) (hmax : now < 2 ^ 64 - G) :
    Delivers G tr now (w.advanceAndDrain now).1 ∧ ∃ chain' items', Tracks maxHorizonBytes nodeCap
        (tr ++ [.advanced now (w.advanceAndDrain now).1]) (w.advanceAndDrain now).2
        chain' items' := by
  have hb : w.nowBucket ≤ now / G := by
    rw [h.clock]
    exact Nat.div_le_div_right hmono
  have hs : now / G < u64Max := by
    have := Nat.div_le_self now G
    rw [u64Max]
    omega
  obtain ⟨chain', ds, hds, hh, hW, hn, hc⟩ :=
    h.holds.advanceAndDrain h.inOrder h.onTime hb hs
  refine ⟨⟨ds, hds.out_eq, hds.ordered, fun e => ?_, fun e he => ?_, fun e he hno => ?_⟩, chain', _,
    hh, h.inOrder.filter _, fun e => ?_, ?_, ?_, hW.trans h.size⟩
  · rw [hds.mem_iff, h.outstanding]
  · have hd := ((hds.mem_iff e).mp he).2
    exact ((ceilDiv_le_iff hG).mp hd).trans (Nat.div_mul_le_self _ _)
  · have hl : ¬ e.key G ≤ now / G := fun hd =>
      hno ((hds.mem_iff e).mpr ⟨(h.outstanding e).mpr he, hd⟩)
    rw [Entry.key, ceilDiv_le_iff hG] at hl
    have hdi := Nat.div_add_mod now G
    have hm := Nat.mod_lt now hG
    rw [Nat.mul_comm] at hdi
    omega
  · rw [mem_filter, h.outstanding, outstanding_advance, decide_eq_true_iff]
  · exact .inr (by rw [hc, hn])
  · rw [hn, lastNow_advance]

end

theorem snoc_split {α : Type} {l pre post} {last ev : α} (h : l ++ [last] = pre ++ ev :: post) :
    (pre = l ∧ ev = last) ∨ ∃ post', l = pre ++ ev :: post' := by
  rcases eq_nil_or_concat post with rfl | ⟨post', _, rfl⟩
  · obtain ⟨hp, he⟩ := append_inj' h rfl
    exact .inl ⟨hp.symm, (List.cons.inj he).1.symm⟩
  · rw [concat_eq_append, ← cons_append, ← append_assoc] at h
    exact .inr ⟨post', (append_inj' h rfl).1⟩

theorem Run.tracks (hG : 0 < G) (hG32 : G < 2 ^ 32) (h : Run G maxHorizonBytes nodeCap tr w) :
    (∀ pre ev post, tr = pre ++ ev :: post → Meets G maxHorizonBytes pre ev) ∧
      ∃ chain items, Tracks maxHorizonBytes nodeCap tr w chain items := by
  induction h with
  | new =>
    refine ⟨fun pre ev post he => ?_, _, _, tracks_new⟩
    cases pre <;> cases he
  | push hiEnd x _ hmax ih =>
    obtain ⟨hm, chain, items, ht⟩ := ih
    obtain ⟨ha, hn⟩ := ht.push hG hG32 x hmax
    refine ⟨fun pre ev post he => ?_, hn⟩
    rcases snoc_split he with ⟨rfl, rfl⟩ | ⟨post', ho⟩
    · exact ha
    · exact hm pre ev post' ho
  | advance now _ hmono hmax ih =>
    obtain ⟨hm, chain, items, ht⟩ := ih
    obtain ⟨hd, hn⟩ := ht.advance hG hmono hmax
    refine ⟨fun pre ev post he => ?_, hn⟩
    rcases snoc_split he with ⟨rfl, rfl⟩ | ⟨post', ho⟩
    · exact hd
    · exact hm pre ev post' ho

/-- In every run, each call meets its contract, whatever came before it. -/
theorem timingWheel_meets (hG : 0 < G) (hG32 : G < 2 ^ 32)
    (h : Run G maxHorizonBytes nodeCap tr w) {pre post : List (WheelEvent T)} {ev : WheelEvent T}
    (hev : tr = pre ++ ev :: post) : Meets G maxHorizonBytes pre ev :=
  (h.tracks hG hG32).1 pre ev post hev

/-- A window that ends at 20 leaves bucket 3 of the wheel when the offset reaches 24. -/
theorem timingWheel_meets_one :
    Meets 8 128 [WheelEvent.pushed 20 7 (.ok .scheduled)] (.advanced 24 [7]) := by
  have hpush : ((new 128 4 : TimingWheel Nat 8).push 20 7).1 = .ok .scheduled := rfl
  have hadvance : (((new 128 4 : TimingWheel Nat 8).push 20 7).2.advanceAndDrain 24).1 = [7] := by
    decide +kernel
  have hstart : Run 8 128 4 [] (new 128 4 : TimingWheel Nat 8) := Run.new
  have hrun := Run.advance 24 (Run.push 20 7 hstart (by decide)) (by decide) (by decide)
  exact timingWheel_meets (by decide) (by decide) hrun rfl

/-- At the last offset the window saturates: with granularity one, a right edge one byte ahead is
refused although the horizon is one byte. -/
theorem timingWheel_refuses_last_byte :
    (∃ w, Run 1 1 1 [WheelEvent.advanced (2 ^ 64 - 2) [],
      .pushed u64Max () (.error (.tooFarInFuture u64Max u64Max 2))] w) ∧
      wRequired 1 1 ≤ 2 ^ 30 ∧
      u64Max ≤ lastNow [WheelEvent.advanced (2 ^ 64 - 2) ([] : List Unit)] + 1 := by
  have hadvance : ((new 1 1 : TimingWheel Unit 1).advanceAndDrain (2 ^ 64 - 2)).1 = [] := by
    rfl
  have hpush : (((new 1 1 : TimingWheel Unit 1).advanceAndDrain (2 ^ 64 - 2)).2.push u64Max ()).1 =
      .error (.tooFarInFuture u64Max u64Max 2) := by
    rfl
  have hstart : Run 1 1 1 [] (new 1 1 : TimingWheel Unit 1) := Run.new
  have hrun := Run.push u64Max () (Run.advance (2 ^ 64 - 2) hstart (by decide) (by decide)) le_rfl
  exact ⟨⟨_, hrun⟩, by decide, by decide⟩

end History

end TimingWheel

end GossipRs.Stdx
