import GossipRs.Engine.Regex2Anchor
import GossipRs.Lib.Checks

/-! Anchors are sound: every text a regex matches contains one of them, and every confirming
literal. The analysis over-approximates the texts a part can match. -/

namespace GossipRs.Engine

open Lib
open Option (bind_eq_some_iff map_eq_some_iff not_mem_none)
open List (append_assoc append_nil flatten_cons flatten_nil forall_mem_cons infix_refl length_nil
  mem_cons mem_cons_of_mem mem_cons_self mem_flatMap mem_map mem_singleton mem_singleton_self
  prefix_append)

def HirClass.Matches : HirClass → Bytes → Prop
  | .unicode ranges, text =>
    ∃ c : Char, (∃ r ∈ ranges, r.1 ≤ c ∧ c ≤ r.2) ∧ text = String.utf8EncodeChar c
  | .bytes ranges, text => ∃ b : UInt8, (∃ r ∈ ranges, r.1 ≤ b ∧ b ≤ r.2) ∧ text = [b]

mutual

/-- `Matches holds h before text after`: the regex matches `text` between the two texts, where
`holds` says which assertions hold between them. -/
inductive Matches (holds : Look → Bytes → Bytes → Prop) : Hir → Bytes → Bytes → Bytes → Prop where
  | empty {before after} : Matches holds .empty before [] after
  | literal {bytes before after} : Matches holds (.literal bytes) before bytes after
  | cls {c text before after} : c.Matches text → Matches holds (.cls c) before text after
  | look {kind before after} : holds kind before after → Matches holds (.look kind) before [] after
  | repetition {min max sub n before text after} : min ≤ n → (∀ m ∈ max, n ≤ m) →
      MatchesSeq holds (List.replicate n sub) before text after →
      Matches holds (.repetition min max sub) before text after
  | capture {sub before text after} : Matches holds sub before text after →
      Matches holds (.capture sub) before text after
  | concat {subs before text after} : MatchesSeq holds subs before text after →
      Matches holds (.concat subs) before text after
  | alternation {alts alt before text after} : alt ∈ alts → Matches holds alt before text after →
      Matches holds (.alternation alts) before text after

inductive MatchesSeq (holds : Look → Bytes → Bytes → Prop) :
    List Hir → Bytes → Bytes → Bytes → Prop where
  | nil {before after} : MatchesSeq holds [] before [] after
  | cons {h rest before text more after} : Matches holds h before text (more ++ after) →
      MatchesSeq holds rest (before ++ text) more after →
      MatchesSeq holds (h :: rest) before (text ++ more) after

end

def Accepts (h : Hir) (text : Bytes) : Prop :=
  ∃ holds before after, Matches holds h before text after

theorem MatchesSeq.pieces :
    ∀ {before text after}, MatchesSeq holds subs before text after →
      ∃ pieces, List.Forall₂ Accepts subs pieces ∧ text = pieces.flatten := by
  induction subs with
  | nil =>
    intro before text after h
    cases h
    exact ⟨[], .nil, rfl⟩
  | cons sub rest ih =>
    intro before text after h
    cases h with
    | cons hs hrest =>
      obtain ⟨pieces, hp, rfl⟩ := ih hrest
      exact ⟨_ :: pieces, .cons ⟨holds, _, _, hs⟩ hp, rfl⟩

def Prefilter.Holds : Prefilter → Bytes → Prop
  | .all, _ => True
  | .anyOf set, text => ∃ s ∈ set, s <:+: text
  | .substring s, text => s <:+: text

structure Info.Holds (info : Info) (text : Bytes) : Prop where
  exact : ∀ set ∈ info.exact, text ∈ set
  pf : info.pf.Holds text

variable {set pieces anchors : List Bytes}

theorem mem_sortDedup : s ∈ sortDedup set ↔ s ∈ set := by
  rw [sortDedup, mem_sortedElements, List.mem_toFinset]

theorem Info.all_holds (text) : Info.all.Holds text :=
  ⟨fun _ h => absurd h (not_mem_none _), trivial⟩

variable {info child : Info} {text : Bytes}

theorem Info.ofExact_holds (h : Info.ofExact set cfg = some info) (ht : text ∈ set) :
    info.Holds text := by
  unfold Info.ofExact at h
  split at h
  · cases h
  split at h
  · cases h
  cases h
  refine ⟨fun set hs => ?_, trivial⟩
  cases hs
  exact mem_sortDedup.mpr ht

theorem Info.exactOrAll_holds (ht : text ∈ set) : (Info.exactOrAll set cfg).Holds text := by
  unfold Info.exactOrAll
  cases h : Info.ofExact set cfg with
  | none => exact Info.all_holds text
  | some info => exact Info.ofExact_holds h ht

theorem Prefilter.ofSet_holds (hs : s ∈ set) (hw : s <:+: text) :
    (Prefilter.ofSet set).Holds text := by
  unfold Prefilter.ofSet
  split
  · rw [mem_singleton] at hs
    exact hs ▸ hw
  · exact ⟨s, hs, hw⟩

theorem Prefilter.Holds.mono {pf : Prefilter} {whole : Bytes} (h : pf.Holds text)
    (hw : text <:+: whole) : pf.Holds whole := by
  cases pf with
  | all => trivial
  | anyOf set =>
    obtain ⟨s, hs, hsu⟩ := h
    exact ⟨s, hs, hsu.trans hw⟩
  | substring s => exact List.IsInfix.trans h hw

theorem mem_crossProduct (h : crossProduct a b cfg = some product) (hx : x ∈ a) (hy : y ∈ b) :
    x ++ y ∈ product := by
  unfold crossProduct at h
  split at h
  · cases h
  simp only at h
  split at h
  · cases h
  · cases h
    exact mem_flatMap.mpr ⟨x, hx, mem_map.mpr ⟨y, hy, rfl⟩⟩

theorem mem_charRange (hl : lo ≤ c) (hh : c ≤ hi) : c ∈ charRange lo hi := by
  have hl' : lo.toNat ≤ c.toNat := hl
  have hh' : c.toNat ≤ hi.toNat := hh
  refine mem_map.mpr ⟨c.toNat, List.mem_filter.mpr ⟨?_, ?_⟩, Char.ofNat_toNat c⟩
  · rw [List.mem_range'_1]
    omega
  · exact decide_eq_true c.valid

theorem mem_byteRange (hl : lo ≤ b) (hh : b ≤ hi) : b ∈ byteRange lo hi := by
  have hl' := UInt8.le_iff_toNat_le.mp hl
  have hh' := UInt8.le_iff_toNat_le.mp hh
  refine mem_map.mpr ⟨b.toNat, ?_, UInt8.ofNat_toNat⟩
  rw [List.mem_range'_1]
  omega

theorem utf8EncodeChar_ascii (h : c.toNat ≤ 127) :
    String.utf8EncodeChar c = [UInt8.ofNat c.toNat] := by
  exact if_pos h

theorem mem_foldlM_push {α : Type} {push} (value : α → UInt8)
    (hp : ∀ bytes a bytes', push bytes a = some bytes' → bytes' = bytes ++ [value a])
    {items : List α} {bytes} (h : items.foldlM push acc = some bytes) :
    bytes = acc ++ items.map value := by
  induction items generalizing acc with
  | nil =>
    cases h
    exact (append_nil _).symm
  | cons a rest ih =>
    rw [List.foldlM_cons] at h
    obtain ⟨next, hs, h⟩ := bind_eq_some_iff.mp h
    rw [ih h, hp acc a next hs, append_assoc]
    rfl

theorem pushBounded_eq {max} (h : pushBounded max bytes b = some bytes') :
    bytes' = bytes ++ [b] := by
  unfold pushBounded at h
  split at h
  · cases h
  · cases h
    rfl

theorem push_of_foldlM {α : Type} {push} {items : List α} {acc bytes : List UInt8}
    (h : items.foldlM push acc = some bytes) :
    ∀ a ∈ items, ∃ before after, push before a = some after := by
  induction items generalizing acc with
  | nil =>
    intro a ha
    cases ha
  | cons x rest ih =>
    rw [List.foldlM_cons] at h
    obtain ⟨next, hs, h⟩ := bind_eq_some_iff.mp h
    exact forall_mem_cons.mpr ⟨⟨acc, next, hs⟩, ih h⟩

theorem classToSmallByteSet_mem (h : classToSmallByteSet c cfg = some bytes)
    (ht : c.Matches text) : ∃ b ∈ bytes, text = [b] := by
  cases c with
  | unicode ranges =>
    obtain ⟨c, ⟨r, hr, hl, hh⟩, rfl⟩ := ht
    have hm : c ∈ ranges.flatMap fun r => charRange r.1 r.2 :=
      mem_flatMap.mpr ⟨r, hr, mem_charRange hl hh⟩
    obtain ⟨_, _, hp⟩ := push_of_foldlM h c hm
    have ha : c.toNat ≤ 127 := by
      by_contra hlarge
      rw [if_pos (Nat.lt_of_not_le hlarge)] at hp
      cases hp
    have hb := mem_foldlM_push (fun c : Char => UInt8.ofNat c.toNat) (by
      intro bytes a bytes' hs
      split at hs
      · cases hs
      · exact pushBounded_eq hs) h
    refine ⟨UInt8.ofNat c.toNat, ?_, utf8EncodeChar_ascii ha⟩
    rw [hb, List.nil_append]
    exact mem_map.mpr ⟨c, hm, rfl⟩
  | bytes ranges =>
    obtain ⟨b, ⟨r, hr, hl, hh⟩, rfl⟩ := ht
    have hm : b ∈ ranges.flatMap fun r => byteRange r.1 r.2 :=
      mem_flatMap.mpr ⟨r, hr, mem_byteRange hl hh⟩
    have hb := mem_foldlM_push id (fun _ _ _ => pushBounded_eq) h
    refine ⟨b, ?_, rfl⟩
    rw [hb, List.nil_append, List.map_id]
    exact hm

def SoundFor (info : Info) (h : Hir) : Prop := ∀ text, Accepts h text → info.Holds text

variable {children : List Info}

section Forms

variable {cfg : AnchorDeriveConfig}

theorem sound_empty : SoundFor (Info.exactOrAll [[]] cfg) .empty := by
  rintro text ⟨_, _, _, hm⟩
  cases hm
  exact Info.exactOrAll_holds (mem_singleton_self _)

theorem sound_look (kind) : SoundFor (Info.exactOrAll [[]] cfg) (.look kind) := by
  rintro text ⟨_, _, _, hm⟩
  cases hm
  exact Info.exactOrAll_holds (mem_singleton_self _)

theorem sound_literal (bytes) : SoundFor (Info.exactOrAll [bytes] cfg) (.literal bytes) := by
  rintro text ⟨_, _, _, hm⟩
  cases hm
  exact Info.exactOrAll_holds (mem_singleton_self _)

theorem sound_class (c) : SoundFor (analyzeClass c cfg) (.cls c) := by
  rintro text ⟨_, _, _, hm⟩
  cases hm with
  | cls htext =>
    unfold analyzeClass
    cases hs : classToSmallByteSet c cfg with
    | none => exact Info.all_holds text
    | some bytes =>
      obtain ⟨b, hb, rfl⟩ := classToSmallByteSet_mem hs htext
      exact Info.exactOrAll_holds (mem_map.mpr ⟨b, hb, rfl⟩)

theorem sound_capture (h : SoundFor info sub) : SoundFor info (.capture sub) := by
  rintro text ⟨holds, before, after, hm⟩
  cases hm with
  | capture hs => exact h text ⟨holds, before, after, hs⟩

theorem pieces_of_replicate :
    ∀ {n}, List.Forall₂ Accepts (List.replicate n sub) pieces →
      pieces.length = n ∧ ∀ piece ∈ pieces, Accepts sub piece := by
  induction pieces with
  | nil =>
    intro n h
    cases n with
    | zero => exact ⟨rfl, fun _ hm => absurd hm List.not_mem_nil⟩
    | succ n => cases h
  | cons piece rest ih =>
    intro n h
    cases n with
    | zero => cases h
    | succ n =>
      cases h with
      | cons hp hrest =>
        obtain ⟨hl, ha⟩ := ih hrest
        exact ⟨congrArg Nat.succ hl, forall_mem_cons.mpr ⟨hp, ha⟩⟩

theorem mem_repeatExact (h : repeatExact cfg exact n acc = some result) (hx : x ∈ acc)
    (hl : pieces.length = n) (hp : ∀ piece ∈ pieces, piece ∈ exact) :
    x ++ pieces.flatten ∈ result := by
  induction n generalizing acc x pieces with
  | zero =>
    cases h
    cases List.length_eq_zero_iff.mp hl
    rw [flatten_nil, append_nil]
    exact hx
  | succ n ih =>
    cases pieces with
    | nil => cases hl
    | cons piece rest =>
      obtain ⟨hpi, hr⟩ := forall_mem_cons.mp hp
      rw [repeatExact] at h
      cases hc : crossProduct acc exact cfg with
      | none =>
        rw [hc] at h
        cases h
      | some product =>
        rw [hc] at h
        rw [flatten_cons, ← append_assoc]
        exact ih h (mem_crossProduct hc hx hpi) (Nat.succ.inj hl) hr

theorem sound_repetition (h : SoundFor info sub) (min : Nat) (max : Option Nat) :
    SoundFor (analyzeRepetition min max info cfg) (.repetition min max sub) := by
  rintro text ⟨_, _, _, hm⟩
  cases hm with
  | @repetition _ _ _ n _ _ _ hmin hmax hseq =>
    obtain ⟨pieces, hpi, rfl⟩ := hseq.pieces
    obtain ⟨hl, ha⟩ := pieces_of_replicate hpi
    unfold analyzeRepetition
    by_cases hz : min = 0
    · rw [if_pos hz]
      by_cases hno : max = some 0
      · -- No copy at all.
        rw [if_pos hno]
        have hn := hmax 0 hno
        have hpn : pieces = [] := List.length_eq_zero_iff.mp (by omega)
        rw [hpn]
        exact Info.exactOrAll_holds (mem_singleton_self _)
      rw [if_neg hno]
      cases he : info.exact with
      | none => exact Info.all_holds _
      | some exact =>
        simp only
        by_cases ho : max = some 1
        · rw [if_pos ho]
          have hn := hmax 1 ho
          refine Info.exactOrAll_holds ?_
          match pieces, hl, ha with
          | [], _, _ => exact mem_cons_self
          | [piece], _, ha =>
            have hh := h piece (ha piece mem_cons_self)
            rw [flatten_cons, flatten_nil, append_nil]
            exact mem_cons_of_mem _ (hh.exact exact he)
          | _ :: _ :: _, hl, _ =>
            simp only [List.length_cons] at hl
            omega
        · rw [if_neg ho]
          exact Info.all_holds _
    · rw [if_neg hz]
      -- At least one copy: the first, those up to the minimum, and the others.
      cases pieces with
      | nil =>
        rw [length_nil] at hl
        omega
      | cons piece rest =>
        obtain ⟨hp, hre⟩ := forall_mem_cons.mp ha
        rw [List.length_cons] at hl
        cases he : info.exact with
        | none =>
          have hh := h piece hp
          refine ⟨fun set hse => ?_, hh.pf.mono ?_⟩
          · rw [he] at hse
            cases hse
          · exact (prefix_append piece rest.flatten).isInfix
        | some exact =>
          simp only
          cases hr : repeatExact cfg exact (min - 1) exact with
          | none => exact Info.all_holds _
          | some result =>
            simp only
            have hme : piece ++ (rest.take (min - 1)).flatten ∈ result :=
              mem_repeatExact hr ((h piece hp).exact exact he) (List.length_take_of_le (by omega))
                fun q hq => (h q (hre q (List.mem_of_mem_take hq))).exact exact he
            by_cases hf : max = some min
            · rw [if_pos hf]
              have hn := hmax min hf
              rw [List.take_of_length_le (by omega)] at hme
              exact Info.exactOrAll_holds hme
            rw [if_neg hf]
            refine ⟨fun set hse => absurd hse (not_mem_none _), Prefilter.ofSet_holds hme ?_⟩
            have hs : (piece :: rest).flatten = piece ++ (rest.take (min - 1)).flatten ++
                (rest.drop (min - 1)).flatten := by
              rw [append_assoc, ← List.flatten_append, List.take_append_drop, flatten_cons]
            rw [hs]
            exact (prefix_append _ _).isInfix

theorem mem_concatExact (h : concatExact cfg acc children = some result) (hx : x ∈ acc)
    (hp : List.Forall₂ Info.Holds children pieces) : x ++ pieces.flatten ∈ result := by
  induction hp generalizing acc x with
  | nil =>
    cases h
    rw [flatten_nil, append_nil]
    exact hx
  | @cons child piece rest pieces hch _ ih =>
    rw [concatExact] at h
    cases he : child.exact with
    | none =>
      rw [he] at h
      cases h
    | some exact =>
      rw [he] at h
      simp only at h
      cases hc : crossProduct acc exact cfg with
      | none =>
        rw [hc] at h
        cases h
      | some product =>
        rw [hc] at h
        rw [flatten_cons, ← append_assoc]
        exact ih h (mem_crossProduct hc hx (hch.exact exact he))

def WindowHolds (best : Option (List Bytes)) (text : Bytes) : Prop :=
  ∀ set ∈ best, ∃ s ∈ set, s <:+: text

theorem growWindow_holds (hb : WindowHolds best text) {x : Bytes} (hx : x ∈ acc)
    (hp : List.Forall₂ Info.Holds children pieces) (hw : x ++ pieces.flatten <:+: text) :
    WindowHolds (growWindow cfg acc best children) text := by
  induction hp generalizing acc best x with
  | nil => exact hb
  | @cons child piece rest pieces hc _ ih =>
    rw [growWindow]
    cases he : child.exact with
    | none => exact hb
    | some exact =>
      simp only
      cases hcr : crossProduct acc exact cfg with
      | none => exact hb
      | some prod =>
        simp only
        rw [flatten_cons, ← append_assoc] at hw
        have hm : x ++ piece ∈ sortDedup prod :=
          mem_sortDedup.mpr (mem_crossProduct hcr hx (hc.exact exact he))
        have hwi : WindowHolds (some (sortDedup prod)) text := by
          intro set hs
          cases hs
          exact ⟨x ++ piece, hm, (prefix_append _ _).isInfix.trans hw⟩
        split
        · exact hb
        split
        · exact ih hb hm hw
        split
        · exact ih hb hm hw
        split
        · exact ih hwi hm hw
        · exact ih hb hm hw

theorem bestWindow_holds (hb : WindowHolds best text)
    (hp : List.Forall₂ Info.Holds children pieces) (hw : pieces.flatten <:+: text) :
    WindowHolds (bestWindow cfg best children) text := by
  induction hp generalizing best with
  | nil => exact hb
  | @cons child piece rest pieces hchild hrest ih =>
    have hm : pieces.flatten <:+: text := by
      refine List.IsInfix.trans ?_ hw
      exact (List.suffix_append _ _).isInfix
    rw [bestWindow]
    cases he : child.exact with
    | none => exact ih hb hm
    | some exact =>
      refine ih ?_ hm
      exact growWindow_holds hb (mem_singleton_self []) (.cons hchild hrest) hw

theorem maxPrefilter_mem (h : maxPrefilter candidates = some pf) : pf ∈ candidates := by
  cases candidates with
  | nil => cases h
  | cons first rest =>
    cases h
    induction rest generalizing first with
    | nil => exact mem_cons_self
    | cons next rest ih =>
      rw [List.foldl_cons]
      split
      · exact mem_cons_of_mem _ (ih next)
      rcases mem_cons.mp (ih first) with he | hm
      · rw [he]
        exact mem_cons_self
      · exact mem_cons_of_mem _ (mem_cons_of_mem _ hm)

theorem childPrefilter_holds (h : childPrefilter child = some pf) (hp : child.Holds piece) :
    pf.Holds piece := by
  unfold childPrefilter at h
  cases he : child.exact with
  | some exact =>
    rw [he] at h
    simp only at h
    split at h
    · cases h
    · cases h
      exact Prefilter.ofSet_holds (hp.exact exact he) (infix_refl _)
  | none =>
    rw [he] at h
    simp only at h
    split at h
    · cases h
    · cases h
      exact hp.pf

theorem forall₂_mem {α β : Type} {R l} {l' : List β} (h : List.Forall₂ R l l') {a : α}
    (ha : a ∈ l) : ∃ b ∈ l', R a b := by
  induction h with
  | nil => cases ha
  | cons hab _ ih =>
    rcases mem_cons.mp ha with rfl | ha
    · exact ⟨_, mem_cons_self, hab⟩
    · obtain ⟨b, hb, hR⟩ := ih ha
      exact ⟨b, mem_cons_of_mem _ hb, hR⟩

theorem concatFallback_holds (hp : List.Forall₂ Info.Holds children pieces) :
    (concatFallback children cfg).Holds pieces.flatten := by
  have hn : ∀ pf : Prefilter, ∀ set ∈ (⟨none, pf⟩ : Info).exact, pieces.flatten ∈ set :=
    fun _ _ hse => absurd hse (not_mem_none _)
  unfold concatFallback
  split
  next pf hpf =>
    refine ⟨hn pf, ?_⟩
    obtain ⟨set, hse, rfl⟩ := map_eq_some_iff.mp hpf
    have hst : WindowHolds none pieces.flatten := fun _ h => absurd h (not_mem_none _)
    obtain ⟨_, hs, hw⟩ := bestWindow_holds hst hp (infix_refl _) set hse
    exact Prefilter.ofSet_holds hs hw
  next =>
    split
    next pf hpf =>
      refine ⟨hn pf, ?_⟩
      obtain ⟨_, hc, hso⟩ := List.mem_filterMap.mp (maxPrefilter_mem hpf)
      obtain ⟨_, hpi, hh⟩ := forall₂_mem hp hc
      exact (childPrefilter_holds hso hh).mono (List.infix_of_mem_flatten hpi)
    next => exact Info.all_holds _

theorem sound_concat (h : List.Forall₂ SoundFor children subs) :
    SoundFor (analyzeConcat children cfg) (.concat subs) := by
  rintro text ⟨_, _, _, hm⟩
  cases hm with
  | concat hseq =>
    obtain ⟨pieces, ha, rfl⟩ := hseq.pieces
    have hp : List.Forall₂ Info.Holds children pieces := by
      clear hseq
      induction h generalizing pieces with
      | nil =>
        cases ha
        exact .nil
      | cons hc _ ih =>
        cases ha with
        | cons hpiece hrest => exact .cons (hc _ hpiece) (ih _ hrest)
    unfold analyzeConcat
    split
    next hn =>
      subst hn
      cases hp
      exact Info.exactOrAll_holds (mem_singleton_self _)
    next =>
      split
      next info hin =>
        obtain ⟨exact, he, ho⟩ := bind_eq_some_iff.mp hin
        exact Info.ofExact_holds ho (mem_concatExact he (mem_singleton_self []) hp)
      next => exact concatFallback_holds hp

theorem mem_mapM_exact (h : children.mapM Info.exact = some sets) (hc : child ∈ children) :
    ∃ set ∈ sets, child.exact = some set := by
  induction children generalizing sets with
  | nil => cases hc
  | cons first rest ih =>
    rw [List.mapM_cons] at h
    cases hf : first.exact with
    | none =>
      rw [hf] at h
      cases h
    | some set =>
      cases hr : rest.mapM Info.exact with
      | none =>
        rw [hf, hr] at h
        cases h
      | some more =>
        rw [hf, hr] at h
        cases h
        rcases mem_cons.mp hc with rfl | hc
        · exact ⟨set, mem_cons_self, hf⟩
        · obtain ⟨set', hs', he⟩ := ih hr hc
          exact ⟨set', mem_cons_of_mem _ hs', he⟩

theorem branchAnchors_holds (h : branchAnchors children = some anchors) (hc : child ∈ children)
    (ht : child.Holds text) : ∃ s ∈ anchors, s <:+: text := by
  induction children generalizing anchors with
  | nil => cases hc
  | cons first rest ih =>
    -- The anchors are those of the first branch, then those of the others.
    have hsp : ∃ own more, branchAnchors rest = some more ∧ anchors = own ++ more ∧
        (first.Holds text → ∃ s ∈ own, s <:+: text) := by
      rw [branchAnchors] at h
      cases he : first.exact with
      | some exact =>
        rw [he] at h
        simp only at h
        split at h
        · cases h
        obtain ⟨more, hm, rfl⟩ := map_eq_some_iff.mp h
        exact ⟨exact, more, hm, rfl, fun hf =>
          ⟨text, hf.exact exact he, infix_refl _⟩⟩
      | none =>
        rw [he] at h
        cases hp : first.pf with
        | all =>
          rw [hp] at h
          cases h
        | substring s =>
          rw [hp] at h
          obtain ⟨more, hm, rfl⟩ := map_eq_some_iff.mp h
          refine ⟨[s], more, hm, rfl, fun hf => ⟨s, mem_cons_self, ?_⟩⟩
          have hh := hf.pf
          rw [hp] at hh
          exact hh
        | anyOf set =>
          rw [hp] at h
          obtain ⟨more, hm, rfl⟩ := map_eq_some_iff.mp h
          refine ⟨set, more, hm, rfl, fun hf => ?_⟩
          have hh := hf.pf
          rw [hp] at hh
          exact hh
    obtain ⟨own, more, hm, rfl, ho⟩ := hsp
    rcases mem_cons.mp hc with rfl | hc
    · obtain ⟨s, hs, hw⟩ := ho ht
      exact ⟨s, List.mem_append_left _ hs, hw⟩
    · obtain ⟨s, hs, hw⟩ := ih hm hc
      exact ⟨s, List.mem_append_right _ hs, hw⟩

theorem alternationFallback_holds (hc : child ∈ children) (ht : child.Holds text) :
    (alternationFallback children cfg).Holds text := by
  unfold alternationFallback
  split
  next => exact Info.all_holds text
  next anchors ha =>
    obtain ⟨_, hs, hw⟩ := branchAnchors_holds ha hc ht
    split
    · exact Info.all_holds text
    split
    · refine ⟨fun set hse => absurd hse (not_mem_none _), ?_⟩
      exact Prefilter.ofSet_holds (mem_sortDedup.mpr hs) hw
    · exact Info.all_holds text

theorem sound_alternation (h : List.Forall₂ SoundFor children alts) :
    SoundFor (analyzeAlternation children cfg) (.alternation alts) := by
  rintro text ⟨holds, before, after, hm⟩
  cases hm with
  | alternation halt hsu =>
    obtain ⟨_, hc, hs⟩ := forall₂_mem h.flip halt
    have ht := hs text ⟨holds, before, after, hsu⟩
    unfold analyzeAlternation
    split
    next => exact Info.all_holds text
    next =>
      split
      next info hin =>
        obtain ⟨_, hse, ho⟩ := bind_eq_some_iff.mp hin
        obtain ⟨set, hset, he⟩ := mem_mapM_exact hse hc
        refine Info.ofExact_holds ho (List.mem_flatten.mpr ⟨set, hset, ?_⟩)
        exact ht.exact set he
      next => exact alternationFallback_holds hc ht

end Forms

mutual

theorem analyze_sound (cfg : AnchorDeriveConfig) : ∀ h : Hir, SoundFor (analyze cfg h) h
  | .empty => sound_empty
  | .literal bytes => sound_literal bytes
  | .cls c => sound_class c
  | .look kind => sound_look kind
  | .repetition min max sub => sound_repetition (analyze_sound cfg sub) min max
  | .capture sub => sound_capture (analyze_sound cfg sub)
  | .concat subs => sound_concat (analyzeAll_sound cfg subs)
  | .alternation alts => sound_alternation (analyzeAll_sound cfg alts)

theorem analyzeAll_sound (cfg) :
    ∀ hs : List Hir, List.Forall₂ SoundFor (analyzeAll cfg hs) hs
  | [] => .nil
  | h :: rest => .cons (analyze_sound cfg h) (analyzeAll_sound cfg rest)

end

theorem chooseAnchors_spec (hm : 1 ≤ cfg.minAnchorLen)
    (h : chooseAnchors info cfg = .ok anchors) :
    (∀ s ∈ anchors, s ≠ [] ∧ cfg.minAnchorLen ≤ s.length) ∧
      ∀ text, info.Holds text → ∃ s ∈ anchors, s <:+: text := by
  have hl : ∀ set : List Bytes, ¬ (set.any fun s => decide (s.length < cfg.minAnchorLen)) = true →
      ∀ s ∈ set, s ≠ [] ∧ cfg.minAnchorLen ≤ s.length := by
    intro set hse s hs
    have hle : cfg.minAnchorLen ≤ s.length := by
      by_contra hsh
      exact hse (List.any_eq_true.mpr ⟨s, hs, decide_eq_true (Nat.lt_of_not_le hsh)⟩)
    refine ⟨?_, hle⟩
    rintro rfl
    rw [length_nil] at hle
    omega
  unfold chooseAnchors at h
  cases he : info.exact with
  | some exact =>
    rw [he] at h
    simp only at h
    split at h
    · cases h
    split at h
    · cases h
    next hsh =>
      cases h
      exact ⟨hl anchors hsh, fun text ht =>
        ⟨text, ht.exact anchors he, infix_refl _⟩⟩
  | none =>
    rw [he] at h
    cases hp : info.pf with
    | all =>
      rw [hp] at h
      cases h
    | substring s =>
      rw [hp] at h
      simp only at h
      split at h
      next hle =>
        cases h
        refine ⟨fun s' hs' => ?_, fun text ht => ⟨s, mem_cons_self, ?_⟩⟩
        · rw [mem_singleton.mp hs']
          refine ⟨?_, hle⟩
          rintro rfl
          rw [length_nil] at hle
          omega
        have hh := ht.pf
        rw [hp] at hh
        exact hh
      next => cases h
    | anyOf set =>
      rw [hp] at h
      simp only at h
      split at h
      · cases h
      split at h
      · cases h
      next hsh =>
        split at h
        · cases h
        cases h
        refine ⟨hl anchors hsh, fun text ht => ?_⟩
        have hh := ht.pf
        rw [hp] at hh
        exact hh

theorem accepts_peelCapture : ∀ {h text}, Accepts h text → Accepts (peelCapture h) text
  | .capture sub, text, ⟨holds, before, after, hm⟩ => by
    cases hm with
    | capture hs => exact accepts_peelCapture (h := sub) ⟨holds, before, after, hs⟩
  | .empty, _, h => h
  | .literal _, _, h => h
  | .cls _, _, h => h
  | .look _, _, h => h
  | .repetition _ _ _, _, h => h
  | .concat _, _, h => h
  | .alternation _, _, h => h

theorem infoLiteral_within (h : infoLiteral cfg info = some s) (ht : info.Holds text) :
    s <:+: text := by
  have he : ∀ x, info.exact = some [x] → x <:+: text := by
    intro x hx
    rw [← mem_singleton.mp (ht.exact [x] hx)]
  have hp : ∀ x, info.pf = .substring x → x <:+: text := by
    intro x hx
    have hh := ht.pf
    rw [hx] at hh
    exact hh
  unfold infoLiteral at h
  split at h
  next _ _ x y hx hy =>
    split at h
    · cases h
      exact he _ hx
    split at h
    · cases h
      exact hp _ hy
    · cases h
  next _ _ x hx _ =>
    split at h
    · cases h
      exact he _ hx
    · cases h
  next _ _ y hy _ =>
    split at h
    · cases h
      exact hp _ hy
    · cases h
  next => cases h

theorem partLiteral_within (h : partLiteral minimumLen cfg sub = some s)
    (ht : Accepts sub text) : s <:+: text := by
  unfold partLiteral at h
  split at h
  · cases h
  split at h
  · split at h
    · cases h
      obtain ⟨_, _, _, hm⟩ := ht
      cases hm
      exact infix_refl _
    · cases h
  · exact infoLiteral_within h (analyze_sound cfg _ text ht)

theorem collectConfirmAllLiterals_within (ht : Accepts hir text) :
    ∀ c ∈ collectConfirmAllLiterals minimumLen hir cfg, c <:+: text := by
  intro c hc
  have hp := accepts_peelCapture ht
  unfold collectConfirmAllLiterals at hc
  split at hc
  next subs hs =>
    rw [hs] at hp
    obtain ⟨_, _, _, hm⟩ := hp
    cases hm with
    | concat hseq =>
      obtain ⟨pieces, ha, rfl⟩ := hseq.pieces
      obtain ⟨_, hsu, hpa⟩ := List.mem_filterMap.mp (mem_sortDedup.mp hc)
      obtain ⟨_, hpi, hh⟩ := forall₂_mem ha hsu
      exact (partLiteral_within hpa (accepts_peelCapture hh)).trans (List.infix_of_mem_flatten hpi)
  next => cases hc

structure SoundAnchors (h : Hir) (cfg : AnchorDeriveConfig) (anchors confirmAll : List Bytes) :
    Prop where
  anchor : ∀ text, Accepts h text → ∃ s ∈ anchors, s <:+: text
  confirm : ∀ text, Accepts h text → ∀ c ∈ confirmAll, c <:+: text
  long : ∀ s ∈ anchors, s ≠ [] ∧ cfg.minAnchorLen ≤ s.length
  nonempty : ¬ Accepts h []
  buffer : ∀ holds before text after, Matches holds h before text after →
    ∃ s ∈ anchors, s <:+: before ++ text ++ after

theorem soundAnchors_of_choose (hmi : 1 ≤ cfg.minAnchorLen) {confirmAll : List Bytes}
    (hch : chooseAnchors (analyze cfg h) cfg = .ok anchors)
    (hc : ∀ text, Accepts h text → ∀ c ∈ confirmAll, c <:+: text) :
    SoundAnchors h cfg anchors confirmAll := by
  obtain ⟨hl, ha⟩ := chooseAnchors_spec hmi hch
  have hal : ∀ text, Accepts h text → ∃ s ∈ anchors, s <:+: text :=
    fun text ht => ha text (analyze_sound cfg h text ht)
  refine ⟨hal, hc, hl, fun he => ?_, fun holds before text after hm => ?_⟩
  · obtain ⟨s, hs, hw⟩ := hal [] he
    exact (hl s hs).1 (List.infix_nil.mp hw)
  · obtain ⟨s, hs, hw⟩ := hal text ⟨holds, before, after, hm⟩
    exact ⟨s, hs, hw.trans ⟨before, after, rfl⟩⟩

/-- Anchors are sound, from both entry points, whatever the parser's length bound says. -/
theorem anchors_sound (minimumLen : Hir → Option Nat) (h : Hir) (cfg : AnchorDeriveConfig)
    (hmin : 1 ≤ cfg.minAnchorLen) :
    (∀ anchors confirmAll,
      compileTriggerPlan minimumLen (.ok h) cfg = .ok (.anchored anchors confirmAll) →
        SoundAnchors h cfg anchors confirmAll) ∧
    (∀ anchors, deriveAnchorsFromPattern (.ok h) cfg = .ok anchors →
      SoundAnchors h cfg anchors []) := by
  constructor
  · intro anchors confirmAll hplan
    have hplan := Except.ok.inj hplan
    unfold planOf at hplan
    split at hplan
    · cases hplan
    split at hplan
    next chosen hchoose =>
      cases hplan
      refine soundAnchors_of_choose hmin hchoose fun text htext c hc => ?_
      exact collectConfirmAllLiterals_within htext c (List.mem_of_mem_filter hc)
    next =>
      split at hplan <;> cases hplan
  · intro anchors hderive
    exact soundAnchors_of_choose hmin hderive fun _ _ c hc => absurd hc List.not_mem_nil

/-- The expression `(foo[0-9]+\bbar)`. -/
def sampleHir : Hir :=
  .capture (.concat [.literal [102, 111, 111],
    .repetition 1 none (.cls (.bytes [(48, 57)])), .look .wordAscii, .literal [98, 97, 114]])

def sampleConfig : AnchorDeriveConfig := ⟨3, 16, 64, 16⟩

mutual

/-- The parser's length of a shortest match, for expressions with classes of single bytes. -/
def sampleMinimumLen : Hir → Option Nat
  | .empty | .look _ => some 0
  | .literal bytes => some bytes.length
  | .cls _ => some 1
  | .repetition min _ sub => (sampleMinimumLen sub).map (min * ·)
  | .capture sub => sampleMinimumLen sub
  | .concat subs => some (sampleMinimumLens subs).sum
  | .alternation alts => (sampleMinimumLens alts).min?

def sampleMinimumLens : List Hir → List Nat
  | [] => []
  | sub :: rest => (sampleMinimumLen sub).toList ++ sampleMinimumLens rest

end

theorem anchors_sound_sample :
    ∃ anchors confirmAll, compileTriggerPlan sampleMinimumLen (.ok sampleHir) sampleConfig =
        .ok (.anchored anchors confirmAll) ∧
          SoundAnchors sampleHir sampleConfig anchors confirmAll := by
  have hplan : compileTriggerPlan sampleMinimumLen (.ok sampleHir) sampleConfig =
      .ok (.anchored [[102, 111, 111]] [[98, 97, 114]]) := rfl
  exact ⟨_, _, hplan, (anchors_sound _ sampleHir sampleConfig (by decide)).1 _ _ hplan⟩

end GossipRs.Engine
