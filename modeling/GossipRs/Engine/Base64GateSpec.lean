import GossipRs.Engine.Base64Gate

/-! The gate hits exactly the inputs with a pattern within one run, however they are cut into
chunks, and every base64 text of data that contains an anchor is such an input. -/

namespace GossipRs.Engine

open Lib Lib.Base64 List
open Base64YaraGate (build scanChunks scanLoop scanWithState)

/-! ### Bytes and symbols -/

theorem base64Sym_std (v) : base64Sym (base64Std v) = some v := by
  revert v
  decide

theorem base64Sym_url (v) : base64Sym (base64Url v) = some v := by
  revert v
  decide

theorem std_ne_pad (v) : base64Std v ≠ padByte := by
  revert v
  decide

theorem url_ne_pad (v) : base64Url v ≠ padByte := by
  revert v
  decide

theorem isWs_pad (policy) : isWs policy padByte = false := by
  cases policy <;> rfl

theorem canonicalByte_of_sym (h : base64Sym b = some v) : canonicalByte b = base64Std v := by
  have ha : ∀ n : Fin 256, ∀ v : Fin 64, base64Sym (UInt8.ofNat n) = some v →
      canonicalByte (UInt8.ofNat n) = base64Std v := by decide +kernel
  have hb : UInt8.ofNat b.toNat = b := UInt8.ofNat_toNat
  have hby := ha ⟨b.toNat, b.toNat_lt⟩ v
  rw [hb] at hby
  exact hby h

theorem inputLut_cases (policy) (b) :
    (inputLut policy b = .pad ∧ b = padByte) ∨
      (b ≠ padByte ∧ ((inputLut policy b = .ws ∧ isWs policy b = true) ∨
        (isWs policy b = false ∧ ((∃ v, inputLut policy b = .sym v ∧ base64Sym b = some v) ∨
          (inputLut policy b = .invalid ∧ base64Sym b = none))))) := by
  unfold inputLut
  by_cases hp : b = padByte
  · exact .inl ⟨if_pos hp, hp⟩
  rw [if_neg hp]
  refine .inr ⟨hp, ?_⟩
  cases hw : isWs policy b with
  | true => exact .inl ⟨rfl, rfl⟩
  | false =>
    refine .inr ⟨rfl, ?_⟩
    cases hs : base64Sym b with
    | none => exact .inr ⟨rfl, rfl⟩
    | some v => exact .inl ⟨v, rfl, rfl⟩

/-! ### Runs, byte by byte -/

section Runs

variable {cfg : Base64YaraGateConfig} {b : UInt8} {rest : Bytes}

theorem canonicalRuns_nil : canonicalRuns cfg [] = [[]] := by
  unfold canonicalRuns
  cases cfg.paddingPolicy <;> rfl

theorem canonicalRuns_ws (hp : b ≠ padByte) (hw : isWs cfg.whitespacePolicy b = true) :
    canonicalRuns cfg (b :: rest) = canonicalRuns cfg rest := by
  unfold canonicalRuns
  cases cfg.paddingPolicy <;> simp [hp, hw]

theorem map_map_modifyHead (f : UInt8 → UInt8) (b : UInt8) (runs : List Bytes) :
    (runs.modifyHead (List.cons b)).map (fun run => run.map f) =
      (runs.map fun run => run.map f).modifyHead (f b :: ·) := by
  cases runs <;> rfl

theorem canonicalRuns_sym (hp : b ≠ padByte) (hw : isWs cfg.whitespacePolicy b = false)
    (hs : base64Sym b = some v) :
    canonicalRuns cfg (b :: rest) = (canonicalRuns cfg rest).modifyHead (base64Std v :: ·) := by
  have hb := canonicalByte_of_sym hs
  unfold canonicalRuns
  cases cfg.paddingPolicy <;>
    simp [hp, hw, splitOnP_cons_eq_if_modifyHead, hs, ← hb, map_map_modifyHead]

theorem canonicalRuns_invalid (hp : b ≠ padByte) (hw : isWs cfg.whitespacePolicy b = false)
    (hs : base64Sym b = none) : canonicalRuns cfg (b :: rest) = [] :: canonicalRuns cfg rest := by
  unfold canonicalRuns
  cases cfg.paddingPolicy <;> simp [hp, hw, splitOnP_cons_eq_if_modifyHead, hs]

theorem canonicalRuns_stop (hp : cfg.paddingPolicy = .stopAndHalt) :
    canonicalRuns cfg (padByte :: rest) = [[]] := by
  unfold canonicalRuns
  rw [hp]
  simp

theorem canonicalRuns_reset (hp : cfg.paddingPolicy = .resetAndContinue) :
    canonicalRuns cfg (padByte :: rest) = [] :: canonicalRuns cfg rest := by
  have hs : base64Sym padByte = none := by decide
  unfold canonicalRuns
  rw [hp]
  simp [isWs_pad, splitOnP_cons_eq_if_modifyHead, hs]

theorem modifyHead_append (cur : Bytes) (c : UInt8) (runs : List Bytes) :
    (runs.modifyHead (c :: ·)).modifyHead (cur ++ ·) = runs.modifyHead ((cur ++ [c]) ++ ·) := by
  cases runs with
  | nil => rfl
  | cons run runs => simp

theorem canonicalRuns_ne_nil (encoded) : canonicalRuns cfg encoded ≠ [] := by
  unfold canonicalRuns
  rw [ne_eq, map_eq_nil_iff]
  exact splitOnP_ne_nil _ _

end Runs

/-! ### The scan -/

structure GateFor (cfg : Base64YaraGateConfig) (words : List (List (Fin 64)))
    (gate : Base64YaraGate) : Prop where
  next_eq : gate.ac.next = (AcNodes.build (List.finRange 64) words).step
  out_eq : gate.ac.out = fun s => ((AcNodes.build (List.finRange 64) words).node s).out
  count_eq : gate.ac.stateCount = (AcNodes.build (List.finRange 64) words).count
  padding_eq : gate.paddingPolicy = cfg.paddingPolicy
  whitespace_eq : gate.whitespacePolicy = cfg.whitespacePolicy
  words_ne : ∀ w ∈ words, w ≠ []

section Scan

variable {cfg : Base64YaraGateConfig} {words : List (List (Fin 64))} {gate : Base64YaraGate}

def stateAfter (words : List (List (Fin 64))) (cur : List (Fin 64)) : Nat :=
  (AcNodes.build (List.finRange 64) words).run 0 cur

theorem stateAfter_append (cur : List (Fin 64)) (v : Fin 64) (h : GateFor cfg words gate) :
    gate.ac.next (stateAfter words cur) v = stateAfter words (cur ++ [v]) := by
  rw [h.next_eq, stateAfter, stateAfter, AcNodes.run, AcNodes.run, foldl_append]
  rfl

theorem GateFor.out_iff (h : GateFor cfg words gate) (cur : List (Fin 64)) :
    gate.ac.out (stateAfter words cur) = true ↔ ∃ w ∈ words, w <:+ cur := by
  rw [h.out_eq]
  exact (AcNodes.build_spec (nodup_finRange 64) mem_finRange h.words_ne cur).2

theorem GateFor.state_lt (h : GateFor cfg words gate) (cur : List (Fin 64)) :
    stateAfter words cur < gate.ac.stateCount := by
  rw [h.count_eq]
  exact (AcNodes.build_spec (nodup_finRange 64) mem_finRange h.words_ne cur).1

theorem infix_map_std : w.map base64Std <:+: cur.map base64Std ↔ w <:+: cur := by
  constructor
  · intro h
    have hb : ∀ l : List (Fin 64), (l.map base64Std).filterMap base64Sym = l := by
      intro l
      rw [filterMap_map]
      have hid : base64Sym ∘ base64Std = some := funext base64Sym_std
      rw [hid, filterMap_some]
    have hs := h.filterMap base64Sym
    rwa [hb, hb] at hs
  · intro h
    exact h.map base64Std

def Occurs (words : List (List (Fin 64))) (runs : List Bytes) : Prop :=
  ∃ run ∈ runs, ∃ w ∈ words, w.map base64Std <:+: run

theorem occurs_cons :
    Occurs words (run :: runs) ↔ (∃ w ∈ words, w.map base64Std <:+: run) ∨ Occurs words runs := by
  simp [Occurs]

theorem not_occurs_cur (hc : ∀ w ∈ words, ¬ w <:+: cur) :
    ¬ ∃ w ∈ words, w.map base64Std <:+: cur.map base64Std := by
  rintro ⟨w, hw, hwi⟩
  exact hc w hw (infix_map_std.mp hwi)

theorem modifyHead_nil_append (runs : List Bytes) : runs.modifyHead (([] : Bytes) ++ ·) = runs := by
  cases runs <;> rfl

theorem GateFor.not_infix_nil (h : GateFor cfg words gate) : ∀ w ∈ words, ¬ w <:+: [] := by
  intro w hw hwi
  exact h.words_ne w hw (infix_nil.mp hwi)

theorem occurs_break (hc : ∀ w ∈ words, ¬ w <:+: cur) (runs) :
    Occurs words (([] :: runs).modifyHead (cur.map base64Std ++ ·)) ↔ Occurs words runs := by
  rw [modifyHead_cons, occurs_cons, append_nil]
  exact or_iff_right (not_occurs_cur hc)

theorem not_occurs_end (hc : ∀ w ∈ words, ¬ w <:+: cur) :
    ¬ Occurs words ([[]].modifyHead (cur.map base64Std ++ ·)) := by
  rw [occurs_break hc]
  rintro ⟨_, hr, -⟩
  cases hr

theorem occurs_of_suffix (hw : w ∈ words) (hs : w <:+ cur) (hn : runs ≠ []) :
    Occurs words (runs.modifyHead (cur.map base64Std ++ ·)) := by
  cases runs with
  | nil => exact absurd rfl hn
  | cons run runs =>
    rw [modifyHead_cons, occurs_cons]
    refine .inl ⟨w, hw, (infix_map_std.mpr hs.isInfix).trans ?_⟩
    exact (prefix_append _ _).isInfix

/-- The loop stands after the symbols `cur` of the current run, in which no word occurs yet. -/
theorem scanLoop_iff (h : GateFor cfg words gate) (halted : Bool) (encoded) (cur : List (Fin 64))
    (hc : ∀ w ∈ words, ¬ w <:+: cur) :
    (gate.scanLoop halted (stateAfter words cur) encoded).1 = true ↔
      Occurs words ((canonicalRuns cfg encoded).modifyHead (cur.map base64Std ++ ·)) := by
  induction encoded generalizing cur with
  | nil =>
    rw [canonicalRuns_nil]
    exact iff_of_false Bool.false_ne_true (not_occurs_end hc)
  | cons b rest ih =>
    have hr := ih [] h.not_infix_nil
    rw [map_nil, modifyHead_nil_append] at hr
    rw [scanLoop, h.whitespace_eq]
    rcases inputLut_cases cfg.whitespacePolicy b with ⟨hl, rfl⟩ | ⟨hpa, ⟨hl, hws⟩ |
      ⟨hws, ⟨v, hl, hsy⟩ | ⟨hl, hsy⟩⟩⟩
    · rw [hl, h.padding_eq]
      cases hp : cfg.paddingPolicy with
      | stopAndHalt =>
        rw [canonicalRuns_stop hp]
        exact iff_of_false Bool.false_ne_true (not_occurs_end hc)
      | resetAndContinue =>
        rw [canonicalRuns_reset hp, occurs_break hc]
        exact hr
    · rw [hl, canonicalRuns_ws hpa hws]
      exact ih cur hc
    · have hm : cur.map base64Std ++ [base64Std v] = (cur ++ [v]).map base64Std := by simp
      rw [hl, canonicalRuns_sym hpa hws hsy, modifyHead_append, hm]
      simp only [stateAfter_append cur v h]
      by_cases ho : gate.ac.out (stateAfter words (cur ++ [v])) = true
      · rw [if_pos ho]
        obtain ⟨w, hw, hs⟩ := (h.out_iff _).mp ho
        exact iff_of_true rfl (occurs_of_suffix hw hs (canonicalRuns_ne_nil rest))
      rw [if_neg ho]
      refine ih (cur ++ [v]) fun w hw hwi => ?_
      rcases infix_concat_iff.mp hwi with hs | hwi
      · exact ho ((h.out_iff _).mpr ⟨w, hw, hs⟩)
      · exact hc w hw hwi
    · rw [hl, canonicalRuns_invalid hpa hws hsy, occurs_break hc]
      exact hr

/-! ### Chunks -/

theorem scanLoop_state (h : GateFor cfg words gate) (encoded) (cur : List (Fin 64)) :
    ∃ cur', (gate.scanLoop false (stateAfter words cur) encoded).2.state =
      stateAfter words cur' := by
  induction encoded generalizing cur with
  | nil => exact ⟨cur, rfl⟩
  | cons b rest ih =>
    rw [scanLoop]
    cases inputLut gate.whitespacePolicy b with
    | sym v =>
      simp only [stateAfter_append cur v h]
      split
      · exact ⟨_, rfl⟩
      · exact ih _
    | ws => exact ih cur
    | pad =>
      cases gate.paddingPolicy with
      | stopAndHalt => exact ⟨cur, rfl⟩
      | resetAndContinue => exact ih []
    | invalid => exact ih []

theorem scanLoop_halted (hh : (gate.scanLoop false state encoded).2.halted = true) :
    gate.paddingPolicy = .stopAndHalt := by
  induction encoded generalizing state with
  | nil => cases hh
  | cons b rest ih =>
    rw [scanLoop] at hh
    cases hl : inputLut gate.whitespacePolicy b with
    | sym v =>
      rw [hl] at hh
      simp only at hh
      split at hh
      · cases hh
      · exact ih hh
    | ws | invalid =>
      rw [hl] at hh
      exact ih hh
    | pad =>
      rw [hl] at hh
      cases hp : gate.paddingPolicy with
      | stopAndHalt => rfl
      | resetAndContinue =>
        rw [hp] at hh
        rw [← hp]
        exact ih hh

theorem scanLoop_append (state) (a b) :
    (gate.scanLoop false state (a ++ b)).1 =
      if (gate.scanLoop false state a).1 = true then true
      else if (gate.scanLoop false state a).2.halted = true then false
      else (gate.scanLoop false (gate.scanLoop false state a).2.state b).1 := by
  induction a generalizing state with
  | nil => rfl
  | cons c rest ih =>
    rw [cons_append, scanLoop, scanLoop]
    cases inputLut gate.whitespacePolicy c with
    | sym v =>
      simp only
      split
      · rfl
      · exact ih _
    | ws => exact ih state
    | pad =>
      cases gate.paddingPolicy with
      | stopAndHalt => rfl
      | resetAndContinue => exact ih 0
    | invalid => exact ih 0

theorem scanWithState_eq (h : GateFor cfg words gate) (chunk : Bytes) (cur : List (Fin 64)) :
    gate.scanWithState chunk ⟨stateAfter words cur, false⟩ =
      gate.scanLoop false (stateAfter words cur) chunk := by
  have hl := h.state_lt cur
  unfold scanWithState
  simp [Nat.not_le.mpr hl]

theorem scanChunks_halted (hp : gate.paddingPolicy = .stopAndHalt) (hst : st.halted = true)
    (chunks) : gate.scanChunks st chunks = false := by
  induction chunks with
  | nil => rfl
  | cons chunk rest ih =>
    have hs : gate.scanWithState chunk st = (false, st) := by
      rw [scanWithState, if_pos ⟨hp, hst⟩]
    rw [scanChunks, hs]
    exact ih

theorem GateState.eq_running {st : GateState} {state} (hs : st.state = state)
    (hh : ¬ st.halted = true) : st = ⟨state, false⟩ := by
  cases st
  cases hs
  rw [Bool.not_eq_true] at hh
  cases hh
  rfl

theorem scanChunks_eq (h : GateFor cfg words gate) (chunks : List Bytes) (cur : List (Fin 64)) :
    gate.scanChunks ⟨stateAfter words cur, false⟩ chunks =
      (gate.scanLoop false (stateAfter words cur) chunks.flatten).1 := by
  induction chunks generalizing cur with
  | nil => rfl
  | cons chunk rest ih =>
    rw [scanChunks, scanWithState_eq h, flatten_cons, scanLoop_append]
    by_cases hhi : (gate.scanLoop false (stateAfter words cur) chunk).1 = true
    · rw [if_pos hhi, if_pos hhi]
    rw [if_neg hhi, if_neg hhi]
    by_cases hh : (gate.scanLoop false (stateAfter words cur) chunk).2.halted = true
    · rw [if_pos hh]
      exact scanChunks_halted (scanLoop_halted hh) hh rest
    obtain ⟨cur', hs⟩ := scanLoop_state h chunk cur
    rw [GateState.eq_running hs hh]
    exact ih cur'

end Scan

/-! ### Patterns -/

theorem group_eq (hb : b < 256) (hc : c < 256) :
    a <<< 16 ||| b <<< 8 ||| c = a * 65536 + b * 256 + c := by
  have h1 : a <<< 16 ||| b <<< 8 = (a <<< 8 ||| b) <<< 8 := by
    rw [Nat.shiftLeft_or_distrib, ← Nat.shiftLeft_add]
  rw [h1, ← Nat.shiftLeft_add_eq_or_of_lt (by omega : c < 2 ^ 8),
    ← Nat.shiftLeft_add_eq_or_of_lt (by omega : b < 2 ^ 8), Nat.shiftLeft_eq, Nat.shiftLeft_eq]
  omega

theorem groupChar_eq (n shift) :
    groupChar n shift = base64Std (Base64.sextet (n / 2 ^ shift)) := by
  have hm : n >>> shift &&& 63 = n >>> shift % 2 ^ 6 := Nat.and_two_pow_sub_one_eq_mod _ 6
  rw [groupChar, hm, Nat.shiftRight_eq_div_pow]
  congr 1
  apply Fin.ext
  simp

section Encoding

variable (a b c : UInt8)

theorem groupChar_first (n) (h : n / 65536 = a.toNat) :
    groupChar n 18 = base64Std (first a) := by
  rw [groupChar_eq, first]
  congr 2
  omega

theorem groupChar_second (n) (h : n / 256 = a.toNat * 256 + b.toNat) :
    groupChar n 12 = base64Std (second a b) := by
  rw [groupChar_eq, second]
  congr 1
  apply Fin.ext
  show n / 2 ^ 12 % 64 = _ % 64
  omega

theorem groupChar_third (n) (h : n % 65536 = b.toNat * 256 + c.toNat) :
    groupChar n 6 = base64Std (third b c) := by
  rw [groupChar_eq, third]
  congr 1
  apply Fin.ext
  show n / 2 ^ 6 % 64 = _ % 64
  omega

theorem groupChar_fourth (n) (h : n % 256 = c.toNat) :
    groupChar n 0 = base64Std (fourth c) := by
  rw [groupChar_eq, fourth]
  congr 1
  apply Fin.ext
  show n / 2 ^ 0 % 64 = _ % 64
  omega

end Encoding

theorem paddingLength_block (a b c) (rest) :
    paddingLength (a :: b :: c :: rest) = paddingLength rest := by
  simp only [paddingLength, length_cons]
  omega

theorem base64EncodeStd_eq : ∀ x,
    base64EncodeStd x = (sextets x).map base64Std ++ List.replicate (paddingLength x) padByte
  | [] => rfl
  | [a] => by
    have ha := a.toNat_lt
    have hn : a.toNat <<< 16 = a.toNat * 65536 := Nat.shiftLeft_eq _ _
    have hz : (0 : UInt8).toNat = 0 := rfl
    simp only [base64EncodeStd]
    rw [groupChar_first a _ (by omega), groupChar_second a 0 _ (by omega)]
    rfl
  | [a, b] => by
    have ha := a.toNat_lt
    have hb := b.toNat_lt
    have hn : a.toNat <<< 16 ||| b.toNat <<< 8 = a.toNat * 65536 + b.toNat * 256 := by
      have := group_eq (a := a.toNat) hb (c := 0) (by omega)
      rwa [Nat.or_zero, Nat.add_zero] at this
    have hz : (0 : UInt8).toNat = 0 := rfl
    simp only [base64EncodeStd]
    rw [groupChar_first a _ (by omega), groupChar_second a b _ (by omega),
      groupChar_third b 0 _ (by omega)]
    rfl
  | a :: b :: c :: rest => by
    have hb := b.toNat_lt
    have hc := c.toNat_lt
    have hn := group_eq (a := a.toNat) hb hc
    simp only [base64EncodeStd]
    rw [groupChar_first a _ (by omega), groupChar_second a b _ (by omega),
      groupChar_third b c _ (by omega), groupChar_fourth c _ (by omega), base64EncodeStd_eq rest,
      paddingLength_block]
    rfl

theorem rightStrip_le : ∀ x, rightStrip (x.length % 3) ≤ (base64EncodeStd x).length
  | [] => Nat.le_refl _
  | [a] => by simp [base64EncodeStd, rightStrip]
  | [a, b] => by simp [base64EncodeStd, rightStrip]
  | a :: b :: c :: rest => by
    have hr := rightStrip_le rest
    have hm : (a :: b :: c :: rest).length % 3 = rest.length % 3 := by
      simp only [length_cons]
      omega
    rw [hm]
    simp only [base64EncodeStd, length_cons]
    omega

theorem take_base64EncodeStd : ∀ x,
    (base64EncodeStd x).take ((base64EncodeStd x).length - rightStrip (x.length % 3)) =
      (stable x).map base64Std
  | [] => rfl
  | [a] => by
    rw [base64EncodeStd_eq]
    rfl
  | [a, b] => by
    rw [base64EncodeStd_eq]
    rfl
  | a :: b :: c :: rest => by
    have hr := take_base64EncodeStd rest
    have hm : (a :: b :: c :: rest).length % 3 = rest.length % 3 := by
      simp only [length_cons]
      omega
    have hri := rightStrip_le rest
    have hl : (base64EncodeStd (a :: b :: c :: rest)).length - rightStrip (rest.length % 3) =
        (base64EncodeStd rest).length - rightStrip (rest.length % 3) + 4 := by
      simp only [base64EncodeStd, length_cons]
      omega
    have hb : base64EncodeStd (a :: b :: c :: rest) = base64Std (first a) ::
        base64Std (second a b) :: base64Std (third b c) :: base64Std (fourth c) ::
          base64EncodeStd rest := by
      rw [base64EncodeStd_eq, base64EncodeStd_eq rest, paddingLength_block]
      rfl
    rw [hm, hl, hb, take_succ_cons, take_succ_cons, take_succ_cons, take_succ_cons, hr]
    rfl

theorem yaraBase64Perm_eq {anchor : Bytes} (ha : anchor ≠ []) (ho : offset < 3)
    (minPatLen) :
    yaraBase64Perm anchor offset minPatLen =
      if innerGroups offset anchor = [] ∨ (innerGroups offset anchor).length < minPatLen then none
      else some ((innerGroups offset anchor).map base64Std) := by
  have hl : leftStrip offset = unsettled offset := by
    have hal : ∀ o < 3, leftStrip o = unsettled o := by decide
    exact hal offset ho
  have ht := take_base64EncodeStd (List.replicate offset 0 ++ anchor)
  have hp : ∀ n, ((base64EncodeStd (List.replicate offset 0 ++ anchor)).drop
    (leftStrip offset)).take
      (n - leftStrip offset) = ((base64EncodeStd (List.replicate offset 0 ++ anchor)).take n).drop
        (leftStrip offset) := by
    intro n
    rw [drop_take]
  have hin : (innerGroups offset anchor).map base64Std =
      ((stable (List.replicate offset 0 ++ anchor)).map base64Std).drop (leftStrip offset) := by
    rw [innerGroups, map_drop, hl]
  have he : (base64EncodeStd (List.replicate offset 0 ++ anchor)).length ≤
      leftStrip offset + rightStrip ((List.replicate offset 0 ++ anchor).length % 3) ↔
      innerGroups offset anchor = [] := by
    have hle := congrArg length ht
    rw [length_take_of_le (Nat.sub_le _ _), length_map] at hle
    rw [innerGroups, ← hl, drop_eq_nil_iff, ← hle]
    omega
  rw [yaraBase64Perm, if_neg ha]
  simp only [he, hp, ht, ← hin, length_map]
  by_cases hn : innerGroups offset anchor = []
  · rw [if_pos hn, if_pos (.inl hn)]
  rw [if_neg hn]
  by_cases hs : (innerGroups offset anchor).length < minPatLen
  · rw [if_pos hs, if_pos (.inr hs)]
  · rw [if_neg hs, if_neg (not_or.mpr ⟨hn, hs⟩)]

theorem mem_patternSet :
    pattern ∈ patternSet anchors cfg ↔ ∃ anchor ∈ anchors, anchor ≠ [] ∧ ∃ offset < 3,
      innerGroups offset anchor ≠ [] ∧ cfg.minPatternLen ≤ (innerGroups offset anchor).length ∧
        pattern = (innerGroups offset anchor).map base64Std := by
  have hon : ∀ anchor, pattern ∈ anchorPatterns cfg anchor ↔ anchor ≠ [] ∧ ∃ offset < 3,
      innerGroups offset anchor ≠ [] ∧ cfg.minPatternLen ≤ (innerGroups offset anchor).length ∧
        pattern = (innerGroups offset anchor).map base64Std := by
    intro anchor
    unfold anchorPatterns
    by_cases ha : anchor = []
    · simp [ha]
    rw [if_neg ha, mem_filterMap, and_iff_right ha]
    have ho : ∀ offset, offset ∈ [0, 1, 2] ↔ offset < 3 := by
      simp only [mem_cons, not_mem_nil, or_false]
      omega
    simp only [ho]
    refine exists_congr fun offset => and_congr_right fun hof => ?_
    rw [yaraBase64Perm_eq ha hof]
    split
    next h =>
      refine iff_of_false (by simp) fun hp => ?_
      rcases h with hn | hs
      · exact hp.1 hn
      · exact absurd hp.2.1 (Nat.not_le.mpr hs)
    next h =>
      rw [not_or, Nat.not_lt] at h
      rw [and_iff_right h.1, and_iff_right h.2, Option.some.injEq, eq_comm]
  rw [patternSet, mem_sortedElements, mem_toFinset, mem_flatMap]
  simp [hon]

/-! ### The gate -/

theorem mapM_of_some {α β : Type} {f} {g : α → β} {l : List α} (h : ∀ a ∈ l, f a = some (g a)) :
    l.mapM f = some (l.map g) := by
  induction l with
  | nil => rfl
  | cons a rest ih =>
    obtain ⟨ha, hr⟩ := forall_mem_cons.mp h
    rw [mapM_cons, ha, ih hr]
    rfl

theorem mapM_base64Sym (w : List (Fin 64)) : (w.map base64Std).mapM base64Sym = some w := by
  rw [mapM_of_some (g := fun b => (base64Sym b).getD 0) fun b hb => ?_]
  · rw [map_map]
    have hid : (fun b => (base64Sym b).getD 0) ∘ base64Std = id := by
      funext v
      show (base64Sym (base64Std v)).getD 0 = v
      rw [base64Sym_std]
      rfl
    rw [hid, map_id]
  obtain ⟨v, -, rfl⟩ := mem_map.mp hb
  rw [base64Sym_std]
  rfl

def patternWord (pattern : Bytes) : List (Fin 64) := pattern.filterMap base64Sym

theorem map_patternWord (h : pattern ∈ patternSet anchors cfg) :
    patternWord pattern ≠ [] ∧ (patternWord pattern).map base64Std = pattern := by
  obtain ⟨anchor, -, -, offset, -, hn, -, rfl⟩ := mem_patternSet.mp h
  have hw : patternWord ((innerGroups offset anchor).map base64Std) =
    innerGroups offset anchor := by
    rw [patternWord, filterMap_map, show base64Sym ∘ base64Std = some from
      funext base64Sym_std, filterMap_some]
  rw [hw]
  exact ⟨hn, rfl⟩

theorem build_gateFor (anchors) (cfg) :
    ∃ gate, build anchors cfg = some gate ∧
      GateFor cfg ((patternSet anchors cfg).map patternWord) gate := by
  have hwo : (patternSet anchors cfg).mapM (fun pat : Bytes => pat.mapM base64Sym) =
      some ((patternSet anchors cfg).map patternWord) := by
    refine mapM_of_some fun pattern hp => ?_
    rw [← (map_patternWord hp).2, mapM_base64Sym, (map_patternWord hp).2]
  refine ⟨_, by rw [build, Ac64.buildFromBase64Patterns, hwo]; rfl, ?_⟩
  refine ⟨rfl, rfl, rfl, rfl, rfl, fun w hw => ?_⟩
  obtain ⟨pattern, hp, rfl⟩ := mem_map.mp hw
  exact (map_patternWord hp).1

theorem occurs_patternWord (anchors) (cfg) (runs) :
    Occurs ((patternSet anchors cfg).map patternWord) runs ↔
      ∃ run ∈ runs, ∃ pattern ∈ patternSet anchors cfg, pattern <:+: run := by
  refine exists_congr fun run => and_congr_right fun _ => ?_
  constructor
  · rintro ⟨_, hw, hwi⟩
    obtain ⟨pattern, hp, rfl⟩ := mem_map.mp hw
    rw [(map_patternWord hp).2] at hwi
    exact ⟨pattern, hp, hwi⟩
  rintro ⟨pattern, hp, hwi⟩
  refine ⟨patternWord pattern, mem_map_of_mem hp, ?_⟩
  rw [(map_patternWord hp).2]
  exact hwi

/-! ### Texts of encoded data -/

theorem filter_takeWhile_pad (policy) (text : Bytes) :
    (text.takeWhile (· != padByte)).filter (fun b => !isWs policy b) =
      (text.filter fun b => !isWs policy b).takeWhile (· != padByte) := by
  induction text with
  | nil => rfl
  | cons b rest ih =>
    by_cases hp : b = padByte
    · subst hp
      simp [isWs_pad]
    · cases hw : isWs policy b with
      | true | false => simp [hp, hw, ih]

theorem sextets_mem_canonicalRuns (h : IsEncoding cfg.whitespacePolicy data text) :
    (sextets data).map base64Std ∈ canonicalRuns cfg text := by
  obtain ⟨alphabet, ha, padding, -, ht⟩ := h
  have hsy : ∀ v, base64Sym (alphabet v) = some v ∧ alphabet v ≠ padByte := by
    intro v
    simp only [mem_cons, not_mem_nil, or_false] at ha
    rcases ha with rfl | rfl
    · exact ⟨base64Sym_std v, std_ne_pad v⟩
    · exact ⟨base64Sym_url v, url_ne_pad v⟩
  have hc : ((sextets data).map alphabet).map canonicalByte = (sextets data).map base64Std := by
    rw [map_map]
    exact map_congr_left fun v _ => canonicalByte_of_sym (hsy v).1
  -- The part of the text the gate looks at is the groups, and perhaps padding.
  have hv : ∃ n, canonicalRuns cfg text =
      (((sextets data).map alphabet ++ List.replicate n padByte).splitOnP
        fun b => (base64Sym b).isNone).map fun run => run.map canonicalByte := by
    unfold canonicalRuns
    cases cfg.paddingPolicy with
    | resetAndContinue =>
      refine ⟨padding, ?_⟩
      simp only
      rw [ht]
    | stopAndHalt =>
      refine ⟨0, ?_⟩
      simp only
      rw [filter_takeWhile_pad, ht, takeWhile_append_of_pos fun b hb => ?_]
      · have hs : (List.replicate padding padByte).takeWhile (· != padByte) = [] := by
          cases padding <;> simp [replicate_succ]
        rw [hs, replicate_zero]
      · obtain ⟨v, -, rfl⟩ := mem_map.mp hb
        simpa using (hsy v).2
  obtain ⟨n, hr⟩ := hv
  rw [hr, ← hc]
  refine mem_map_of_mem ?_
  have hg : ∀ b ∈ (sextets data).map alphabet, (base64Sym b).isNone = false := by
    intro b hb
    obtain ⟨v, -, rfl⟩ := mem_map.mp hb
    rw [(hsy v).1]
    rfl
  cases n with
  | zero =>
    rw [replicate_zero, append_nil, splitOnP_eq_singleton hg]
    exact mem_singleton_self _
  | succ n =>
    have hp : (base64Sym padByte).isNone = true := by decide
    rw [replicate_succ, splitOnP_append_cons_of_forall_mem hg _ hp]
    exact mem_cons_self

/-- The gate finds the patterns of its anchors within runs, however chunks are cut, and every base64
text of data with an anchor of two bytes or more. -/
theorem base64Gate_exact (anchors : List Bytes) (cfg : Base64YaraGateConfig) :
    ∃ gate, Base64YaraGate.build anchors cfg = some gate ∧
      (∀ encoded : Bytes, gate.hits encoded = true ↔
        ∃ run ∈ canonicalRuns cfg encoded, ∃ pattern ∈ patternSet anchors cfg, pattern <:+: run) ∧
      (∀ chunks : List Bytes, gate.scanChunks GateState.default chunks = true ↔
        ∃ run ∈ canonicalRuns cfg chunks.flatten, ∃ pattern ∈ patternSet anchors cfg,
          pattern <:+: run) ∧
      (cfg.minPatternLen = 0 → ∀ anchor ∈ anchors, 2 ≤ anchor.length → ∀ before after text : Bytes,
        IsEncoding cfg.whitespacePolicy (before ++ anchor ++ after) text →
          gate.hits text = true) := by
  obtain ⟨gate, hbuild, h⟩ := build_gateFor anchors cfg
  have hloop : ∀ encoded, (gate.scanLoop false 0 encoded).1 = true ↔
      ∃ run ∈ canonicalRuns cfg encoded, ∃ pattern ∈ patternSet anchors cfg, pattern <:+: run := by
    intro encoded
    have hscan := scanLoop_iff h false encoded [] h.not_infix_nil
    rw [map_nil, modifyHead_nil_append, occurs_patternWord] at hscan
    exact hscan
  have hhits : ∀ encoded, gate.hits encoded = (gate.scanLoop false 0 encoded).1 :=
    fun encoded => congrArg Prod.fst (scanWithState_eq h encoded [])
  refine ⟨gate, hbuild, ?_, ?_, ?_⟩
  · intro encoded
    rw [hhits]
    exact hloop encoded
  · intro chunks
    have hchunks : gate.scanChunks GateState.default chunks =
        (gate.scanLoop false 0 chunks.flatten).1 := scanChunks_eq h chunks []
    rw [hchunks]
    exact hloop chunks.flatten
  intro hmin anchor hanchor hlen before after text htext
  rw [hhits, hloop]
  have hoffset : before.length % 3 < 3 := Nat.mod_lt _ (by decide)
  have hne : anchor ≠ [] := by
    rintro rfl
    exact absurd hlen (by decide)
  refine ⟨_, sextets_mem_canonicalRuns htext,
    (innerGroups (before.length % 3) anchor).map base64Std,
    ?_, (innerGroups_isInfix before anchor after).map base64Std⟩
  refine mem_patternSet.mpr ⟨anchor, hanchor, hne, _, hoffset, innerGroups_ne_nil hoffset hlen,
    ?_, rfl⟩
  rw [hmin]
  exact Nat.zero_le _

/-- An anchor of two bytes inside four, broken by a newline. -/
def sampleText : Bytes := [65, 87, 100, 10, 111, 65, 103, 61, 61]

theorem base64Gate_exact_sample :
    IsEncoding .rfc4648 ([1] ++ [103, 104] ++ [2]) sampleText ∧
      ∃ gate, Base64YaraGate.build [[103, 104]] ⟨0, .stopAndHalt, .rfc4648⟩ = some gate ∧
        gate.hits sampleText = true := by
  have htext : IsEncoding .rfc4648 ([1] ++ [103, 104] ++ [2]) sampleText :=
    ⟨base64Std, mem_cons_self, 2, by decide, by decide⟩
  obtain ⟨gate, hbuild, -, -, hanchors⟩ :=
    base64Gate_exact [[103, 104]] ⟨0, .stopAndHalt, .rfc4648⟩
  exact ⟨htext, gate, hbuild,
    hanchors rfl [103, 104] mem_cons_self (by decide) [1] [2] sampleText htext⟩

end GossipRs.Engine
