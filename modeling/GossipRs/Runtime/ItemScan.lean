import GossipRs.Coordination.Validation

/-! One item of a page, read in chunks (`scan_item_chunks` of `ordered_content.rs`). It is
classified by the bytes of its first read alone, so a short first read can hide what a longer one
shows. -/

namespace GossipRs.Runtime.ItemScan

open Lib List

/-! ### Classification -/

inductive ExtractableFormat where
  | dotEnv
  | ipynb
  | javaClass
  | jarWar
  | pyc
deriving DecidableEq

inductive ContentVerdict where
  | text
  | binary
  | binaryExtractable (format : ExtractableFormat)
deriving DecidableEq

def ExtractableFormat.extractsFromText : ExtractableFormat → Bool
  | dotEnv | ipynb => true
  | _ => false

def isLikelyBinary (data : Bytes) (checkLen : Nat) : Bool := (data.take checkLen).contains 0

def fileName (path : Bytes) : Bytes :=
  (path.reverse.takeWhile fun b => b ≠ 47 ∧ b ≠ 92).reverse

/-- `to_ascii_lowercase`. -/
def lower (b : UInt8) : UInt8 := if 65 ≤ b ∧ b ≤ 90 then b + 32 else b

def eqIgnoreAsciiCase (a : Bytes) (b : String) : Bool := a.map lower = asciiBytes b

def isDotenvBasename (path : Bytes) : Bool :=
  let name := fileName path
  eqIgnoreAsciiCase (name.take 4) ".env" && (name.length = 4 || name[4]? = some 46)

def fileExtension (path : Bytes) : Option Bytes :=
  let name := fileName path
  let ext := (name.reverse.takeWhile (· ≠ 46)).reverse
  if name.length ≤ ext.length + 1 ∨ ext = [] then none else some ext

def matchExtractableFormat (path : Bytes) : Option ExtractableFormat :=
  if isDotenvBasename path then some .dotEnv
  else
    (fileExtension path).bind fun ext =>
      if eqIgnoreAsciiCase ext "ipynb" then some .ipynb
      else if eqIgnoreAsciiCase ext "class" then some .javaClass
      else if eqIgnoreAsciiCase ext "jar" || eqIgnoreAsciiCase ext "war" then some .jarWar
      else if eqIgnoreAsciiCase ext "pyc" then some .pyc
      else none

def classifyContent (data path : Bytes) (checkLen : Nat) : ContentVerdict :=
  match matchExtractableFormat path with
  | some format =>
    if isLikelyBinary data checkLen || format.extractsFromText then .binaryExtractable format
    else .text
  | none => if isLikelyBinary data checkLen then .binary else .text

/-! ### The chunk loop -/

inductive ItemOutcome where
  | scanned
  | truncated
  | failed (stop : String)
  | skippedBinary
  | skippedExtractable
deriving DecidableEq

/-- What one item is scanned with, behind the caller's checks. -/
structure Scan where
  path : Bytes
  sizeHint : Option Nat
  remainingBytes : Nat
  chunkSize : Nat
  overlap : Nat
  scanBinary : Bool
  remainingBytes_pos : 0 < remainingBytes
  chunkSize_pos : 0 < chunkSize

/-- `item_byte_budget`, with the default cap of 16 MiB. -/
def Scan.itemByteBudget (c : Scan) : Nat :=
  min ((c.sizeHint.map (max 1)).getD (16 * 1024 * 1024)) c.remainingBytes

structure ChunkView where
  baseOffset : Nat
  prefixLen : Nat
  data : Bytes

/-- The variables of the loop, with the windows fed to the engine and the number of reads. -/
structure State where
  consumed : Nat
  offset : Nat
  carry : Bytes
  firstChunk : Bool
  windows : List ChunkView
  reads : Nat

def State.init : State := ⟨0, 0, [], true, [], 0⟩

def State.fed (s : State) : Bytes := s.windows.flatMap fun w => w.data.drop w.prefixLen

def State.feed (overlap : Nat) (s : State) (bytes : Bytes) : State where
  consumed := s.consumed + bytes.length
  offset := s.offset + bytes.length
  carry := (s.carry ++ bytes).drop ((s.carry ++ bytes).length - overlap)
  firstChunk := false
  windows := s.windows ++ [⟨s.offset - s.carry.length, s.carry.length, s.carry ++ bytes⟩]
  reads := s.reads + 1

def verdict (c : Scan) (s : State) (bytes : Bytes) : ContentVerdict :=
  if s.firstChunk && !c.scanBinary then classifyContent bytes c.path 8192 else .text

def judged (c : Scan) (s : State) (bytes : Bytes) (next : Option (ItemOutcome × State)) :
    Option (ItemOutcome × State) :=
  match verdict c s bytes with
  | .binary => some (.skippedBinary, { s with consumed := 0 })
  | .binaryExtractable _ => some (.skippedExtractable, { s with consumed := 0 })
  | .text => next

/-- `scan_item_chunks`, where `readNext` answers a request for a number of bytes. -/
def scanItemChunks (c : Scan) (readNext : State → Nat → Except String Bytes) :
    Nat → State → Option (ItemOutcome × State)
  | 0, _ => none
  | fuel + 1, s =>
    let remaining := c.itemByteBudget - s.consumed
    let readMax := min (min c.chunkSize (c.chunkSize + c.overlap - s.carry.length)) remaining
    if remaining = 0 then
      match readNext s 1 with
      | .ok [] => some (.scanned, s)
      | _ => some (.truncated, s)
    else if readMax = 0 then some (.truncated, s)
    else
      match readNext s readMax with
      | .error stop => some (.failed stop, s)
      | .ok bytes =>
        if bytes = [] then some (.scanned, s)
        else judged c s bytes (scanItemChunks c readNext fuel (s.feed c.overlap bytes))

/-- How the content arrives: by range reads or from a reader opened with one byte beyond the budget,
in reads of bounded size. -/
structure Delivery where
  rangeRead : Bool
  size : Nat → Nat

/-- A read returns at least one byte, unless the content is at its end. -/
def Delivery.readNext (d : Delivery) (c : Scan) (content : Bytes) (s : State) (len : Nat) :
    Except String Bytes :=
  let readable := if d.rangeRead then content else content.take (c.itemByteBudget + 1)
  .ok ((readable.drop s.offset).take (min (max 1 (d.size s.reads)) len))

def scanItem (c : Scan) (content : Bytes) (d : Delivery) : Option (ItemOutcome × State) :=
  scanItemChunks c (d.readNext c content) (c.itemByteBudget + 1) .init

/-! ### What a scan gives -/

variable {c : Scan} {content : Bytes} {s : State}

theorem readNext_eq (d : Delivery) (content) (hl : 0 < len)
    (h : s.offset + len ≤ c.itemByteBudget + 1) :
    ∃ n, 0 < n ∧ n ≤ len ∧
      d.readNext c content s len = .ok ((content.drop s.offset).take n) := by
  refine ⟨min (max 1 (d.size s.reads)) len, by omega, min_le_right _ _, ?_⟩
  rw [Delivery.readNext]
  cases d.rangeRead with
  | true => rfl
  | false =>
    rw [if_neg Bool.false_ne_true, drop_take, take_take, min_eq_left (by omega)]

structure Fed (c : Scan) (content : Bytes) (s : State) : Prop where
  consumed : s.consumed = s.offset
  offset_le : s.offset ≤ c.itemByteBudget
  carry_le : s.carry.length ≤ c.overlap
  fed : s.fed = content.take s.offset

theorem Fed.feed (h : Fed c content s) (hn : n ≤ c.itemByteBudget - s.offset) :
    Fed c content (s.feed c.overlap ((content.drop s.offset).take n)) := by
  have hb := h.offset_le
  refine ⟨congrArg (· + _) h.consumed, ?_, ?_, ?_⟩
  · simp only [State.feed, length_take]
    omega
  · simp only [State.feed, length_drop]
    omega
  have hf := h.fed
  rw [State.fed] at hf
  simp only [State.fed, State.feed, flatMap_append, hf, flatMap_singleton, drop_left, ← take_add]
  rw [length_take, length_drop, take_eq_take_iff]
  omega

def endOf (c : Scan) (content : Bytes) : ItemOutcome :=
  if content.length ≤ c.itemByteBudget then .scanned else .truncated

theorem scan_turn (d : Delivery) (h : Fed c content s) (fuel) :
    (s.fed = content.take c.itemByteBudget ∧
      scanItemChunks c (d.readNext c content) (fuel + 1) s = some (endOf c content, s)) ∨
    ∃ bytes, d.readNext c content s (min c.chunkSize (c.itemByteBudget - s.offset)) = .ok bytes ∧
      s.offset < content.length ∧ s.offset < (s.feed c.overlap bytes).offset ∧
      Fed c content (s.feed c.overlap bytes) ∧
      scanItemChunks c (d.readNext c content) (fuel + 1) s = judged c s bytes
        (scanItemChunks c (d.readNext c content) fuel (s.feed c.overlap bytes)) := by
  have hb := h.offset_le
  have hca := h.carry_le
  have hc := c.chunkSize_pos
  have hm : min c.chunkSize (c.chunkSize + c.overlap - s.carry.length) = c.chunkSize := by omega
  rw [scanItemChunks, h.consumed, hm]
  by_cases hr : c.itemByteBudget - s.offset = 0
  · obtain ⟨n, hn, hn1, he⟩ := readNext_eq d content Nat.one_pos
      (show s.offset + 1 ≤ c.itemByteBudget + 1 by omega)
    obtain rfl : n = 1 := by omega
    have ho : s.offset = c.itemByteBudget := by omega
    refine .inl ⟨ho ▸ h.fed, ?_⟩
    rw [if_pos hr, he, ho, endOf]
    cases hd : content.drop c.itemByteBudget with
    | nil => rw [if_pos (drop_eq_nil_iff.mp hd)]; rfl
    | cons b rest =>
      rw [if_neg fun hl => cons_ne_nil b rest (hd ▸ drop_eq_nil_of_le hl)]
      rfl
  · obtain ⟨n, hn, hnm, he⟩ := readNext_eq d content
      (show 0 < min c.chunkSize (c.itemByteBudget - s.offset) by omega)
      (show s.offset + _ ≤ c.itemByteBudget + 1 by omega)
    rw [if_neg hr, if_neg (by omega), he]
    dsimp only
    by_cases hl : content.length ≤ s.offset
    · refine .inl ⟨?_, ?_⟩
      · rw [h.fed, take_of_length_le hl, take_of_length_le (by omega)]
      · rw [drop_eq_nil_of_le hl, take_nil, if_pos rfl, endOf, if_pos (by omega)]
    refine .inr ⟨_, rfl, not_le.mp hl, ?_, h.feed (by omega), if_neg ?_⟩
    · simp only [State.feed, length_take, length_drop]
      omega
    intro hn0
    have := congrArg length hn0
    simp at this
    omega

theorem scan_text (d : Delivery) (h : Fed c content s) (hv : ∀ bytes, verdict c s bytes = .text)
    (hf : c.itemByteBudget - s.offset < fuel) :
    ∃ s', scanItemChunks c (d.readNext c content) fuel s = some (endOf c content, s') ∧
      s'.fed = content.take c.itemByteBudget := by
  induction fuel generalizing s with
  | zero => omega
  | succ fuel ih =>
    rcases scan_turn d h fuel with ⟨hfed, he⟩ | ⟨bytes, -, -, hlt, hfeed, he⟩
    · exact ⟨s, he, hfed⟩
    have hb := hfeed.offset_le
    rw [he, judged, hv]
    exact ih hfeed (fun _ => by simp [verdict, State.feed]) (by omega)

def Delivery.firstVerdict (d : Delivery) (c : Scan) (content : Bytes) : ContentVerdict :=
  match d.readNext c content .init (min c.chunkSize c.itemByteBudget) with
  | .ok bytes => verdict c .init bytes
  | .error _ => .text

def expected (c : Scan) (content : Bytes) (first : ContentVerdict) : ItemOutcome × Bytes :=
  if content = [] then (.scanned, [])
  else
    match first with
    | .binary => (.skippedBinary, [])
    | .binaryExtractable _ => (.skippedExtractable, [])
    | .text => (endOf c content, content.take c.itemByteBudget)

theorem scanItem_eq (c content) (d : Delivery) :
    ∃ s, scanItem c content d = some ((expected c content (d.firstVerdict c content)).1, s) ∧
      s.fed = (expected c content (d.firstVerdict c content)).2 := by
  have hb : 0 < c.itemByteBudget := by
    have hr := c.remainingBytes_pos
    rw [Scan.itemByteBudget]
    cases c.sizeHint <;> simp [hr]
  have h : Fed c content .init := ⟨rfl, Nat.zero_le _, Nat.zero_le _, take_zero.symm⟩
  rcases scan_turn d h c.itemByteBudget with ⟨hf, he⟩ | ⟨bytes, hr, hl, hlt, hf, he⟩
  · obtain rfl : content = [] := by
      cases content with
      | nil => rfl
      | cons b rest =>
        rw [take_cons hb] at hf
        cases hf
    exact ⟨.init, he, rfl⟩
  have hn : content ≠ [] := ne_nil_of_length_pos (Nat.zero_lt_of_lt hl)
  have hv : d.firstVerdict c content = verdict c .init bytes := by
    rw [Delivery.firstVerdict, ← Nat.sub_zero c.itemByteBudget]
    simp only [State.init] at hr ⊢
    rw [hr]
  unfold expected
  rw [scanItem, he, judged, hv, if_neg hn]
  cases hc : verdict c .init bytes with
  | binary | binaryExtractable format => exact ⟨_, rfl, rfl⟩
  | text =>
    exact scan_text d hf (fun _ => by simp [verdict, State.feed]) (by omega)

/-! ### What the first read shows -/

/-- How much the first read may return. -/
def Delivery.firstRead (d : Delivery) (c : Scan) : Nat :=
  min (max 1 (d.size 0)) (min c.chunkSize c.itemByteBudget)

def extractsFromText (path : Bytes) : Bool :=
  (matchExtractableFormat path).any ExtractableFormat.extractsFromText

/-- The first NUL of the content is among the bytes looked at in one first read exactly if it is in
the other, where NULs are looked for and matter. -/
def SameFirstSight (c : Scan) (content : Bytes) (a b : Delivery) : Prop :=
  c.scanBinary = false → extractsFromText c.path = false → 0 ∈ content →
    (content.idxOf 0 < min 8192 (a.firstRead c) ↔ content.idxOf 0 < min 8192 (b.firstRead c))

theorem firstVerdict_eq (d : Delivery) (c content) :
    d.firstVerdict c content = if c.scanBinary then .text
      else classifyContent (content.take (d.firstRead c)) c.path 8192 := by
  have hle : d.firstRead c ≤ c.itemByteBudget := by
    unfold Delivery.firstRead
    omega
  have hread : d.readNext c content .init (min c.chunkSize c.itemByteBudget) =
      .ok (content.take (d.firstRead c)) := by
    rw [Delivery.readNext]
    cases d.rangeRead with
    | true => rfl
    | false =>
      have htake : (content.take (c.itemByteBudget + 1)).take (d.firstRead c) =
          content.take (d.firstRead c) := by
        rw [take_take, min_eq_left (by omega)]
      exact congrArg Except.ok htake
  rw [Delivery.firstVerdict, hread]
  simp only [verdict, State.init, Bool.true_and]
  cases c.scanBinary <;> rfl

theorem isLikelyBinary_take (content : Bytes) (n : Nat) :
    isLikelyBinary (content.take n) 8192 = true ↔
      0 ∈ content ∧ content.idxOf 0 < min 8192 n := by
  rw [isLikelyBinary, contains_iff_mem, take_take]
  constructor
  · intro h
    have hm := mem_of_mem_take h
    exact ⟨hm, (mem_take_iff_idxOf_lt hm).mp h⟩
  · rintro ⟨hm, hlt⟩
    exact (mem_take_iff_idxOf_lt hm).mpr hlt

/-- A verdict that NULs decide is text or not text. -/
theorem classifyContent_eq_text_iff (data path : Bytes) (n : Nat) :
    classifyContent data path n = .text ↔
      isLikelyBinary data n = false ∧ extractsFromText path = false := by
  unfold classifyContent extractsFromText
  cases matchExtractableFormat path with
  | none => cases isLikelyBinary data n <;> simp
  | some format => cases isLikelyBinary data n <;> cases h : format.extractsFromText <;> simp [h]

theorem classifyContent_congr {data data' : Bytes} (path : Bytes) (n : Nat)
    (h : extractsFromText path = true ∨ isLikelyBinary data n = isLikelyBinary data' n) :
    classifyContent data path n = classifyContent data' path n := by
  unfold classifyContent
  rcases h with h | h
  · unfold extractsFromText at h
    cases hf : matchExtractableFormat path with
    | none => simp [hf] at h
    | some format =>
      have ht : format.extractsFromText = true := by simpa [hf] using h
      simp [ht]
  · rw [h]

theorem SameFirstSight.verdicts (h : SameFirstSight c content a b) :
    a.firstVerdict c content = b.firstVerdict c content := by
  rw [firstVerdict_eq, firstVerdict_eq]
  cases hb : c.scanBinary with
  | true => rfl
  | false =>
    refine classifyContent_congr _ _ ?_
    cases ht : extractsFromText c.path with
    | true => exact .inl rfl
    | false =>
      right
      rw [Bool.eq_iff_iff, isLikelyBinary_take, isLikelyBinary_take]
      exact and_congr_right fun hm => h hb ht hm

theorem sameFirstSight_iff_text :
    SameFirstSight c content a b ↔
      (a.firstVerdict c content = .text ↔ b.firstVerdict c content = .text) := by
  refine ⟨fun h => by rw [h.verdicts], fun h hb ht hm => ?_⟩
  rw [firstVerdict_eq, firstVerdict_eq, hb, if_neg Bool.false_ne_true, if_neg Bool.false_ne_true,
    classifyContent_eq_text_iff, classifyContent_eq_text_iff] at h
  simp only [ht, and_true, ← Bool.not_eq_true, isLikelyBinary_take, hm, true_and] at h
  exact not_iff_not.mp h

/-- The outcome tells whether the first verdict was text. -/
theorem expected_text_iff (hn : content ≠ []) :
    (expected c content first).1 = endOf c content ↔ first = .text := by
  unfold expected
  rw [if_neg hn]
  cases first with
  | text => simp
  | binary | binaryExtractable format =>
    simp only [reduceCtorEq, iff_false, endOf]
    split <;> simp

/-- **One item, however it arrives.** Two sources of the same content give the same outcome and feed
the engine the same bytes exactly if the first NUL is seen in both first reads or in neither, or
does not matter. -/
theorem outcome_of_arrival_iff (c content) (a b : Delivery) :
    (∃ outcome sa sb, scanItem c content a = some (outcome, sa) ∧
      scanItem c content b = some (outcome, sb) ∧ sa.fed = sb.fed) ↔
      SameFirstSight c content a b := by
  obtain ⟨sa, ha, hfa⟩ := scanItem_eq c content a
  obtain ⟨sb, hb, hfb⟩ := scanItem_eq c content b
  constructor
  · rintro ⟨outcome, _, _, ha', hb', -⟩
    have heq : (expected c content (a.firstVerdict c content)).1 =
        (expected c content (b.firstVerdict c content)).1 := by
      have hoa := congrArg Prod.fst (Option.some.inj (ha.symm.trans ha'))
      have hob := congrArg Prod.fst (Option.some.inj (hb.symm.trans hb'))
      exact hoa.trans hob.symm
    rcases eq_or_ne content [] with rfl | hn
    · exact fun _ _ hm => absurd hm not_mem_nil
    · rw [sameFirstSight_iff_text, ← expected_text_iff hn, ← expected_text_iff hn, heq]
  · intro h
    rw [h.verdicts] at ha hfa
    exact ⟨_, sa, sb, ha, hb, hfa.trans hfb.symm⟩

def fourByteScan : Scan := ⟨[120], none, 9, 4, 1, false, by decide, by decide⟩

/-- A NUL in the second chunk, read at once or byte by byte, is seen by neither first read. -/
theorem outcome_of_arrival_text : ∃ outcome sa sb,
    scanItem fourByteScan [97, 98, 99, 100, 0] ⟨true, fun _ => 9⟩ = some (outcome, sa) ∧
    scanItem fourByteScan [97, 98, 99, 100, 0] ⟨false, fun _ => 1⟩ = some (outcome, sb) ∧
    sa.fed = sb.fed :=
  (outcome_of_arrival_iff _ _ _ _).mpr (fun _ _ _ => by decide)

/-- Two bytes that arrive at once or one by one. -/
theorem short_read_hides_binary :
    (scanItem fourByteScan [97, 0] ⟨true, fun _ => 2⟩).map (·.1) = some .skippedBinary ∧
      (scanItem fourByteScan [97, 0] ⟨true, fun _ => 1⟩).map (·.1) = some .scanned := by
  decide

end GossipRs.Runtime.ItemScan
