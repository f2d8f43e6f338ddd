import GossipRs.Lib.Word

/-! The text extractor for compiled Python (`content_policy/pyc.rs`). It sweeps over the marshalled
code object without following its nesting and meets the objects in order, except that it takes a
first line number, four raw bytes, for objects: it may pass over them, stop at them, or go
astray. -/

namespace GossipRs.Engine.Pyc

open Lib List

inductive ExtractResult where
  | ok
  | empty
  | parseError
deriving DecidableEq

inductive Kind where
  /-- Emit a text behind its length of `width` bytes. -/
  | text (width : Nat)
  | skip (n : Nat)
  | need (n : Nat)
  | float
  | complex
  | long
deriving DecidableEq

/-- The arms of the match, with `FLAG_REF` masked off. -/
def kind (rawType : UInt8) : Option Kind :=
  match Char.ofNat (rawType &&& 0x7F).toNat with
  | 's' | 'u' | 't' | 'a' | 'A' => some (.text 4)
  | 'z' | 'Z' => some (.text 1)
  | '0' | 'N' | 'F' | 'T' | 'S' | '.' | '\x7b' => some (.skip 0)
  | 'i' | 'r' | '(' | '[' | '<' | '>' => some (.skip 4)
  | 'g' => some (.skip 8)
  | 'y' => some (.skip 16)
  | 'f' => some .float
  | 'x' => some .complex
  | 'l' => some .long
  | ')' => some (.need 1)
  | 'c' => some (.need 24)
  | _ => none

def takeSized (width : Nat) (data : Bytes) : Option (Bytes × Bytes) :=
  let len := ofLeBytes (data.take width)
  if data.length < width + len then none
  else some ((data.drop width).take len, data.drop (width + len))

/-- `i32::unsigned_abs` on the bits of the number. -/
def unsignedAbs (bits : Nat) : Nat := if bits < 2 ^ 31 then bits else 2 ^ 32 - bits

/-- One turn of the loop behind the type byte: the text found and the rest, unless it breaks off. -/
def turn (rawType : UInt8) (data : Bytes) : Option (Bytes × Bytes) :=
  match kind rawType with
  | none => none
  | some (.text width) => takeSized width data
  | some (.skip n) => some ([], data.drop n)
  | some (.need n) => if data.length < n then none else some ([], data.drop n)
  | some .float => (takeSized 1 data).map fun part => ([], part.2)
  | some .complex =>
    (takeSized 1 data).bind fun part => (takeSized 1 part.2).map fun part => ([], part.2)
  | some .long =>
    let byteLen := unsignedAbs (ofLeBytes (data.take 4)) * 2
    if data.length < 4 + byteLen then none else some ([], data.drop (4 + byteLen))

def line (text : Bytes) : Bytes := if text = [] then [] else text ++ [10]

def sweep : Nat → Bytes → Bytes → Bytes
  | fuel + 1, rawType :: data, out =>
    match turn rawType data with
    | none => out
    | some (text, data) => sweep fuel data (out ++ line text)
  | _, _, out => out

def extract (data out : Bytes) : ExtractResult × Bytes :=
  if data.length < 12 then (.parseError, out)
  else if data[2]? ≠ some 13 ∨ data[3]? ≠ some 10 then (.parseError, out)
  else
    let headerSize := if ofLeBytes (data.take 2) < 3390 then 12 else 16
    if data.length < headerSize then (.parseError, out)
    else
      let out' := sweep data.length (data.drop headerSize) out
      (if out'.length = out.length then .empty else .ok, out')

/-! ### The format -/

def textTags : List (Char × Nat) :=
  [('s', 4), ('u', 4), ('t', 4), ('a', 4), ('A', 4), ('z', 1), ('Z', 1)]

def fixedTags : List (Char × Nat) :=
  [('N', 0), ('F', 0), ('T', 0), ('S', 0), ('.', 0), ('i', 4), ('r', 4), ('g', 8), ('y', 16)]

def groupTags : List (Char × Nat) := [(')', 1), ('(', 4), ('[', 4), ('<', 4), ('>', 4)]

inductive Leaf : Char → Bytes → Bytes → Prop where
  | text (h : t ∈ textTags) (hb : bytes.length < 256 ^ t.2) :
    Leaf t.1 (leBytes t.2 bytes.length ++ bytes) bytes
  | fixed (h : t ∈ fixedTags) (hb : bytes.length = t.2) : Leaf t.1 bytes []
  | float (h : a.length < 256) : Leaf 'f' (leBytes 1 a.length ++ a) []
  | complex (ha : a.length < 256) (hb : b.length < 256) :
    Leaf 'x' (leBytes 1 a.length ++ (a ++ (leBytes 1 b.length ++ b))) []
  | long (hn : n < 2 ^ 31) (hb : bits = n ∨ 0 < n ∧ bits = 2 ^ 32 - n)
      (h : digits.length = n * 2) : Leaf 'l' (leBytes 4 bits ++ digits) []

/-- The type byte, with `FLAG_REF` if the object may be referred to. -/
def typeByte (flag : Bool) (tag : Char) : UInt8 :=
  UInt8.ofNat tag.toNat ||| if flag then 0x80 else 0

/-- What a value holds that matters to a sweep, in order of occurrence. -/
inductive Token where
  | text (bytes : Bytes)
  | firstLine (n : Nat)

/-- `n` objects one after the other, with the texts and the first line numbers in them. A code
object holds six numbers, the objects from code to name, the line number and the line table. -/
inductive Objects : Nat → Bytes → List Token → Prop where
  | nil : Objects 0 [] []
  | leaf (flag : Bool) (h : Leaf tag body text) (hr : Objects n rest tokens) :
    Objects (n + 1) (typeByte flag tag :: (body ++ rest)) (.text text :: tokens)
  | group (flag : Bool) (ht : t ∈ groupTags) (h : Objects m items held)
      (hr : Objects n rest tokens) :
    Objects (n + 1) (typeByte flag t.1 :: (leBytes t.2 m ++ (items ++ rest))) (held ++ tokens)
  | dict (flag : Bool) (h : Objects (2 * m) entries held) (hr : Objects n rest tokens) :
    Objects (n + 1) (typeByte flag '\x7b' :: (entries ++ typeByte false '0' :: rest))
      (held ++ tokens)
  | code (flag : Bool) (hn : numbers.length = 24) (h : Objects 8 fields held)
      (ht : Objects 1 lnotab table) (hr : Objects n rest tokens) :
    Objects (n + 1)
      (typeByte flag 'c' :: (numbers ++ (fields ++ (leBytes 4 firstLine ++ (lnotab ++ rest)))))
      (held ++ (.firstLine firstLine :: (table ++ tokens)))

def texts : List Token → List Bytes
  | [] => []
  | .text bytes :: tokens => bytes :: texts tokens
  | .firstLine _ :: tokens => texts tokens

/-! ### What a sweep makes of a line number -/

/-- Complete objects without text lead from the first bytes to the second. -/
inductive Blanks : Bytes → Bytes → Prop where
  | refl : Blanks bytes bytes
  | turn {b : UInt8} {body : Bytes} (h : ∀ more, turn b (body ++ more) = some ([], more))
      (hr : Blanks rest last) : Blanks (b :: (body ++ rest)) last

/-- The four bytes are complete objects without text. -/
def PassesOver (firstLine : Nat) : Prop := Blanks (leBytes 4 firstLine) []

/-- After such objects, one of the four bytes is no type code. -/
def StopsAt (firstLine : Nat) : Prop :=
  ∃ b rest, Blanks (leBytes 4 firstLine) (b :: rest) ∧ kind b = none

/-- The sweep passes over the line numbers, up to the end or up to one that stops it. -/
def Settled : List Token → Prop
  | [] => True
  | .text _ :: tokens => Settled tokens
  | .firstLine n :: tokens => PassesOver n ∧ Settled tokens ∨ StopsAt n

/-- Besides, no text that is not empty comes after a number that stops the sweep. -/
def Clear : List Token → Prop
  | [] => True
  | .text _ :: tokens => Clear tokens
  | .firstLine n :: tokens => PassesOver n ∧ Clear tokens ∨ StopsAt n ∧ ∀ t ∈ texts tokens, t = []

/-! ### The sweep over objects -/

theorem kind_text : ∀ tag ∈ textTags, ∀ flag, kind (typeByte flag tag.1) = some (.text tag.2) := by
  decide

theorem kind_fixed : ∀ tag ∈ fixedTags, ∀ flag, kind (typeByte flag tag.1) =
    some (.skip tag.2) := by
  decide

theorem kind_group : ∀ tag ∈ groupTags, ∀ flag, kind (typeByte flag tag.1) = some (.skip tag.2) ∨
    kind (typeByte flag tag.1) = some (.need tag.2) := by
  decide

theorem kind_single : ∀ flag, kind (typeByte flag 'f') = some .float ∧
    kind (typeByte flag 'x') = some .complex ∧ kind (typeByte flag 'l') = some .long ∧
    kind (typeByte flag '\x7b') = some (.skip 0) ∧ kind (typeByte flag '0') = some (.skip 0) ∧
    kind (typeByte flag 'c') = some (.need 24) := by
  decide

theorem takeSized_append (width) (h : bytes.length < 256 ^ width) (rest) :
    takeSized width (leBytes width bytes.length ++ (bytes ++ rest)) = some (bytes, rest) := by
  simp [takeSized, drop_append, ofLeBytes_leBytes h]

theorem turn_leaf (flag) (h : Leaf tag body text) (rest) :
    turn (typeByte flag tag) (body ++ rest) = some (text, rest) := by
  obtain ⟨hf, hx, hl, -⟩ := kind_single flag
  cases h with
  | text h hb => simp [turn, kind_text _ h, takeSized_append _ hb]
  | fixed h hb => simp [turn, kind_fixed _ h, ← hb]
  | float h => simp [turn, hf, takeSized_append 1 h]
  | complex ha hb => simp [turn, hx, takeSized_append 1 ha, takeSized_append 1 hb]
  | @long n bits digits hn hb h =>
    have hw : ofLeBytes (leBytes 4 bits) = bits := ofLeBytes_leBytes (by omega)
    have ha : unsignedAbs bits = n := by
      unfold unsignedAbs
      split <;> omega
    simp [turn, hl, drop_append, hw, ha, h]

theorem turn_group (flag) (h : tag ∈ groupTags) (m rest) :
    turn (typeByte flag tag.1) (leBytes tag.2 m ++ rest) = some ([], rest) := by
  rcases kind_group tag h flag with hk | hk
  · simp [turn, hk]
  · simp [turn, hk]

theorem turn_code (flag) (h : numbers.length = 24) (rest) :
    turn (typeByte flag 'c') (numbers ++ rest) = some ([], rest) := by
  simp [turn, kind_single flag, h]

/-- A sweep that has enough fuel for `data` emits `text` on its way to `rest`. -/
def Sweeps (data rest text : Bytes) : Prop :=
  ∀ fuel out, data.length ≤ fuel →
    ∃ fuel', rest.length ≤ fuel' ∧ sweep fuel data out = sweep fuel' rest (out ++ text)

theorem Sweeps.trans (h1 : Sweeps a b x) (h2 : Sweeps b c y) : Sweeps a c (x ++ y) := by
  intro fuel out hf
  obtain ⟨fuel1, hf1, he1⟩ := h1 fuel out hf
  obtain ⟨fuel2, hf2, he2⟩ := h2 fuel1 (out ++ x) hf1
  exact ⟨fuel2, hf2, by rw [he1, he2, append_assoc]⟩

theorem Sweeps.turn {body} (h : turn rawType (body ++ rest) = some (text, rest)) :
    Sweeps (rawType :: (body ++ rest)) rest (line text) := by
  intro fuel out hf
  cases fuel with
  | zero => cases hf
  | succ fuel =>
    refine ⟨fuel, ?_, by rw [sweep, h]⟩
    simp at hf
    omega

theorem Sweeps.refl (rest : Bytes) : Sweeps rest rest [] :=
  fun fuel out hf => ⟨fuel, hf, by rw [append_nil]⟩

theorem Blanks.sweeps (h : Blanks bytes last) (rest : Bytes) :
    Sweeps (bytes ++ rest) (last ++ rest) [] := by
  induction h with
  | refl => exact .refl _
  | turn h _ ih =>
    rw [cons_append, append_assoc]
    exact (Sweeps.turn (h _)).trans ih

theorem Sweeps.skip (h : kind b = some (.skip 0)) (rest : Bytes) : Sweeps (b :: rest) rest [] := by
  have ht : Pyc.turn b ([] ++ rest) = some ([], rest) := by simp [Pyc.turn, h]
  exact Sweeps.turn ht

/-- A sweep of `data` to its end emits `text`. -/
def Emits (data text : Bytes) : Prop :=
  ∀ fuel out, data.length ≤ fuel → sweep fuel data out = out ++ text

theorem Sweeps.emits (h : Sweeps a b x) (hb : Emits b y) : Emits a (x ++ y) := by
  intro fuel out hf
  obtain ⟨fuel', hf', he⟩ := h fuel out hf
  rw [he, hb fuel' _ hf', append_assoc]

theorem emits_nil : Emits [] [] := by
  intro fuel out _
  cases fuel <;> exact (append_nil out).symm

theorem emits_unknown (h : kind b = none) (rest : Bytes) : Emits (b :: rest) [] := by
  intro fuel out hf
  cases fuel with
  | zero => cases hf
  | succ fuel => rw [sweep, turn, h, append_nil]

theorem StopsAt.emits (h : StopsAt n) (rest : Bytes) : Emits (leBytes 4 n ++ rest) [] := by
  obtain ⟨b, last, hb, hk⟩ := h
  exact (hb.sweeps rest).emits (emits_unknown hk _)

theorem PassesOver.emits (h : PassesOver n) (hr : Emits rest text) :
    Emits (leBytes 4 n ++ rest) text :=
  (Blanks.sweeps h rest).emits hr

/-- No number is both: a string after it would be emitted and not be emitted. -/
theorem PassesOver.not_stopsAt (h : PassesOver n) : ¬ StopsAt n := by
  intro hs
  have ht : turn 122 ([1, 107] ++ []) = some ([107], []) := by decide
  have hk : Emits [122, 1, 107] [107, 10] := (Sweeps.turn ht).emits emits_nil
  have h1 := h.emits hk _ [] le_rfl
  rw [hs.emits _ _ [] le_rfl] at h1
  cases h1

open Classical in
/-- The lines that a sweep over these tokens emits. -/
noncomputable def emitted : List Token → Bytes
  | [] => []
  | .text bytes :: tokens => line bytes ++ emitted tokens
  | .firstLine n :: tokens => if StopsAt n then [] else emitted tokens

/-- The sweep of objects before anything whose sweep is known. -/
theorem emits_objects (h : Objects n data tokens)
    (hr : Settled later → Emits rest (emitted later)) (hs : Settled (tokens ++ later)) :
    Emits (data ++ rest) (emitted (tokens ++ later)) := by
  induction h generalizing rest later with
  | nil => exact hr hs
  | leaf flag h _ ih =>
    rw [cons_append, append_assoc]
    exact (Sweeps.turn (turn_leaf flag h _)).emits (ih hr hs)
  | group flag ht _ _ ihi ihr =>
    rw [append_assoc] at hs ⊢
    rw [cons_append, append_assoc, append_assoc]
    exact (Sweeps.turn (turn_group flag ht _ _)).emits (ihi (fun hs => ihr hr hs) hs)
  | dict flag _ _ ihe ihr =>
    rw [append_assoc] at hs ⊢
    rw [cons_append, append_assoc, cons_append]
    have hopen := (kind_single flag).2.2.2.1
    have hend := (kind_single false).2.2.2.2.1
    refine (Sweeps.skip hopen _).emits (ihe (fun hs => ?_) hs)
    exact (Sweeps.skip hend _).emits (ihr hr hs)
  | code flag hn _ _ _ ihf iht ihr =>
    simp only [append_assoc, cons_append] at hs ⊢
    refine (Sweeps.turn (turn_code flag hn _)).emits (ihf (fun hs => ?_) hs)
    rw [emitted]
    rcases hs with ⟨hover, hs⟩ | hstop
    · rw [if_neg hover.not_stopsAt]
      exact hover.emits (iht (fun hs => ihr hr hs) hs)
    · rw [if_pos hstop]
      exact hstop.emits _

theorem line_eq_nil_iff : line text = [] ↔ text = [] := by
  unfold line
  split <;> simp_all

theorem Clear.settled (h : Clear tokens) : Settled tokens := by
  induction tokens with
  | nil => trivial
  | cons token tokens ih =>
    cases token with
    | text bytes => exact ih h
    | firstLine n => exact h.imp (And.imp_right ih) And.left

theorem emitted_eq_iff (hs : Settled tokens) :
    emitted tokens = (texts tokens).flatMap line ↔ Clear tokens := by
  induction tokens with
  | nil => exact ⟨fun _ => trivial, fun _ => rfl⟩
  | cons token tokens ih =>
    cases token with
    | text bytes =>
      rw [emitted, texts, flatMap_cons, append_cancel_left_eq]
      exact ih hs
    | firstLine n =>
      rw [emitted, texts, Clear]
      rcases hs with ⟨hover, hs⟩ | hstop
      · have hno := hover.not_stopsAt
        rw [if_neg hno, ih hs]
        simp [hover, hno]
      · have hno : ¬ PassesOver n := fun hover => hover.not_stopsAt hstop
        rw [if_pos hstop, eq_comm, flatMap_eq_nil_iff]
        simp [hstop, hno, line_eq_nil_iff]

theorem flatMap_line (l : List Bytes) :
    l.flatMap line = (l.filter (· ≠ [])).flatMap (· ++ [10]) := by
  induction l with
  | nil => rfl
  | cons text l ih =>
    rw [flatMap_cons, ih, line]
    by_cases h : text = []
    · simp [h]
    · simp [h]

structure Header where
  bytes : Bytes
  length : bytes.length = 16
  cr : bytes[2]? = some 13
  lf : bytes[3]? = some 10
  magic : 3390 ≤ ofLeBytes (bytes.take 2)

/-- What the extractor should return for a value that holds these texts. -/
def expected (found : List Bytes) (out : Bytes) : ExtractResult × Bytes :=
  (if found.filter (· ≠ []) = [] then .empty else .ok,
    out ++ (found.filter (· ≠ [])).flatMap (· ++ [10]))

theorem extract_eq (header : Header) (h : Objects 1 data tokens) (hs : Settled tokens) (out) :
    extract (header.bytes ++ data) out =
      (if emitted tokens = [] then .empty else .ok, out ++ emitted tokens) := by
  have hl := header.length
  have hsweep : sweep (header.bytes ++ data).length data out = out ++ emitted tokens := by
    have hem := emits_objects h (fun _ => emits_nil) (by rwa [append_nil])
    rw [append_nil, append_nil] at hem
    exact hem _ out (by simp)
  have h2 : (header.bytes ++ data)[2]? = some 13 := by
    rw [getElem?_append_left (by omega), header.cr]
  have h3 : (header.bytes ++ data)[3]? = some 10 := by
    rw [getElem?_append_left (by omega), header.lf]
  have hn : 16 ≤ (header.bytes ++ data).length := by simp [hl]
  rw [extract, if_neg (by omega), if_neg (by simp [h2, h3]), take_append_of_le_length (by omega),
    if_neg (not_lt.mpr header.magic)]
  dsimp only
  rw [if_neg (not_lt.mpr hn), drop_left' hl, hsweep]
  simp

/-- **Extraction.** Every non-empty string is emitted as a line, in order, and nothing else, if the
first line numbers are clear. If none leads the sweep astray, this is also necessary. -/
theorem extract_complete (header : Header) (h : Objects 1 data tokens) (out) :
    (Clear tokens → extract (header.bytes ++ data) out = expected (texts tokens) out) ∧
    (Settled tokens → extract (header.bytes ++ data) out = expected (texts tokens) out →
      Clear tokens) := by
  constructor
  · intro hclear
    rw [extract_eq header h hclear.settled, (emitted_eq_iff hclear.settled).mpr hclear,
      flatMap_line, expected]
    cases (texts tokens).filter (· ≠ []) with
    | nil => rfl
    | cons text found => simp
  · intro hs heq
    rw [extract_eq header h hs, expected, ← flatMap_line] at heq
    exact (emitted_eq_iff hs).mp (append_cancel_left (congrArg Prod.snd heq))

/-- The header of Python 3.8, without time and size. -/
def header38 : Header := ⟨[0x55, 0x0D, 13, 10] ++ replicate 12 0, rfl, rfl, rfl, by decide⟩

def codeAt (firstLine : Nat) : Bytes :=
  99 :: (replicate 24 0 ++ ((replicate 8 [41, 0]).flatten ++
    (leBytes 4 firstLine ++ [122, 1, 107])))

theorem objects_codeAt (firstLine) :
    Objects 1 (codeAt firstLine) [.firstLine firstLine, .text [107]] := by
  have hn : ∀ n, Objects n (replicate n [41, 0]).flatten [] := by
    intro n
    induction n with
    | zero => exact .nil
    | succ n ih => exact .group (t := (')', 1)) false (by decide) .nil ih
  have ht : Objects 1 [122, 1, 107] [.text [107]] :=
    .leaf false (@Leaf.text ('z', 1) [107] (by decide) (by decide)) .nil
  exact .code false rfl (hn 8) ht .nil

theorem turn_emptyTuple (more : Bytes) : turn 41 ([0] ++ more) = some ([], more) :=
  turn_group false (show (')', 1) ∈ groupTags by decide) 0 more

/-- A line number that reads as an empty tuple and two times `None`. -/
theorem extract_complete_passes :
    extract (header38.bytes ++ codeAt 0x4e4e0029) [] = (.ok, [107, 10]) ∧
    ¬ extract (header38.bytes ++ codeAt 1) [] = expected [[107]] [] := by
  have hnone : ∀ more, turn 78 ([] ++ more) = some ([], more) := fun _ => rfl
  constructor
  · refine (extract_complete header38 (objects_codeAt _) []).1 (.inl ⟨?_, trivial⟩)
    have htail : Blanks ([78, 78] : Bytes) [] := .turn hnone (.turn hnone .refl)
    exact Blanks.turn turn_emptyTuple htail
  · intro heq
    have hstop : StopsAt 1 := ⟨1, [0, 0, 0], .refl, rfl⟩
    rcases (extract_complete header38 (objects_codeAt 1) []).2 (.inr hstop) heq with
      ⟨hover, -⟩ | ⟨-, hall⟩
    · exact hover.not_stopsAt hstop
    · exact absurd (hall [107] mem_cons_self) (by decide)

/-- The line number 378 reads as a string of one zero byte, and then ends the sweep: a line that is
in no string comes out, and the line table does not. -/
theorem first_line_emits_garbage :
    Objects 1 (codeAt 378) [.firstLine 378, .text [107]] ∧
      extract (header38.bytes ++ codeAt 378) [] = (.ok, [0, 10]) ∧
      expected (texts [.firstLine 378, .text [107]]) [] = (.ok, [107, 10]) :=
  ⟨objects_codeAt _, by decide, by decide⟩

end GossipRs.Engine.Pyc
