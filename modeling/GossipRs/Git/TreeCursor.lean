import GossipRs.Git.BlobIntro

/-! Tree payloads and the two cursors over them (`tree_entry.rs`, `tree_stream.rs`, `tree_diff.rs`):
one holds the payload, the other reads it through a fixed buffer. On a well-formed payload both walk
the same entries. -/

namespace GossipRs.Git

open Lib List

/-! ### Parsing an entry -/

def modeDigit (mode : Nat) (b : UInt8) : Option Nat :=
  if 48 ≤ b.toNat ∧ b.toNat ≤ 55 then some (mode * 8 + (b.toNat - 48)) else none

def parseOctalMode (bytes : Bytes) : Option Nat :=
  if bytes = [] ∨ 7 < bytes.length then none else bytes.foldlM modeDigit 0

/-- `classify_mode`, by the type bits of the mode. -/
def classifyMode (mode : Nat) : EntryKind :=
  match mode / 0o10000 % 0o20 with
  | 0o04 => .tree
  | 0o12 => .symlink
  | 0o16 => .gitlink
  | 0o10 => if mode / 0o100 % 2 = 1 then .executableFile else .regularFile
  | _ => .unknown

inductive ParseStage where
  | mode
  | name
  | oid
deriving DecidableEq

def ParseStage.errorDetail : ParseStage → String
  | .mode => "unexpected end while parsing mode"
  | .name => "unexpected end while parsing name"
  | .oid => "unexpected end while parsing OID"

inductive ParseOutcome where
  | complete (entry : TreeEntry) (entryLen : Nat)
  | incomplete (stage : ParseStage)
deriving DecidableEq

def OidBytes.tryFromSlice (bytes : Bytes) : Option OidBytes :=
  if h : bytes.length = 20 ∨ bytes.length = 32 then some ⟨bytes, h⟩ else none

def finishEntry (oidLen : Nat) (mode name oid : Bytes) : Except TreeDiffError ParseOutcome :=
  match parseOctalMode mode with
  | none => .error (.corruptTree "invalid mode digits")
  | some m =>
    if name = [] then .error (.corruptTree "empty entry name")
    else if slash ∈ name then .error (.corruptTree "entry name contains slash")
    else if oid.length < oidLen then .ok (.incomplete .oid)
    else
      match OidBytes.tryFromSlice (oid.take oidLen) with
      | none => .error (.invalidOidLength oidLen oidLen)
      | some id =>
        .ok (.complete ⟨name, classifyMode m, m, id⟩ (mode.length + 1 + name.length + 1 + oidLen))

/-- `parse_entry`: the mode up to a space, checked as soon as it is complete, the name up to a zero
byte, the id. -/
def parseEntry (oidLen : Nat) (data : Bytes) : Except TreeDiffError ParseOutcome :=
  let mode := data.takeWhile (· != 32)
  match data.dropWhile (· != 32) with
  | [] => .ok (.incomplete .mode)
  | _ :: afterSpace =>
    let name := afterSpace.takeWhile (· != 0)
    match afterSpace.dropWhile (· != 0) with
    | [] =>
      if (parseOctalMode mode).isNone then .error (.corruptTree "invalid mode digits")
      else .ok (.incomplete .name)
    | _ :: afterNul => finishEntry oidLen mode name afterNul

/-! ### Cursors -/

def treeStreamBufBytes : Nat := 16 * 1024

/-- A cursor. The buffered one has the payload from its position on. The streaming one has the
unconsumed window of its buffer, what the reader still holds, and whether the reader has reported
the end; unconsumed bytes are moved to the front before each read. -/
inductive TreeCursor where
  | buffered (rest : Bytes)
  | stream (window unread : Bytes) (eof : Bool)

/-- `peek_entry` of the stream: the next entry, its length, and the cursor with the bytes it read.
Every round but the last refills the buffer (`fill`). -/
def peekStream (oidLen : Nat) : Nat → Bytes → Bytes → Bool →
    Except TreeDiffError (Option (TreeEntry × Nat) × TreeCursor)
  | 0, window, unread, eof => .ok (none, .stream window unread eof)
  | fuel + 1, window, unread, eof =>
    if window = [] ∧ eof then .ok (none, .stream window unread eof)
    else if window = [] ∧ unread = [] then .ok (none, .stream window unread true)
    else if window = [] then
      peekStream oidLen fuel (unread.take treeStreamBufBytes) (unread.drop treeStreamBufBytes) false
    else
      match parseEntry oidLen window with
      | .error err => .error err
      | .ok (.complete e len) => .ok (some (e, len), .stream window unread eof)
      | .ok (.incomplete stage) =>
        if eof then .error (.corruptTree stage.errorDetail)
        else if window.length = treeStreamBufBytes then
          .error (.corruptTree "tree entry exceeds stream buffer")
        else
          let n := min (treeStreamBufBytes - window.length) unread.length
          peekStream oidLen fuel (window ++ unread.take n) (unread.drop n) (n == 0)

def TreeCursor.peekEntry (oidLen : Nat) :
    TreeCursor → Except TreeDiffError (Option (TreeEntry × Nat) × TreeCursor)
  | .buffered rest =>
    if rest = [] then .ok (none, .buffered rest)
    else
      match parseEntry oidLen rest with
      | .error err => .error err
      | .ok (.complete e len) => .ok (some (e, len), .buffered rest)
      | .ok (.incomplete stage) => .error (.corruptTree stage.errorDetail)
  | .stream window unread eof => peekStream oidLen (unread.length + 3) window unread eof

/-- `advance`, past the entry that was peeked. -/
def TreeCursor.advance : TreeCursor → Nat → TreeCursor
  | .buffered rest, len => .buffered (rest.drop len)
  | .stream window unread eof, len => .stream (window.drop len) unread eof

structure TreeBytes where
  data : Bytes
  spilled : Bool

def TreeBytes.inFlightLen (bytes : TreeBytes) : Nat :=
  if bytes.spilled then 0 else bytes.data.length

def TreeCursor.new (bytes : TreeBytes) (streamThreshold : Nat) : TreeCursor :=
  if streamThreshold ≤ bytes.data.length ∨ bytes.spilled then .stream [] bytes.data false
  else .buffered bytes.data

/-! ### Well-formed payloads -/

/-- The payload is a sequence of entries, none longer than the stream buffer. -/
inductive ParsesTo (oidLen : Nat) : Bytes → List TreeEntry → Prop
  | nil : ParsesTo oidLen [] []
  | cons {data : Bytes} {e : TreeEntry} {len : Nat} {entries : List TreeEntry} :
      parseEntry oidLen data = .ok (.complete e len) → len ≤ treeStreamBufBytes →
      ParsesTo oidLen (data.drop len) entries → ParsesTo oidLen data (e :: entries)

def TreeCursor.At (oidLen : Nat) (entries : List TreeEntry) : TreeCursor → Prop
  | .buffered rest => ParsesTo oidLen rest entries
  | .stream window unread eof => ParsesTo oidLen (window ++ unread) entries ∧
      window.length ≤ treeStreamBufBytes ∧ (eof = true → unread = [])

variable {oidLen : Nat} {e : TreeEntry}

theorem eq_append_of_dropWhile {c : UInt8} (h : data.dropWhile (· != c) = x :: rest) :
    data = data.takeWhile (· != c) ++ c :: rest ∧
      ∀ b ∈ data.takeWhile (· != c), (b != c) = true := by
  have hx := head_dropWhile_not (· != c) (by rw [h]; exact cons_ne_nil _ _)
  have hxc : x = c := by simpa only [h, head_cons, bne_eq_false_iff_eq] using hx
  refine ⟨?_, fun b hb => ?_⟩
  · rw [hxc] at h
    rw [← h, takeWhile_append_dropWhile]
  · have hb' := mem_takeWhile_imp hb
    exact hb'

theorem parseEntry_complete (h : parseEntry oidLen data = .ok (.complete e len)) :
    ∃ mode name oid rest, data = mode ++ 32 :: (name ++ 0 :: (oid ++ rest)) ∧
      (∀ b ∈ mode, (b != 32) = true) ∧ (∀ b ∈ name, (b != 0) = true) ∧ oid.length = oidLen ∧
      len = mode.length + 1 + name.length + 1 + oidLen ∧
      finishEntry oidLen mode name oid = .ok (.complete e len) := by
  rw [parseEntry] at h
  cases hd : data.dropWhile (· != 32) with
  | nil =>
    rw [hd] at h
    cases h
  | cons sp afterSpace =>
    obtain ⟨hmo, hma⟩ := eq_append_of_dropWhile hd
    rw [hd] at h
    dsimp only at h
    generalize data.takeWhile (· != 32) = mode at h hmo hma
    cases hd' : afterSpace.dropWhile (· != 0) with
    | nil =>
      rw [hd'] at h
      dsimp only at h
      split at h <;> cases h
    | cons z afterNul =>
      obtain ⟨hn, hna⟩ := eq_append_of_dropWhile hd'
      rw [hd'] at h
      dsimp only at h
      generalize afterSpace.takeWhile (· != 0) = name at h hn hna
      rw [finishEntry] at h
      split at h
      · cases h
      split at h
      · cases h
      split at h
      · cases h
      split at h
      · cases h
      next m hm he hs hl =>
        split at h
        · cases h
        next id hid =>
          obtain ⟨rfl, rfl⟩ := ParseOutcome.complete.inj (Except.ok.inj h)
          refine ⟨mode, name, afterNul.take oidLen, afterNul.drop oidLen, ?_, hma,
            hna, ?_, rfl, ?_⟩
          · rw [take_append_drop, hmo, hn]
          · rw [length_take]
            omega
          have ht : (afterNul.take oidLen).length = oidLen := by
            rw [length_take]
            omega
          rw [finishEntry, hm]
          dsimp only
          rw [if_neg he, if_neg hs, if_neg (by omega), take_take, Nat.min_self, hid]

theorem parseEntry_append {mode name tail : Bytes} (hm : ∀ b ∈ mode, (b != 32) = true)
    (hn : ∀ b ∈ name, (b != 0) = true) :
    parseEntry oidLen (mode ++ 32 :: (name ++ 0 :: tail)) = finishEntry oidLen mode name tail := by
  have h1 : (mode ++ 32 :: (name ++ 0 :: tail)).takeWhile (· != 32) = mode := by
    rw [takeWhile_append_of_pos hm]
    simp
  have h2 : (mode ++ 32 :: (name ++ 0 :: tail)).dropWhile (· != 32) =
    32 :: (name ++ 0 :: tail) := by
    rw [dropWhile_append_of_pos hm]
    simp
  have h3 : (name ++ 0 :: tail).takeWhile (· != (0 : UInt8)) = name := by
    rw [takeWhile_append_of_pos hn]
    simp
  have h4 : (name ++ 0 :: tail).dropWhile (· != (0 : UInt8)) = 0 :: tail := by
    rw [dropWhile_append_of_pos hn]
    simp
  rw [parseEntry, h1, h2]
  dsimp only
  rw [h3, h4]

theorem finishEntry_complete (h : finishEntry oidLen mode name oid = .ok (.complete e len)) :
    (∃ m, parseOctalMode mode = some m) ∧ name ≠ [] ∧ slash ∉ name ∧
      e.name = name ∧ ∀ more, finishEntry oidLen mode name (oid ++ more) =
        .ok (.complete e len) := by
  rw [finishEntry] at h
  split at h
  · cases h
  next m hm =>
    split at h
    · cases h
    next he =>
      split at h
      · cases h
      next hs =>
        split at h
        · cases h
        split at h
        · cases h
        next id hid =>
          obtain ⟨rfl, rfl⟩ := ParseOutcome.complete.inj (Except.ok.inj h)
          refine ⟨⟨m, hm⟩, he, hs, rfl, fun more => ?_⟩
          rw [finishEntry, hm]
          dsimp only
          rw [if_neg he, if_neg hs, if_neg (by rw [length_append]; omega),
            take_append_of_le_length (by omega), hid]

theorem parseEntry_of_append (h : parseEntry oidLen (window ++ more) = .ok (.complete e len)) :
    len ≤ (window ++ more).length ∧
    (len ≤ window.length → parseEntry oidLen window = .ok (.complete e len)) ∧
    (window.length < len → ∃ stage, parseEntry oidLen window = .ok (.incomplete stage)) := by
  obtain ⟨mode, name, oid, rest, hd, hmo, hn, ho, _, hf⟩ := parseEntry_complete h
  obtain ⟨⟨_, hm⟩, he, hsl, -, hmor⟩ := finishEntry_complete hf
  have hs : window ++ more = (mode ++ 32 :: (name ++ 0 :: oid)) ++ rest := by
    rw [hd]
    simp
  have hsi : (mode ++ 32 :: (name ++ 0 :: oid)).length = len := by
    simp only [length_append, length_cons, ho]
    omega
  have ht : window = ((mode ++ 32 :: (name ++ 0 :: oid)) ++ rest).take window.length := by
    rw [← hs, take_left]
  refine ⟨by rw [hs, length_append, hsi]; omega, fun hle => ?_, fun hl => ?_⟩
  · rw [take_append, hsi, take_of_length_le (by omega)] at ht
    rw [ht]
    have : mode ++ 32 :: (name ++ 0 :: oid) ++ rest.take (window.length - len) =
        mode ++ 32 :: (name ++ 0 :: (oid ++ rest.take (window.length - len))) := by simp
    rw [this, parseEntry_append hmo hn, hmor]
  rw [take_append_of_le_length (by omega)] at ht
  generalize window.length = k at ht hl
  rcases Nat.lt_or_ge mode.length k with hk | hk
  · -- the mode is there
    obtain ⟨j, rfl⟩ : ∃ j, k = mode.length + (j + 1) := ⟨k - mode.length - 1, by omega⟩
    rw [take_length_add_append, take_succ_cons] at ht
    rcases Nat.lt_or_ge name.length j with hj | hj
    · obtain ⟨i, rfl⟩ : ∃ i, j = name.length + (i + 1) := ⟨j - name.length - 1, by omega⟩
      rw [take_length_add_append, take_succ_cons] at ht
      refine ⟨.oid, ?_⟩
      rw [ht, parseEntry_append hmo hn, finishEntry, hm]
      dsimp only
      rw [if_neg he, if_neg hsl, if_pos (by rw [length_take]; omega)]
    rw [take_append_of_le_length hj] at ht
    have hp : ∀ b ∈ name.take j, (b != 0) = true := fun b hb =>
      hn b (mem_of_mem_take hb)
    have h1 : window.takeWhile (· != 32) = mode := by
      rw [ht, takeWhile_append_of_pos hmo]
      simp
    have h2 : window.dropWhile (· != 32) = 32 :: name.take j := by
      rw [ht, dropWhile_append_of_pos hmo]
      simp
    have h3 : (name.take j).dropWhile (· != (0 : UInt8)) = [] :=
      dropWhile_eq_nil_iff.mpr hp
    refine ⟨.name, ?_⟩
    rw [parseEntry, h1, h2]
    dsimp only
    rw [h3]
    simp [hm]
  · rw [take_append_of_le_length hk] at ht
    have hp : ∀ b ∈ window, (b != 32) = true := fun b hb =>
      hmo b (mem_of_mem_take (ht ▸ hb))
    have h1 : window.dropWhile (· != (32 : UInt8)) = [] := dropWhile_eq_nil_iff.mpr hp
    refine ⟨.mode, ?_⟩
    rw [parseEntry, h1]

variable {entries : List TreeEntry}

theorem ParsesTo.cons_inv (h : ParsesTo oidLen data (e :: entries)) : ∃ len,
      parseEntry oidLen data = .ok (.complete e len) ∧ len ≤ treeStreamBufBytes ∧
        ParsesTo oidLen (data.drop len) entries := by
  cases h with
  | cons hp hl hr => exact ⟨_, hp, hl, hr⟩

theorem parseEntry_pos (h : parseEntry oidLen data = .ok (.complete e len)) :
    0 < len ∧ e.name ≠ [] ∧ slash ∉ e.name ∧ (0 : UInt8) ∉ e.name := by
  obtain ⟨_, name, _, _, -, -, hn, -, _, hf⟩ := parseEntry_complete h
  obtain ⟨-, he, hs, heq, -⟩ := finishEntry_complete hf
  rw [heq]
  refine ⟨by omega, he, hs, fun hz => ?_⟩
  have := hn 0 hz
  simp at this

theorem peekStream_cons : ∀ {fuel window unread eof},
    TreeCursor.At oidLen (e :: entries) (.stream window unread eof) →
    unread.length + (if window = [] then 1 else 0) < fuel →
    ∃ len cursor, peekStream oidLen fuel window unread eof = .ok (some (e, len), cursor) ∧
      cursor.At oidLen (e :: entries) ∧ (cursor.advance len).At oidLen entries := by
  intro fuel
  induction fuel with
  | zero =>
    intro window unread eof _ hf
    exact absurd hf (Nat.not_lt_zero _)
  | succ fuel ih =>
    intro window unread eof ha hf
    obtain ⟨hp, hsi, heo⟩ := ha
    obtain ⟨len, hpa, _, hr⟩ := hp.cons_inv
    obtain ⟨hle, hw, hpar⟩ := parseEntry_of_append hpa
    have hpo := (parseEntry_pos hpa).1
    rw [peekStream]
    by_cases he : window = []
    · subst he
      have hu : unread ≠ [] := fun h => by
        rw [h] at hle
        simp at hle
        omega
      have hn : eof = false := by
        cases eof with
        | false => rfl
        | true => exact absurd (heo rfl) hu
      rw [hn, if_neg (by simp), if_neg (fun h => hu h.2), if_pos rfl]
      refine ih ⟨by rw [take_append_drop]; exact hp, ?_, fun h => by cases h⟩ ?_
      · rw [length_take]
        omega
      have hl := length_pos_of_ne_nil hu
      have hne : unread.take treeStreamBufBytes ≠ [] := by
        rw [← length_pos_iff, length_take]
        omega
      rw [if_neg hne, length_drop]
      omega
    · rw [if_neg (fun h => he h.1), if_neg (fun h => he h.1), if_neg he]
      rcases Nat.lt_or_ge window.length len with hlt | hg
      · obtain ⟨_, hs⟩ := hpar hlt
        have hu : unread ≠ [] := fun h => by
          rw [h, append_nil] at hle
          omega
        have hn : eof = false := by
          cases eof with
          | false => rfl
          | true => exact absurd (heo rfl) hu
        have hl := length_pos_of_ne_nil hu
        rw [hs, hn]
        dsimp only
        rw [if_neg (by simp), if_neg (by omega)]
        refine ih ⟨?_, ?_, fun h => ?_⟩ ?_
        · rw [append_assoc, take_append_drop]
          exact hp
        · rw [length_append, length_take]
          omega
        · have : min (treeStreamBufBytes - window.length) unread.length = 0 := by simpa using h
          omega
        have hne : window ++
            unread.take (min (treeStreamBufBytes - window.length) unread.length) ≠ [] :=
          append_ne_nil_of_left_ne_nil he _
        rw [if_neg hne, length_drop]
        omega
      · rw [hw hg]
        refine ⟨len, _, rfl, ⟨hp, hsi, heo⟩, ?_, ?_, heo⟩
        · rw [← drop_append_of_le_length hg]
          exact hr
        · rw [length_drop]
          omega

theorem TreeCursor.At.peek_cons {cursor : TreeCursor} (h : cursor.At oidLen (e :: entries)) :
    ∃ len cursor', cursor.peekEntry oidLen = .ok (some (e, len), cursor') ∧
      cursor'.At oidLen (e :: entries) ∧ (cursor'.advance len).At oidLen entries := by
  cases cursor with
  | buffered rest =>
    obtain ⟨len, hp, _, hr⟩ := ParsesTo.cons_inv h
    have hne : rest ≠ [] := fun hn => by
      rw [hn] at hp
      cases hp
    refine ⟨len, .buffered rest, ?_, h, hr⟩
    rw [TreeCursor.peekEntry, if_neg hne, hp]
  | stream window unread eof =>
    exact peekStream_cons h (by split <;> omega)

theorem TreeCursor.At.peek_nil {cursor : TreeCursor} (h : cursor.At oidLen []) :
    ∃ cursor', cursor.peekEntry oidLen = .ok (none, cursor') ∧ cursor'.At oidLen [] := by
  cases cursor with
  | buffered rest =>
    have hn : rest = [] := by
      cases h
      rfl
    refine ⟨.buffered rest, ?_, h⟩
    rw [TreeCursor.peekEntry, if_pos hn]
  | stream window unread eof =>
    obtain ⟨hp, hs, he⟩ := h
    have hn : window ++ unread = [] := by
      generalize window ++ unread = data at hp
      cases hp
      rfl
    obtain ⟨rfl, rfl⟩ := append_eq_nil_iff.mp hn
    cases eof with
    | true => exact ⟨_, rfl, hp, hs, he⟩
    | false => exact ⟨_, rfl, hp, hs, fun _ => rfl⟩

theorem TreeCursor.at_new (h : ParsesTo oidLen bytes.data entries) (streamThreshold : Nat) :
    (TreeCursor.new bytes streamThreshold).At oidLen entries := by
  rw [TreeCursor.new]
  split
  · exact ⟨h, Nat.zero_le _, fun he => by cases he⟩
  · exact h

end GossipRs.Git
