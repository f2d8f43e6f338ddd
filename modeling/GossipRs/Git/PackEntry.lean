import GossipRs.Git.ObjectId
import GossipRs.Lib.Checks

/-! Headers of pack entries (`pack_inflate.rs`). The bounds of an entry are checked against the end
of the data, but single bytes are read up to the end of the file, the trailing hash included. -/

namespace GossipRs.Git.Pack

open Lib

inductive ObjectKind where
  | commit
  | tree
  | blob
  | tag
deriving DecidableEq, Repr

inductive EntryKind where
  | nonDelta (kind : ObjectKind)
  | ofsDelta (baseOffset : UInt64)
  | refDelta (baseOid : OidBytes)
deriving DecidableEq

inductive PackParseError where
  | tooSmall
  | badSignature
  | unsupportedVersion (version : Nat)
  | offsetOutOfRange (offset : UInt64)
  | headerTooLong
  | truncated
  | badObjType (objType : UInt8)
  | ofsUnderflow
  | badOidLen (len : Nat)
deriving DecidableEq

structure EntryHeader where
  size : UInt64
  dataStart : Nat
  kind : EntryKind

structure PackFile where
  bytes : Bytes
  oidLen : Nat
  dataEnd : Nat

def packHeaderSize : Nat := 12
def maxOfsBytes : Nat := 10

def PackFile.parse (bytes : Bytes) (oidLen : Nat) : Except PackParseError PackFile := do
  failIf (oidLen ≠ 20 ∧ oidLen ≠ 32) (.badOidLen oidLen)
  failIf (bytes.length < packHeaderSize + oidLen) .tooSmall
  failIf (bytes.take 4 ≠ [80, 65, 67, 75]) .badSignature
  let version := ofLeBytes ((bytes.drop 4).take 4).reverse
  failIf (version ≠ 2 ∧ version ≠ 3) (.unsupportedVersion version)
  return ⟨bytes, oidLen, bytes.length - oidLen⟩

/-- The bytes of a base-128 number after its first, `n` of them read so far. -/
def readGroups {σ : Type} (tooLong : Nat → Bool) (step : σ → UInt8 → Except PackParseError σ)
    (rest : Bytes) (byte : UInt8) (n : Nat) (s : σ) : Except PackParseError (σ × Nat) :=
  if byte &&& 0x80 = 0 then .ok (s, n)
  else if tooLong n then .error .headerTooLong
  else match rest with
    | [] => .error .truncated
    | next :: rest => do readGroups tooLong step rest next (n + 1) (← step s next)

/-- Seven more bits of a size, at a shift that stays below the width. -/
def sizeStep (s : UInt64 × Nat) (byte : UInt8) : Except PackParseError (UInt64 × Nat) :=
  let size := s.1 ||| (byte &&& 0x7f).toUInt64 <<< UInt64.ofNat s.2
  if 63 < s.2 + 7 then .error .headerTooLong else .ok (size, s.2 + 7)

/-- Seven more bits of a base offset; what is shifted out is lost. -/
def ofsStep (val : UInt64) (byte : UInt8) : Except PackParseError UInt64 :=
  .ok ((val + 1) <<< 7 ||| (byte &&& 0x7f).toUInt64)

namespace PackFile

def byteAt (pack : PackFile) (pos : Nat) : Except PackParseError UInt8 :=
  match pack.bytes[pos]? with
  | some byte => .ok byte
  | none => .error .truncated

def parseOfsBase (pack : PackFile) (deltaOffset : UInt64) (used maxHeaderBytes : Nat) :
    Except PackParseError (UInt64 × Nat) := do
  let pos := deltaOffset.toNat + used
  let first ← pack.byteAt pos
  let (val, read) ← readGroups (fun n => maxOfsBytes ≤ n ∨ maxHeaderBytes ≤ used + n) ofsStep
    (pack.bytes.drop (pos + 1)) first 1 (first &&& 0x7f).toUInt64
  failIf (deltaOffset ≤ val) .ofsUnderflow
  return (deltaOffset - val, pos + read)

def parseKind (pack : PackFile) (offset : UInt64) (maxHeaderBytes used : Nat) (objType : UInt8) :
    Except PackParseError (EntryKind × Nat) :=
  let pos := offset.toNat + used
  match objType with
  | 1 => .ok (.nonDelta .commit, pos)
  | 2 => .ok (.nonDelta .tree, pos)
  | 3 => .ok (.nonDelta .blob, pos)
  | 4 => .ok (.nonDelta .tag, pos)
  | 6 => do
    let (baseOffset, pos) ← pack.parseOfsBase offset used maxHeaderBytes
    return (.ofsDelta baseOffset, pos)
  | 7 =>
    let oid := (pack.bytes.drop pos).take pack.oidLen
    if pack.dataEnd < pos + pack.oidLen then .error .truncated
    else if h : oid.length = 20 ∨ oid.length = 32 then .ok (.refDelta ⟨oid, h⟩, pos + pack.oidLen)
    else .error (.badOidLen pack.oidLen)
  | other => .error (.badObjType other)

def entryHeaderAt (pack : PackFile) (offset : UInt64) (maxHeaderBytes : Nat) :
    Except PackParseError EntryHeader := do
  let start := offset.toNat
  failIf (start < packHeaderSize ∨ pack.dataEnd ≤ start) (.offsetOutOfRange offset)
  let first ← pack.byteAt start
  let (size, used) ← readGroups (fun n => maxHeaderBytes ≤ n) sizeStep (pack.bytes.drop (start + 1))
    first 1 ((first &&& 0x0f).toUInt64, 4)
  let (kind, pos) ← pack.parseKind offset maxHeaderBytes used ((first >>> 4) &&& 0x07)
  return ⟨size.1, pos, kind⟩

end PackFile

def takeGroups : Bytes → Bytes
  | [] => []
  | byte :: rest => if byte &&& 0x80 = 0 then [byte] else byte :: takeGroups rest

def ofsDigit (v : Nat) (byte : UInt8) : Nat := (v + 1) * 128 + byte.toNat % 128

/-- The value of a base offset: base 128, one added at each continuation. -/
def ofsValue : Bytes → Nat
  | [] => 0
  | byte :: rest => rest.foldl ofsDigit (byte.toNat % 128)

def PackFile.sizeEncoding (pack : PackFile) (offset : Nat) : Bytes :=
  takeGroups (pack.bytes.drop offset)

def PackFile.ofsEncoding (pack : PackFile) (offset : Nat) : Bytes :=
  takeGroups (pack.bytes.drop (offset + (pack.sizeEncoding offset).length))

/-- An encoding that ends in the file and is not cut off for its length. -/
def Complete (limit : Nat) (enc : Bytes) : Prop :=
  enc.getLast?.any (fun last => last &&& 0x80 = 0) = true ∧ enc.length ≤ max 1 limit

/-- More continuations would shift a size out of its word. -/
def maxSizeBytes : Nat := 9

def PackFile.objType (pack : PackFile) (offset : Nat) : UInt8 :=
  (pack.bytes.getD offset 0 >>> 4) &&& 0x07

/-- What is encoded at an offset and not refused ends before the trailing hash; the distance of an
OFS delta fits a word and is not zero. -/
def PackFile.EndsBeforeHash (pack : PackFile) (offset maxHeaderBytes : Nat) : Prop :=
  packHeaderSize ≤ offset → offset < pack.dataEnd →
  let size := pack.sizeEncoding offset
  Complete (min maxSizeBytes maxHeaderBytes) size →
    (pack.objType offset ∈ [1, 2, 3, 4] → offset + size.length ≤ pack.dataEnd) ∧
    let distance := pack.ofsEncoding offset
    (pack.objType offset = 6 →
      Complete (min maxOfsBytes (maxHeaderBytes - size.length)) distance →
      ofsValue distance % 2 ^ 64 < offset →
        offset + size.length + distance.length ≤ pack.dataEnd ∧
          ofsValue distance ∈ Set.Ioo 0 (2 ^ 64))

section Groups

variable {σ : Type} {tooLong : Nat → Bool} {step : σ → UInt8 → Except PackParseError σ} {s s' : σ}

theorem takeGroups_cons (byte : UInt8) (rest : Bytes) :
    ∃ enc, takeGroups (byte :: rest) = byte :: enc := by
  rw [takeGroups]
  split
  · exact ⟨[], rfl⟩
  · exact ⟨_, rfl⟩

theorem readGroups_eq_ok_iff (he : takeGroups (byte :: rest) = byte :: enc) :
    readGroups tooLong step rest byte n s = .ok r ↔
      (byte :: enc).getLast?.any (fun last => last &&& 0x80 = 0) = true ∧
      (∀ k < enc.length, tooLong (n + k) = false) ∧
      ∃ s', enc.foldlM step s = .ok s' ∧ r = (s', n + enc.length) := by
  fun_induction readGroups tooLong step rest byte n s generalizing enc with
  | case1 rest byte n s hlast =>
    rw [takeGroups, if_pos hlast] at he
    cases he
    simp [hlast, pure, Except.pure, eq_comm (a := (s, n))]
  | case2 rest byte n s hmore hlong =>
    rw [takeGroups, if_neg hmore] at he
    cases he
    refine ⟨nofun, ?_⟩
    rintro ⟨hlast, hshort, -⟩
    cases rest with
    | nil => simp [takeGroups, hmore] at hlast
    | cons next rest =>
      obtain ⟨enc, he⟩ := takeGroups_cons next rest
      have := hshort 0 (by simp [he])
      simp [hlong] at this
  | case3 byte n s hmore hlong =>
    rw [takeGroups, if_neg hmore] at he
    cases he
    simp [takeGroups, hmore]
  | case4 byte n s hmore hlong next rest ih =>
    rw [takeGroups, if_neg hmore] at he
    obtain ⟨enc, he'⟩ := takeGroups_cons next rest
    rw [he'] at he
    cases he
    rw [checks_eq_ok, List.getLast?_cons_cons, List.foldlM_cons]
    constructor
    · rintro ⟨s₁, hstep, hread⟩
      obtain ⟨hlast, hshort, s', hfold, rfl⟩ := (ih s₁ he').mp hread
      refine ⟨hlast, fun k hk => ?_, s', by rw [hstep]; exact hfold, ?_⟩
      · cases k with
        | zero => simpa using hlong
        | succ k =>
          rw [Nat.add_comm k 1, ← Nat.add_assoc]
          exact hshort k (Nat.lt_of_succ_lt_succ hk)
      · rw [List.length_cons, Nat.add_assoc, Nat.add_comm 1]
    · rintro ⟨hlast, hshort, s', hfold, rfl⟩
      obtain ⟨s₁, hstep, hfold⟩ := checks_eq_ok.mp hfold
      refine ⟨s₁, hstep, (ih s₁ he').mpr ⟨hlast, fun k hk => ?_, s', hfold, ?_⟩⟩
      · have := hshort (k + 1) (Nat.succ_lt_succ hk)
        rwa [Nat.add_comm k 1, ← Nat.add_assoc] at this
      · rw [List.length_cons, Nat.add_assoc, Nat.add_comm 1]

end Groups

theorem toNat_low (byte : UInt8) : (byte &&& 0x7f).toUInt64.toNat = byte.toNat % 128 := by
  rw [UInt8.toNat_toUInt64, UInt8.toNat_and]
  exact Nat.and_two_pow_sub_one_eq_mod _ 7

/-- What is shifted out of the word is lost, the rest is exact. -/
theorem toNat_ofsStep (val : UInt64) (byte : UInt8) :
    ((val + 1) <<< 7 ||| (byte &&& 0x7f).toUInt64).toNat = ofsDigit val.toNat byte % 2 ^ 64 := by
  have hs : ((val + 1) <<< 7).toNat = ((val.toNat + 1) % 2 ^ 57) <<< 7 := by
    simp [Nat.shiftLeft_eq]
    omega
  rw [ofsDigit, UInt64.toNat_or, hs, toNat_low,
    ← Nat.shiftLeft_add_eq_or_of_lt (by omega : _ < 2 ^ 7), Nat.shiftLeft_eq]
  omega

theorem foldl_ofsDigit_mod (enc : Bytes) (v : Nat) :
    enc.foldl ofsDigit (v % 2 ^ 64) % 2 ^ 64 = enc.foldl ofsDigit v % 2 ^ 64 := by
  induction enc generalizing v with
  | nil => exact Nat.mod_mod _ _
  | cons byte enc ih =>
    rw [List.foldl_cons, List.foldl_cons, ← ih (ofsDigit (v % 2 ^ 64) byte),
      ← ih (ofsDigit v byte)]
    congr 2
    rw [ofsDigit, ofsDigit]
    omega

theorem foldlM_ofsStep (enc : Bytes) (val : UInt64) :
    ∃ val', enc.foldlM ofsStep val = .ok val' ∧
      val'.toNat = enc.foldl ofsDigit val.toNat % 2 ^ 64 := by
  induction enc generalizing val with
  | nil => exact ⟨val, rfl, (Nat.mod_eq_of_lt val.toNat_lt).symm⟩
  | cons byte enc ih =>
    obtain ⟨val', hfold, hval⟩ := ih ((val + 1) <<< 7 ||| (byte &&& 0x7f).toUInt64)
    refine ⟨val', hfold, ?_⟩
    rw [hval, toNat_ofsStep, foldl_ofsDigit_mod]
    rfl

theorem foldlM_sizeStep (enc : Bytes) (s : UInt64 × Nat) :
    (∃ s', enc.foldlM sizeStep s = .ok s') ↔ enc = [] ∨ s.2 + 7 * enc.length ≤ 63 := by
  induction enc generalizing s with
  | nil => exact ⟨fun _ => .inl rfl, fun _ => ⟨s, rfl⟩⟩
  | cons byte enc ih =>
    simp only [List.foldlM_cons, sizeStep]
    split
    case isTrue hlong =>
      constructor
      · rintro ⟨_, h⟩
        cases h
      · rintro (h | h)
        · cases h
        · rw [List.length_cons] at h
          omega
    case isFalse hshort =>
      refine (ih (_, s.2 + 7)).trans ?_
      cases enc with
      | nil =>
        simp
        omega
      | cons next enc =>
        simp
        omega

namespace PackFile

variable {pack : PackFile} {offset : UInt64} {maxHeaderBytes : Nat}

theorem byteAt_of_lt (h : pos < pack.bytes.length) :
    pack.byteAt pos = .ok (pack.bytes.getD pos 0) ∧
      pack.bytes.drop pos = pack.bytes.getD pos 0 :: pack.bytes.drop (pos + 1) := by
  rw [byteAt, List.getElem?_eq_getElem h, List.getD_eq_getElem _ _ h]
  exact ⟨rfl, List.drop_eq_getElem_cons h⟩

/-- A number of one byte is never too long. -/
theorem short_iff (enc : Bytes) {limit : Nat} (tooLong : Nat → Bool)
    (hl : ∀ n, tooLong n = false ↔ n < limit) :
    (∀ k < enc.length, tooLong (1 + k) = false) ↔ enc.length + 1 ≤ max 1 limit := by
  simp only [hl]
  constructor
  · intro h
    cases hn : enc.length with
    | zero => omega
    | succ n =>
      have := h n (by omega)
      omega
  · intro h k hk
    omega

/-- The size of an entry is read exactly if it is complete. -/
theorem readSize_iff (hin : offset.toNat < pack.bytes.length) :
    (∃ size, readGroups (fun n => maxHeaderBytes ≤ n) sizeStep
        (pack.bytes.drop (offset.toNat + 1)) (pack.bytes.getD offset.toNat 0) 1
        ((pack.bytes.getD offset.toNat 0 &&& 0x0f).toUInt64, 4) = .ok (size, used)) ↔
      Complete (min maxSizeBytes maxHeaderBytes) (pack.sizeEncoding offset.toNat) ∧
        used = (pack.sizeEncoding offset.toNat).length := by
  obtain ⟨enc, he⟩ := takeGroups_cons (pack.bytes.getD offset.toNat 0)
    (pack.bytes.drop (offset.toNat + 1))
  have hs : pack.sizeEncoding offset.toNat = pack.bytes.getD offset.toNat 0 :: enc := by
    rw [sizeEncoding, (byteAt_of_lt hin).2, he]
  have hfold := foldlM_sizeStep enc ((pack.bytes.getD offset.toNat 0 &&& 0x0f).toUInt64, 4)
  have hnine : (enc = [] ∨ 4 + 7 * enc.length ≤ 63) ↔ enc.length + 1 ≤ maxSizeBytes := by
    rw [← List.length_eq_zero_iff, maxSizeBytes]
    omega
  rw [hnine] at hfold
  simp only [readGroups_eq_ok_iff he, Prod.mk.injEq, hs, Complete, List.length_cons,
    short_iff enc (fun n => decide (maxHeaderBytes ≤ n)) fun n =>
      (decide_eq_false_iff_not.trans not_le : _ ↔ n < maxHeaderBytes)]
  constructor
  · rintro ⟨size, hlast, hshort, s', hok, rfl, rfl⟩
    have := hfold.mp ⟨_, hok⟩
    exact ⟨⟨hlast, by omega⟩, by omega⟩
  · rintro ⟨⟨hlast, hshort⟩, rfl⟩
    have hp : 1 ≤ maxSizeBytes := by decide
    obtain ⟨s', hok⟩ := hfold.mpr (by omega)
    exact ⟨s', hlast, by omega, s', hok, rfl, by omega⟩

/-- A base is accepted exactly if its distance is complete and, as far as the word holds it, below
the offset. -/
theorem parseOfsBase_eq_ok_iff :
    pack.parseOfsBase offset used maxHeaderBytes = .ok (base, pos) ↔
      Complete (min maxOfsBytes (maxHeaderBytes - used))
        (takeGroups (pack.bytes.drop (offset.toNat + used))) ∧
      ofsValue (takeGroups (pack.bytes.drop (offset.toNat + used))) % 2 ^ 64 < offset.toNat ∧
      base.toNat + ofsValue (takeGroups (pack.bytes.drop (offset.toNat + used))) % 2 ^ 64 =
        offset.toNat ∧
      pos = offset.toNat + used +
        (takeGroups (pack.bytes.drop (offset.toNat + used))).length := by
  rcases lt_or_ge (offset.toNat + used) pack.bytes.length with hin | hout
  · obtain ⟨hbyte, hdrop⟩ := byteAt_of_lt hin
    obtain ⟨enc, he⟩ := takeGroups_cons (pack.bytes.getD (offset.toNat + used) 0)
      (pack.bytes.drop (offset.toNat + used + 1))
    obtain ⟨val, hfold, hval⟩ := foldlM_ofsStep enc
      (pack.bytes.getD (offset.toNat + used) 0 &&& 0x7f).toUInt64
    have hshort := short_iff enc (fun n => decide (maxOfsBytes ≤ n ∨ maxHeaderBytes ≤ used + n))
      (fun n => (by simp; omega : _ ↔ n < min maxOfsBytes (maxHeaderBytes - used)))
    rw [toNat_low] at hval
    rw [hdrop, he, ofsValue, ← hval, Complete, List.length_cons, ← hshort]
    simp only [parseOfsBase, checks_eq_ok, hbyte, Except.ok.injEq, exists_eq_left',
      readGroups_eq_ok_iff he, hfold, failIf_eq_ok, Prod.exists]
    constructor
    · rintro ⟨_, _, ⟨hlast, hk, hread⟩, ⟨⟩, hlt, hret⟩
      cases hread
      cases hret
      have hlt : val < offset := not_le.mp hlt
      rw [UInt64.toNat_sub_of_le _ _ hlt.le]
      have := UInt64.lt_iff_toNat_lt.mp hlt
      exact ⟨⟨hlast, hk⟩, this, by omega, by omega⟩
    · rintro ⟨⟨hlast, hk⟩, hlt, hbase, rfl⟩
      have hlt : val < offset := UInt64.lt_iff_toNat_lt.mpr hlt
      refine ⟨val, _, ⟨hlast, hk, rfl⟩, (), not_le.mpr hlt, ?_⟩
      obtain rfl : base = offset - val := by
        apply UInt64.toNat_inj.mp
        rw [UInt64.toNat_sub_of_le _ _ hlt.le]
        omega
      rw [Nat.add_comm enc.length]
      rfl
  · have hnone : pack.byteAt (offset.toNat + used) = .error .truncated := by
      rw [byteAt, List.getElem?_eq_none hout]
    rw [parseOfsBase, hnone, List.drop_eq_nil_of_le hout]
    exact ⟨nofun, fun h => absurd h.1.1 (by simp [takeGroups])⟩

theorem dataEnd_eq {bytes : Bytes} {oidLen : Nat} (hparse : parse bytes oidLen = .ok pack) :
    pack.dataEnd + oidLen = bytes.length ∧ pack.bytes = bytes := by
  obtain ⟨⟨⟩, -, hparse⟩ := checks_eq_ok.mp hparse
  obtain ⟨⟨⟩, hlen, hparse⟩ := checks_eq_ok.mp hparse
  obtain ⟨⟨⟩, -, hparse⟩ := checks_eq_ok.mp hparse
  obtain ⟨⟨⟩, -, hparse⟩ := checks_eq_ok.mp hparse
  cases hparse
  have := failIf_eq_ok.mp hlen
  exact ⟨by dsimp only; omega, rfl⟩

/-- The header is accepted once the size is complete and the kind is read after it. -/
theorem entryHeaderAt_eq_ok_iff (hin : pack.dataEnd ≤ pack.bytes.length) :
    (∃ size, pack.entryHeaderAt offset maxHeaderBytes = .ok ⟨size, pos, kind⟩) ↔
      packHeaderSize ≤ offset.toNat ∧ offset.toNat < pack.dataEnd ∧
      Complete (min maxSizeBytes maxHeaderBytes) (pack.sizeEncoding offset.toNat) ∧
      pack.parseKind offset maxHeaderBytes (pack.sizeEncoding offset.toNat).length
        (pack.objType offset.toNat) = .ok (kind, pos) := by
  constructor
  · rintro ⟨size, h⟩
    obtain ⟨⟨⟩, hrange, h⟩ := checks_eq_ok.mp h
    obtain ⟨hlow, hhigh⟩ := not_or.mp (failIf_eq_ok.mp hrange)
    have hlt : offset.toNat < pack.bytes.length := by omega
    obtain ⟨first, hfirst, h⟩ := checks_eq_ok.mp h
    cases (byteAt_of_lt hlt).1.symm.trans hfirst
    obtain ⟨⟨_, used⟩, hread, h⟩ := checks_eq_ok.mp h
    obtain ⟨hcomplete, rfl⟩ := (readSize_iff hlt).mp ⟨_, hread⟩
    obtain ⟨⟨_, _⟩, hkind, h⟩ := checks_eq_ok.mp h
    cases h
    exact ⟨not_lt.mp hlow, not_le.mp hhigh, hcomplete, hkind⟩
  · rintro ⟨hlow, hhigh, hcomplete, hkind⟩
    have hlt : offset.toNat < pack.bytes.length := by omega
    obtain ⟨size, hread⟩ := (readSize_iff hlt).mpr ⟨hcomplete, rfl⟩
    refine ⟨size.1, ?_⟩
    refine checks_eq_ok.mpr ⟨(), failIf_eq_ok.mpr (by omega), ?_⟩
    refine checks_eq_ok.mpr ⟨_, (byteAt_of_lt hlt).1, ?_⟩
    refine checks_eq_ok.mpr ⟨(size, _), hread, ?_⟩
    exact checks_eq_ok.mpr ⟨(kind, pos), hkind, rfl⟩

/-- A header starts its data before the trailing hash, and the base of an OFS delta is exactly its
distance before it. -/
def Sound (pack : PackFile) (offset : UInt64) (header : EntryHeader) : Prop :=
  header.dataStart ≤ pack.dataEnd ∧ ∀ base, header.kind = .ofsDelta base →
    base.toNat + ofsValue (pack.ofsEncoding offset.toNat) = offset.toNat ∧ base < offset

theorem endsBeforeHash_of_sound (hin : pack.dataEnd ≤ pack.bytes.length)
    (hsound : ∀ header, pack.entryHeaderAt offset maxHeaderBytes = .ok header →
      pack.Sound offset header) :
    pack.EndsBeforeHash offset.toNat maxHeaderBytes := by
  intro hlow hhigh size hcomplete
  have accepted : ∀ {kind pos}, pack.parseKind offset maxHeaderBytes
      (pack.sizeEncoding offset.toNat).length (pack.objType offset.toNat) = .ok (kind, pos) →
      ∃ header : EntryHeader, header.dataStart = pos ∧ header.kind = kind ∧
        pack.Sound offset header := by
    intro kind pos hkind
    obtain ⟨n, h⟩ := (entryHeaderAt_eq_ok_iff hin).mpr ⟨hlow, hhigh, hcomplete, hkind⟩
    exact ⟨_, rfl, rfl, hsound _ h⟩
  refine ⟨fun htype => ?_, fun htype hdistance hbelow => ?_⟩
  · have hkind : ∃ kind, pack.parseKind offset maxHeaderBytes
        (pack.sizeEncoding offset.toNat).length (pack.objType offset.toNat) =
          .ok (kind, offset.toNat + size.length) := by
      simp only [List.mem_cons, List.not_mem_nil, or_false] at htype
      rcases htype with htype | htype | htype | htype <;> rw [htype] <;> exact ⟨_, rfl⟩
    obtain ⟨kind, hkind⟩ := hkind
    obtain ⟨header, hstart, -, hle, -⟩ := accepted hkind
    exact hstart ▸ hle
  · obtain ⟨base, hbase⟩ : ∃ base : UInt64, base.toNat +
        ofsValue (pack.ofsEncoding offset.toNat) % 2 ^ 64 = offset.toNat :=
      ⟨.ofNat (offset.toNat - ofsValue (pack.ofsEncoding offset.toNat) % 2 ^ 64), by
        have := offset.toNat_lt
        rw [UInt64.toNat_ofNat', Nat.mod_eq_of_lt (by omega)]
        omega⟩
    have hparsed := parseOfsBase_eq_ok_iff.mpr ⟨hdistance, hbelow, hbase, rfl⟩
    have hkind : pack.parseKind offset maxHeaderBytes (pack.sizeEncoding offset.toNat).length
        (pack.objType offset.toNat) = .ok (.ofsDelta base, offset.toNat + size.length +
          (pack.ofsEncoding offset.toNat).length) := by
      rw [htype]
      exact checks_eq_ok.mpr ⟨_, hparsed, rfl⟩
    obtain ⟨header, hstart, hofs, hle, hexact⟩ := accepted hkind
    obtain ⟨heq, hlt⟩ := hexact base hofs
    have := offset.toNat_lt
    have := UInt64.lt_iff_toNat_lt.mp hlt
    exact ⟨hstart ▸ hle, by omega, by omega⟩

theorem sound_of_endsBeforeHash (hin : pack.dataEnd ≤ pack.bytes.length)
    (hends : pack.EndsBeforeHash offset.toNat maxHeaderBytes)
    (h : pack.entryHeaderAt offset maxHeaderBytes = .ok header) : pack.Sound offset header := by
  obtain ⟨n, pos, kind⟩ := header
  obtain ⟨hlow, hhigh, hcomplete, hkind⟩ := (entryHeaderAt_eq_ok_iff hin).mp ⟨n, h⟩
  obtain ⟨hplain, hdelta⟩ := hends hlow hhigh hcomplete
  generalize htype : pack.objType offset.toNat = objType at *
  unfold parseKind at hkind
  split at hkind
  iterate 4
    cases hkind
    exact ⟨hplain (by decide), fun _ heq => (by cases heq)⟩
  · obtain ⟨⟨base, _⟩, hbase, hkind⟩ := checks_eq_ok.mp hkind
    cases hkind
    obtain ⟨hdistance, hbelow, hsum, rfl⟩ := parseOfsBase_eq_ok_iff.mp hbase
    obtain ⟨hstop, hpos, hfits⟩ := hdelta rfl hdistance hbelow
    refine ⟨hstop, fun _ heq => ?_⟩
    cases heq
    have hsum : base.toNat + ofsValue (pack.ofsEncoding offset.toNat) % 2 ^ 64 = offset.toNat :=
      hsum
    rw [Nat.mod_eq_of_lt hfits] at hsum
    exact ⟨hsum, UInt64.lt_iff_toNat_lt.mpr (by omega)⟩
  · dsimp only at hkind
    split at hkind
    · cases hkind
    split at hkind
    · cases hkind
      exact ⟨by dsimp only; omega, fun _ heq => (by cases heq)⟩
    · cases hkind
  · cases hkind

/-- **Pack entry headers.** Every header that is returned is sound exactly if what is encoded ends
before the trailing hash and the distance of an OFS delta fits a word and is not zero. -/
theorem entryHeaderAt_sound_iff {bytes : Bytes} {oidLen : Nat} (offset : UInt64)
    (maxHeaderBytes : Nat) (hparse : parse bytes oidLen = .ok pack) :
    (∀ header, pack.entryHeaderAt offset maxHeaderBytes = .ok header → pack.Sound offset header) ↔
      pack.EndsBeforeHash offset.toNat maxHeaderBytes := by
  have hin : pack.dataEnd ≤ pack.bytes.length := by
    obtain ⟨hend, rfl⟩ := dataEnd_eq hparse
    omega
  exact ⟨endsBeforeHash_of_sound hin, fun hends _ => sound_of_endsBeforeHash hin hends⟩

def samplePack (data : Bytes) : Bytes :=
  [80, 65, 67, 75, 0, 0, 0, 2, 0, 0, 0, 1] ++ data ++ List.replicate 20 0

/-- A delta twelve bytes after the blob it is based on. -/
theorem entryHeaderAt_sound_delta : ∃ pack header,
    parse (samplePack ([0x30] ++ List.replicate 11 0 ++ [0x60, 12])) 20 = .ok pack ∧
      pack.entryHeaderAt 24 64 = .ok header ∧ header.kind = .ofsDelta 12 ∧
      pack.Sound 24 header := by
  have hparse : parse (samplePack ([0x30] ++ List.replicate 11 0 ++ [0x60, 12])) 20 =
      .ok ⟨samplePack ([0x30] ++ List.replicate 11 0 ++ [0x60, 12]), 20, 26⟩ := rfl
  refine ⟨_, ⟨0, 26, .ofsDelta 12⟩, hparse, rfl, rfl, ?_⟩
  refine (entryHeaderAt_sound_iff 24 64 hparse).mpr ?_ _ rfl
  unfold EndsBeforeHash Complete
  decide

/-- A header cut off by the hash goes on in it, and a distance of zero gives a delta on itself. -/
theorem entryHeaderAt_reads_hash :
    (∃ pack header, parse (samplePack [0xb0]) 20 = .ok pack ∧
      pack.entryHeaderAt 12 64 = .ok header ∧ pack.dataEnd < header.dataStart) ∧
    ∃ pack header, parse (samplePack [0x60, 0]) 20 = .ok pack ∧
      pack.entryHeaderAt 12 64 = .ok header ∧ header.kind = .ofsDelta 12 :=
  ⟨⟨_, _, rfl, rfl, by decide⟩, _, _, rfl, rfl, rfl⟩

end PackFile

end GossipRs.Git.Pack
