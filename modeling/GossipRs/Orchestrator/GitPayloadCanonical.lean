import GossipRs.Orchestrator.GitPayload

/-! The Git shard payload has one encoding. `Canonical` says which payloads have one; the encoder
produces exactly the layout `wire` of those, and the decoder accepts exactly these layouts. -/

namespace GossipRs.Orchestrator

open Lib Git Etcd List
open ReadsAs (check done guard inject refuse)
open Outcome (assert assert_of_true ok_bind)

/-! ### Layout -/

def lenPrefixed (data : Bytes) : Bytes := beBytes 4 data.length ++ data

def wireDisplayName {P : Platform} : Option (Text P) → Bytes
  | none => [0]
  | some name => if name.val = [] then [0] else 1 :: lenPrefixed name.val

def wireSelection : NormalizedGitSelection → Bytes
  | .defaultBranchOnly => [0]
  | .explicitRefs refs => 1 :: (beBytes 4 refs.length ++ refs.flatMap lenPrefixed)
  | .explicitCommit commit => 2 :: encodeObjectFormat (oidFormat commit) :: commit.bytes

def wire {P : Platform} (p : GitShardPayload P) : Bytes :=
  tenantBytes p.tenantId ++ (beBytes 8 p.repoId.toNat ++ (lenPrefixed p.repoTarget.repoKey.bytes ++
    ((1 :: lenPrefixed p.repoTarget.locator.path) ++ (wireDisplayName p.repoTarget.displayName ++
      (wireSelection p.selection ++ ([encodeScanMode p.scanMode] ++
        ([encodeMergeStrategy p.mergeStrategy] ++ encodeExecutionLimits p.executionLimits)))))))

/-- Refs in strictly increasing order, none empty and none with a zero byte. -/
def Ascending (previous : Option Bytes) : List Bytes → Prop
  | [] => True
  | value :: rest =>
    (value ≠ [] ∧ 0 ∉ value ∧ ∀ p ∈ previous, p < value) ∧ Ascending (some value) rest

def SelectionOk : NormalizedGitSelection → Prop
  | .defaultBranchOnly => True
  | .explicitRefs refs => refs ≠ [] ∧ Ascending none refs
  | .explicitCommit commit => ¬ oidIsNull commit

structure PathOk (P : Platform) (path : Bytes) : Prop where
  nonempty : path ≠ []
  utf8 : P.isUtf8 path = true
  absolute : P.isAbsolute path = true
  noParent : P.hasParentDir path = false

structure Canonical {P : Platform} (p : GitShardPayload P) : Prop where
  path : PathOk P p.repoTarget.locator.path
  key : p.repoTarget.repoKey.bytes = 1 :: p.repoTarget.locator.path
  repoId : p.repoId = P.deriveRepoId p.tenantId p.repoTarget.repoKey
  selection : SelectionOk p.selection
  workers : (workersOrZero p.executionLimits).toNat < 2 ^ 32
  size : (wire p).length ≤ maxMetadataSize

/-! ### The checks -/

variable {previous : Option Bytes} {path : Bytes} {u : Unit}

theorem validateRef_eq_ok {refIndex value} :
    validateRef refIndex previous value = .ok u ↔
      value ≠ [] ∧ 0 ∉ value ∧ ∀ p ∈ previous, p < value := by
  have ho : ¬ (previous.any (fun p => decide (value ≤ p)) = true) ↔ ∀ p ∈ previous, p < value := by
    cases previous with
    | none | some p => simp
  simp [validateRef, checks_eq_ok, failIf_eq_ok, ho, exists_const]

theorem validateRefsFrom_eq_ok :
    validateRefsFrom refIndex previous refs = .ok u ↔ Ascending previous refs := by
  induction refs generalizing refIndex previous with
  | nil => simp [validateRefsFrom, Ascending]
  | cons value rest ih =>
    rw [validateRefsFrom, checks_eq_ok, Ascending]
    constructor
    · rintro ⟨_, hv, hr⟩
      exact ⟨validateRef_eq_ok.mp hv, ih.mp hr⟩
    · rintro ⟨hv, hr⟩
      exact ⟨(), validateRef_eq_ok.mpr hv, ih.mpr hr⟩

theorem validateSelectionForEncode_eq_ok :
    validateSelectionForEncode selection = .ok u ↔ SelectionOk selection := by
  cases selection with
  | defaultBranchOnly => simp [validateSelectionForEncode, SelectionOk]
  | explicitRefs refs =>
    rw [validateSelectionForEncode, mapError_eq_ok, validateExplicitRefs, checks_eq_ok, SelectionOk]
    simp [failIf_eq_ok, validateRefsFrom_eq_ok, exists_const]
  | explicitCommit commit => rw [validateSelectionForEncode, failIf_eq_ok, SelectionOk]

theorem validateLocalPathForEncode_eq_ok :
    validateLocalPathForEncode P path = .ok u ↔ PathOk P path := by
  simp only [validateLocalPathForEncode, checks_eq_ok, failIf_eq_ok, Bool.not_eq_true,
    Bool.not_eq_false, exists_const]
  constructor
  · rintro ⟨he, hu8, ha, hp⟩
    exact ⟨he, hu8, ha, hp⟩
  · rintro ⟨he, hu8, ha, hp⟩
    exact ⟨he, hu8, ha, hp⟩

theorem validateDecodedLocalPath_eq_ok :
    validateDecodedLocalPath P path = .ok u ↔
      path ≠ [] ∧ P.isAbsolute path = true ∧ P.hasParentDir path = false := by
  simp [validateDecodedLocalPath, checks_eq_ok, failIf_eq_ok, Bool.not_eq_true,
    Bool.not_eq_false, exists_const]

theorem keyPath_eq_ok {key : RepoKey} :
    (∃ decoded, key.decode = .ok decoded ∧ decoded.localPathBytes = .ok path) ↔
      path ≠ [] ∧ key.bytes = 1 :: path := by
  unfold RepoKey.decode
  constructor
  · rintro ⟨decoded, hd, hpa⟩
    split at hd
    · cases hd
    next tag payload hb =>
      unfold RepoLocatorKind.fromTag at hd
      by_cases ht : tag = 1
      · rw [if_pos ht] at hd
        by_cases hp : payload = []
        · rw [if_pos hp] at hd
          cases hd
        rw [if_neg hp] at hd
        cases hd
        simp only [DecodedRepoKey.localPathBytes, if_neg hp] at hpa
        cases hpa
        exact ⟨hp, by rw [hb, ht]⟩
      · rw [if_neg ht] at hd
        cases hd
  · rintro ⟨hpa, hb⟩
    rw [hb]
    refine ⟨⟨.localPath, path⟩, ?_, ?_⟩
    · simp [RepoLocatorKind.fromTag, hpa]
    · simp [DecodedRepoKey.localPathBytes, hpa]

theorem validateRepoIdentity_eq_ok {errors : IdentityErrors ε} :
    validateRepoIdentity P validatePath errors tenantId target repoId = .ok u ↔
      validatePath target.locator.path = .ok () ∧ target.locator.path ≠ [] ∧
        target.repoKey.bytes = 1 :: target.locator.path ∧
        repoId = P.deriveRepoId tenantId target.repoKey := by
  simp only [validateRepoIdentity, checks_eq_ok, failIf_eq_ok, mapError_eq_ok, ne_eq, not_not]
  constructor
  · rintro ⟨_, hp, decoded, hd, _, hk, -, rfl, hid⟩
    obtain ⟨hn, hb⟩ := keyPath_eq_ok.mp ⟨decoded, hd, hk⟩
    exact ⟨hp, hn, hb, hid⟩
  rintro ⟨hp, hn, hb, hid⟩
  obtain ⟨decoded, hd, hk⟩ := keyPath_eq_ok.mpr ⟨hn, hb⟩
  exact ⟨(), hp, decoded, hd, _, hk, (), rfl, hid⟩

theorem validateExecutionLimitsForEncode_eq_ok :
    validateExecutionLimitsForEncode limits = .ok u ↔ (workersOrZero limits).toNat < 2 ^ 32 := by
  unfold validateExecutionLimitsForEncode workersOrZero
  cases limits.packExecWorkers with
  | none => simp
  | some workers =>
    show failIf _ _ = _ ↔ _
    rw [failIf_eq_ok, Nat.not_le]
    rfl

/-! ### The encoder -/

theorem length_lenPrefixed (data) : (lenPrefixed data).length = 4 + data.length := by
  rw [lenPrefixed, length_append, length_beBytes]

theorem length_wireDisplayName (name : Option (Text P)) :
    (wireDisplayName name).length = encodedDisplayNameLen name := by
  cases name with
  | none => rfl
  | some name =>
    rw [wireDisplayName, encodedDisplayNameLen]
    split
    · rfl
    · rw [length_cons, length_lenPrefixed]
      omega

theorem length_wireSelection (selection) :
    (wireSelection selection).length = encodedSelectionLen selection := by
  cases selection with
  | defaultBranchOnly => rfl
  | explicitRefs refs =>
    rw [wireSelection, encodedSelectionLen, length_cons, length_append, length_beBytes,
      List.length_flatMap]
    simp only [length_lenPrefixed]
    omega
  | explicitCommit commit =>
    rw [wireSelection, encodedSelectionLen, length_cons, length_cons]
    omega

theorem length_encodeExecutionLimits (limits) :
    (encodeExecutionLimits limits).length = executionLimitsEncodedLen := by
  simp [encodeExecutionLimits, executionLimitsEncodedLen]

theorem length_wire (p : GitShardPayload P) :
    (wire p).length = 32 + 8 + (4 + p.repoTarget.repoKey.bytes.length) +
      (1 + (4 + p.repoTarget.locator.path.length)) + encodedDisplayNameLen
        p.repoTarget.displayName +
      encodedSelectionLen p.selection + (1 + 1 + executionLimitsEncodedLen) := by
  simp only [wire, length_append, length_cons, length_nil, length_beBytes,
    length_lenPrefixed, length_wireDisplayName, length_wireSelection, length_encodeExecutionLimits,
    Decoder.length_tenantBytes]
  omega

theorem checkedAddLen_eq_ok :
    checkedAddLen current extra = .ok total ↔
      total = current + extra ∧ current + extra ≤ maxMetadataSize := by
  simp only [checkedAddLen, enforceMetadataLimit, checks_eq_ok, failIf_eq_ok, Nat.not_lt]
  constructor
  · rintro ⟨-, hl, ht⟩
    cases ht
    exact ⟨rfl, hl⟩
  · rintro ⟨rfl, hl⟩
    exact ⟨(), hl, rfl⟩

variable {locator : RepoLocator}

theorem encodedLocatorLen_eq_ok :
    encodedLocatorLen P locator = .ok len ↔ PathOk P locator.path ∧
      len = 1 + (4 + locator.path.length) ∧ 1 + (4 + locator.path.length) ≤ maxMetadataSize := by
  obtain ⟨path⟩ := locator
  rw [encodedLocatorLen, checks_eq_ok]
  simp only [validateLocalPathForEncode_eq_ok, checkedAddLen_eq_ok, exists_const]
  rfl

theorem encodedLen_eq_ok {p : GitShardPayload P} :
    encodedLen p = .ok len ↔ Canonical p ∧ len = (wire p).length := by
  have hs := length_wire p
  constructor
  · intro h
    simp only [encodedLen, encodedLocatorLen_eq_ok, enforceMetadataLimit, checks_eq_ok,
      failIf_eq_ok,
      checkedAddLen_eq_ok] at h
    obtain ⟨_, hidentity, _, hse, _, hl, _, ⟨hpa, rfl, -⟩, _, ⟨rfl, -⟩, _,
      ⟨rfl, -⟩, _, ⟨rfl, -⟩, _, ⟨rfl, -⟩, _, ⟨rfl, -⟩, _, hle, hlen⟩ := h
    cases hlen
    obtain ⟨-, -, hk, hid⟩ := validateRepoIdentity_eq_ok.mp hidentity
    refine ⟨⟨hpa, hk, hid, validateSelectionForEncode_eq_ok.mp hse,
      validateExecutionLimitsForEncode_eq_ok.mp hl, ?_⟩, hs.symm⟩
    rw [hs]
    exact Nat.not_lt.mp hle
  · rintro ⟨hp, hlen⟩
    have hle := hp.size
    rw [hs] at hle hlen
    have hpa := validateLocalPathForEncode_eq_ok (u := ()).mpr hp.path
    simp only [encodedLen, encodedLocatorLen_eq_ok, enforceMetadataLimit, checks_eq_ok,
      failIf_eq_ok,
      checkedAddLen_eq_ok]
    refine ⟨(), validateRepoIdentity_eq_ok.mpr ⟨hpa, hp.path.nonempty, hp.key, hp.repoId⟩,
      (), validateSelectionForEncode_eq_ok.mpr hp.selection,
      (), validateExecutionLimitsForEncode_eq_ok.mpr hp.workers, _, ⟨hp.path, rfl, ?_⟩,
      _, ⟨rfl, ?_⟩, _, ⟨rfl, ?_⟩, _, ⟨rfl, ?_⟩, _, ⟨rfl, ?_⟩, _, ⟨rfl, ?_⟩, (), ?_,
        congrArg Except.ok hlen.symm⟩
    all_goals omega

theorem pushLenPrefixedBytes_of_lt (h : data.length < 2 ^ 32) :
    pushLenPrefixedBytes data = .ok (lenPrefixed data) := by
  rw [pushLenPrefixedBytes, assert_of_true h]
  rfl

theorem pushRefs_of_lt (h : ∀ value ∈ refs, value.length < 2 ^ 32) :
    pushRefs refs = .ok (refs.flatMap lenPrefixed) := by
  induction refs with
  | nil => rfl
  | cons value rest ih =>
    rw [pushRefs, pushLenPrefixedBytes_of_lt (h value mem_cons_self), ok_bind,
      ih fun v hv => h v (mem_cons_of_mem _ hv)]
    rfl

theorem encodeLocatorInto_of_ok (hp : PathOk P locator.path) (h : locator.path.length < 2 ^ 32) :
    encodeLocatorInto P locator = .ok (1 :: lenPrefixed locator.path) := by
  obtain ⟨path⟩ := locator
  rw [RepoLocator.path] at *
  have hv : validateLocalPathForEncode P path = .ok () :=
    validateLocalPathForEncode_eq_ok.mpr hp
  rw [encodeLocatorInto, hv, Encode.ofExcept, ok_bind, pushLenPrefixedBytes_of_lt h]
  rfl

theorem encodeDisplayNameInto_of_lt {name : Option (Text P)}
    (h : encodedDisplayNameLen name < 2 ^ 32) :
    encodeDisplayNameInto name = .ok (wireDisplayName name) := by
  cases name with
  | none => rfl
  | some name =>
    rw [encodedDisplayNameLen] at h
    rw [encodeDisplayNameInto, wireDisplayName]
    by_cases he : name.val = []
    · rw [if_pos he, if_pos he]
      rfl
    rw [if_neg he] at h
    rw [if_neg he, if_neg he, pushLenPrefixedBytes_of_lt (by omega)]
    rfl

def SelectionFits : NormalizedGitSelection → Prop
  | .defaultBranchOnly => True
  | .explicitRefs refs => refs.length < 2 ^ 32 ∧ ∀ value ∈ refs, value.length < 2 ^ 32
  | .explicitCommit _ => True

theorem SelectionFits.of_len (h : encodedSelectionLen selection < 2 ^ 32) :
    SelectionFits selection := by
  cases selection with
  | defaultBranchOnly | explicitCommit commit => trivial
  | explicitRefs refs =>
    rw [encodedSelectionLen] at h
    have hc := length_le_sum_of_one_le (refs.map fun value => 4 + value.length)
      (by simp; omega)
    rw [length_map] at hc
    refine ⟨by omega, fun value hv => ?_⟩
    have hl := le_sum_of_mem (mem_map_of_mem hv (f := fun v => 4 + v.length))
    omega

theorem encodeSelectionInto_of_lt (h : encodedSelectionLen selection < 2 ^ 32) :
    encodeSelectionInto selection = .ok (wireSelection selection) := by
  cases selection with
  | defaultBranchOnly | explicitCommit commit => rfl
  | explicitRefs refs =>
    obtain ⟨hc, he⟩ := SelectionFits.of_len h
    rw [encodeSelectionInto, assert_of_true hc, ok_bind, pushRefs_of_lt he]
    rfl

theorem encode_of_canonical {p : GitShardPayload P} (hp : Canonical p) :
    encode p = .ok (wire p) := by
  have hl := length_wire p
  have hle := hp.size
  have hmax : maxMetadataSize < 2 ^ 32 := by decide
  have he : encodedLen p = .ok (wire p).length := encodedLen_eq_ok.mpr ⟨hp, rfl⟩
  rw [encode, he, Encode.ofExcept, ok_bind, pushLenPrefixedBytes_of_lt (by omega),
    ok_bind, encodeLocatorInto_of_ok hp.path (by omega), ok_bind,
    encodeDisplayNameInto_of_lt (by omega), ok_bind,
    encodeSelectionInto_of_lt (by omega), ok_bind]
  show (assert ((wire p).length = (wire p).length) _ >>= fun _ => _) = _
  rw [assert_of_true rfl]
  rfl

theorem encode_eq_ok {p : GitShardPayload P} :
    encode p = .ok bytes ↔ Canonical p ∧ bytes = wire p := by
  constructor
  · intro h
    have hp : Canonical p := by
      rw [encode] at h
      cases hl : encodedLen p with
      | error e =>
        rw [hl] at h
        cases h
      | ok len => exact (encodedLen_eq_ok.mp hl).1
    rw [encode_of_canonical hp] at h
    exact ⟨hp, (Outcome.ok.inj h).symm⟩
  · rintro ⟨hp, he⟩
    rw [he]
    exact encode_of_canonical hp

/-! ### The decoder -/

variable {tag : UInt8}

section Readers

variable {P : Platform} {total : Nat} {field : String}

theorem reads_take (len) :
    Reads (take total field len) (fun data => data) (fun data => data.length = len) :=
  Reads.exact len _

theorem reads_takeU8 : Reads (takeU8 total field) (fun b => [b]) (fun _ => True) := by
  refine (reads_take 1).iso (fun raw => UInt8.ofNat (ofBeBytes raw)) (fun b => [b]) (fun _ => rfl)
    (fun b => ?_) (fun raw hl => ?_)
  · simp [ofBeBytes, ofLeBytes]
  · obtain ⟨b, rfl⟩ := length_eq_one_iff.mp hl
    simp [ofBeBytes, ofLeBytes]

theorem reads_takeU32 :
    Reads (takeU32 total field) (fun n => beBytes 4 n.toNat) (fun _ => True) := by
  refine (reads_take 4).iso (fun raw => UInt32.ofNat (ofBeBytes raw)) (fun n => beBytes 4 n.toNat)
    (fun _ => length_beBytes _ _) (fun n => ?_) (fun raw hl => ?_)
  · have hlt := n.toNat_lt
    rw [ofBeBytes_beBytes (by omega), UInt32.ofNat_toNat]
  have hlt := ofBeBytes_lt raw
  have hb := beBytes_ofBeBytes raw
  rw [hl] at hlt hb
  rw [UInt32.toNat_ofNat', Nat.mod_eq_of_lt (by omega), hb]

theorem reads_takeU64 :
    Reads (takeU64 total field) (fun n => beBytes 8 n.toNat) (fun _ => True) := by
  refine (reads_take 8).iso (fun raw => UInt64.ofNat (ofBeBytes raw)) (fun n => beBytes 8 n.toNat)
    (fun _ => length_beBytes _ _) (fun n => ?_) (fun raw hl => ?_)
  · have hlt := n.toNat_lt
    rw [ofBeBytes_beBytes (by omega), UInt64.ofNat_toNat]
  have hlt := ofBeBytes_lt raw
  have hb := beBytes_ofBeBytes raw
  rw [hl] at hlt hb
  rw [UInt64.toNat_ofNat', Nat.mod_eq_of_lt (by omega), hb]

theorem reads_takeTenantId : Reads (takeTenantId total) tenantBytes (fun _ => True) :=
  (reads_take 32).iso Decoder.tenantFromBytes tenantBytes Decoder.length_tenantBytes
    Decoder.tenantFromBytes_tenantBytes fun _ hl => Decoder.tenantBytes_tenantFromBytes hl

theorem toNat_ofNat_of_lt {n : Nat} (h : n < 2 ^ 32) : (UInt32.ofNat n).toNat = n := by
  rw [UInt32.toNat_ofNat', Nat.mod_eq_of_lt h]

theorem reads_takeLenPrefixedBytes :
    Reads (takeLenPrefixedBytes total field dataField) lenPrefixed
      (fun data => data.length < 2 ^ 32) := by
  refine ⟨fun {input data rest} => ?_⟩
  unfold takeLenPrefixedBytes
  rw [ReadM.bind_eq_ok]
  constructor
  · rintro ⟨len, _, hle, hd⟩
    obtain ⟨-, rfl⟩ := reads_takeU32.iff.mp hle
    obtain ⟨hl, rfl⟩ := (reads_take _).iff.mp hd
    refine ⟨hl ▸ len.toNat_lt, ?_⟩
    rw [lenPrefixed, hl, append_assoc]
  rintro ⟨hlt, rfl⟩
  have hle := toNat_ofNat_of_lt hlt
  refine ⟨UInt32.ofNat data.length, data ++ rest, reads_takeU32.iff.mpr ⟨trivial, ?_⟩,
    (reads_take _).iff.mpr ⟨hle.symm, rfl⟩⟩
  rw [lenPrefixed, hle, append_assoc]

theorem tryFromSlice_eq_ok : RepoKey.tryFromSlice bytes = .ok key ↔ key.bytes = bytes := by
  unfold RepoKey.tryFromSlice
  constructor
  · intro h
    split at h
    · cases h
    split at h
    · cases h
      rfl
    · cases h
  · rintro rfl
    rw [dif_neg key.nonempty, dif_pos key.length_le]

theorem reads_decodeRepoKey :
    Reads (decodeRepoKey total) (fun key => lenPrefixed key.bytes) (fun _ => True) := by
  refine (reads_takeLenPrefixedBytes.parse (R := fun _ => True) RepoKey.bytes ?_).congr ?_
    fun _ _ => rfl
  · intro bytes key _
    rw [mapError_eq_ok, tryFromSlice_eq_ok, true_and]
  intro key
  have hl := key.length_le
  have hmax : maxItemKeySize < 2 ^ 32 := by decide
  simp only [and_true, iff_true]
  omega

theorem parseLocalPath_eq_ok :
    parseLocalPath P bytes = .ok locator ↔ PathOk P locator.path ∧ locator.path = bytes := by
  simp only [parseLocalPath, checks_eq_ok, failIf_eq_ok, Bool.not_eq_true, Bool.not_eq_false]
  constructor
  · rintro ⟨-, he, -, hu8, -, ha, -, hp, hpu⟩
    cases hpu
    exact ⟨⟨he, hu8, ha, hp⟩, rfl⟩
  · rintro ⟨⟨he, hu8, ha, hp⟩, rfl⟩
    exact ⟨(), he, (), hu8, (), ha, (), hp, by cases locator; rfl⟩

theorem reads_decodeLocator :
    Reads (decodeLocator P total) (fun locator => 1 :: lenPrefixed locator.path)
      (fun locator => locator.path.length < 2 ^ 32 ∧ PathOk P locator.path) := by
  have hp : Reads (takeLenPrefixedBytes total "locator_len" "locator" >>= fun bytes =>
      ReadM.ofExcept (parseLocalPath P bytes)) (fun locator => lenPrefixed locator.path)
      (fun locator => locator.path.length < 2 ^ 32 ∧ PathOk P locator.path) :=
    reads_takeLenPrefixedBytes.parse RepoLocator.path fun _ _ _ => parseLocalPath_eq_ok
  refine (ReadsAs.field (fun _ => (1 : UInt8)) reads_takeU8
    fun tag => ?_).reads.congr (fun _ => and_iff_right trivial) fun _ _ => rfl
  by_cases ht : tag = 1
  · rw [if_pos ht]
    exact hp.readsAs fun _ => ⟨trivial, ht.symm⟩
  · rw [if_neg ht]
    exact refuse fun _ h => ht h.2.symm

theorem parseDisplayName_eq_ok :
    parseDisplayName P bytes = .ok name ↔ name.val ≠ [] ∧ name.val = bytes := by
  unfold parseDisplayName
  constructor
  · intro h
    split at h
    · cases h
    next he =>
      split at h
      · cases h
        exact ⟨he, rfl⟩
      · cases h
  · rintro ⟨he, rfl⟩
    rw [if_neg he, dif_pos name.property]

def NameOk (name : Option (Text P)) : Prop := ∀ n ∈ name, n.val.length < 2 ^ 32 ∧ n.val ≠ []

def nameFlag : Option (Text P) → UInt8
  | none => 0
  | some _ => 1

theorem reads_decodeDisplayName :
    Reads (decodeDisplayName P total) wireDisplayName (NameOk (P := P)) := by
  have hn : Reads (takeDisplayName P total) (fun name => lenPrefixed name.val)
      (fun name => name.val.length < 2 ^ 32 ∧ name.val ≠ []) :=
    reads_takeLenPrefixedBytes.parse Subtype.val fun _ _ _ => parseDisplayName_eq_ok
  refine (ReadsAs.field nameFlag reads_takeU8
    (q := fun o => (o.map fun name : Text P => lenPrefixed name.val).getD []) (Q := NameOk)
    fun flag => ?_).reads.congr (fun _ => and_iff_right trivial) fun o ho => ?_
  · by_cases hz : flag = 0
    · rw [if_pos hz, hz]
      refine ReadsAs.only (fun o => ?_) rfl
      cases o with
      | none => simp [nameFlag, NameOk]
      | some name => simp [nameFlag]
    rw [if_neg hz]
    by_cases hon : flag = 1
    · rw [if_pos hon, hon]
      refine inject hn some (fun o => ?_) fun _ => rfl
      cases o with
      | none => simp [nameFlag]
      | some name => simp [nameFlag, NameOk]
    rw [if_neg hon]
    refine refuse fun o => ?_
    cases o with
    | none => exact fun h => hz h.2.symm
    | some name => exact fun h => hon h.2.symm
  · cases o with
    | none => rfl
    | some name => rw [wireDisplayName, if_neg (ho name rfl).2]; rfl

theorem reads_decodeRefs (count refIndex) (previous) :
    Reads (decodeRefs total refIndex previous count) (fun refs => refs.flatMap lenPrefixed)
      (fun refs => refs.length = count ∧ Ascending previous refs ∧
        ∀ value ∈ refs, value.length < 2 ^ 32) := by
  refine ⟨fun {input refs rest} => ?_⟩
  induction count generalizing refIndex previous input refs with
  | zero =>
    constructor
    · intro h
      cases h
      exact ⟨⟨rfl, trivial, by simp⟩, rfl⟩
    rintro ⟨⟨hl, -⟩, rfl⟩
    cases length_eq_zero_iff.mp hl
    rfl
  | succ count ih =>
    rw [decodeRefs]
    simp only [ReadM.bind_eq_ok, ReadM.ofExcept_eq_ok, mapError_eq_ok, validateRef_eq_ok]
    constructor
    · rintro ⟨value, _, hv, _, _, ⟨ho, rfl⟩, tail, _, ht, hp⟩
      cases hp
      obtain ⟨hlt, rfl⟩ := reads_takeLenPrefixedBytes.iff.mp hv
      obtain ⟨⟨hl, ha, he⟩, rfl⟩ := (ih _ _).mp ht
      refine ⟨⟨congrArg Nat.succ hl, ⟨ho, ha⟩, forall_mem_cons.mpr ⟨hlt, he⟩⟩, ?_⟩
      rw [flatMap_cons, append_assoc]
    rintro ⟨⟨hl, ha, he⟩, rfl⟩
    cases refs with
    | nil => cases hl
    | cons value tail =>
      obtain ⟨hlt, he⟩ := forall_mem_cons.mp he
      refine ⟨value, _, reads_takeLenPrefixedBytes.iff.mpr ⟨hlt, ?_⟩, (), _, ⟨ha.1, rfl⟩, tail,
        rest, (ih _ _).mpr ⟨⟨Nat.succ.inj hl, ha.2, he⟩, rfl⟩, rfl⟩
      rw [flatMap_cons, append_assoc]

theorem Ascending.length_flatMap (h : Ascending previous refs) :
    minBytesPerRef * refs.length ≤ (refs.flatMap lenPrefixed).length := by
  induction refs generalizing previous with
  | nil => exact Nat.le_refl _
  | cons value rest ih =>
    have hp := length_pos_iff.mpr h.1.1
    have hr := ih h.2
    rw [flatMap_cons, length_append, length_lenPrefixed, length_cons]
    unfold minBytesPerRef at *
    omega

theorem reads_decodeExplicitRefs :
    Reads (decodeExplicitRefs total) (fun refs => beBytes 4 refs.length ++ refs.flatMap lenPrefixed)
      (fun refs => refs.length < 2 ^ 32 ∧ refs ≠ [] ∧ Ascending none refs ∧
        ∀ value ∈ refs, value.length < 2 ^ 32) := by
  refine ⟨fun {input refs rest} => ?_⟩
  unfold decodeExplicitRefs
  simp only [ReadM.bind_eq_ok, ReadM.reject_eq_ok]
  constructor
  · rintro ⟨count, _, hc, _, _, ⟨hz, rfl⟩, _, _, hg, _, _, ⟨-, rfl⟩, hr⟩
    cases hg
    obtain ⟨-, rfl⟩ := reads_takeU32.iff.mp hc
    obtain ⟨⟨hl, ha, he⟩, rfl⟩ := (reads_decodeRefs _ _ _).iff.mp hr
    refine ⟨⟨hl ▸ count.toNat_lt, ?_, ha, he⟩, ?_⟩
    · rintro rfl
      exact hz (UInt32.toNat_inj.mp hl.symm)
    · rw [hl, append_assoc]
  rintro ⟨⟨hlt, hn, ha, he⟩, rfl⟩
  have hc := toNat_ofNat_of_lt hlt
  have hro := ha.length_flatMap
  refine ⟨UInt32.ofNat refs.length, refs.flatMap lenPrefixed ++ rest,
    reads_takeU32.iff.mpr ⟨trivial, ?_⟩, (), _, ⟨?_, rfl⟩, _, _, rfl, (), _, ⟨?_, rfl⟩,
    (reads_decodeRefs _ _ _).iff.mpr ⟨⟨hc.symm, ha, he⟩, rfl⟩⟩
  · rw [hc, append_assoc]
  · intro hz
    have hp := length_pos_iff.mpr hn
    rw [hz] at hc
    have : (0 : UInt32).toNat = 0 := rfl
    omega
  rw [hc, length_append]
  unfold minBytesPerRef at *
  omega

theorem oidLen_oidFormat (commit) : (oidFormat commit).oidLen = commit.bytes.length := by
  unfold oidFormat OidBytes.len
  rcases commit.length_eq with h | h
  · rw [if_pos h, h]
    rfl
  · rw [if_neg (by omega), h]
    rfl

theorem oidFormat_of_length {format} (h : commit.bytes.length = format.oidLen) :
    oidFormat commit = format := by
  unfold oidFormat OidBytes.len
  cases format with
  | sha1 => exact if_pos h
  | sha256 =>
    refine if_neg ?_
    rw [h]
    decide

theorem reads_takeOid (format) :
    Reads (takeOid total format) OidBytes.bytes (fun commit => oidFormat commit = format) := by
  refine ⟨fun {input commit rest} => ?_⟩
  unfold takeOid
  constructor
  · intro h
    split at h
    · cases h
    next hl =>
      cases h
      refine ⟨oidFormat_of_length (length_take_of_le (Nat.not_lt.mp hl)), ?_⟩
      exact (take_append_drop _ _).symm
  rintro ⟨rfl, rfl⟩
  have hle := oidLen_oidFormat commit
  rw [dif_neg (by rw [hle, length_append]; omega)]
  refine congrArg Except.ok (Prod.ext (OidBytes.ext_bytes ?_) ?_)
  · exact take_left' hle.symm
  · exact drop_left' hle.symm

theorem decodeObjectFormat_eq_ok {format} :
    decodeObjectFormat tag = .ok format ↔ True ∧ encodeObjectFormat format = tag := by
  rw [true_and]
  unfold decodeObjectFormat
  cases format <;> grind [encodeObjectFormat]

theorem decodeScanMode_eq_ok :
    decodeScanMode tag = .ok mode ↔ True ∧ encodeScanMode mode = tag := by
  rw [true_and]
  unfold decodeScanMode
  cases mode <;> grind [encodeScanMode]

theorem decodeMergeStrategy_eq_ok :
    decodeMergeStrategy tag = .ok strategy ↔ True ∧ encodeMergeStrategy strategy = tag := by
  rw [true_and]
  unfold decodeMergeStrategy
  cases strategy <;> grind [encodeMergeStrategy]

theorem decodeDebugLevel_eq_ok :
    decodeDebugLevel tag = .ok level ↔ True ∧ encodeDebugLevel level = tag := by
  rw [true_and]
  unfold decodeDebugLevel
  cases level <;> grind [encodeDebugLevel]

theorem reads_tag {decode : UInt8 → Except GitShardPayloadDecodeError α} {tag : α → UInt8}
    (h : ∀ b a, decode b = .ok a ↔ True ∧ tag a = b) :
    Reads (takeU8 total field >>= fun b => ReadM.ofExcept (decode b)) (fun a => [tag a])
      (fun _ => True) :=
  (reads_takeU8.parse tag fun b a _ => h b a).congr (fun _ => and_iff_right trivial) fun _ _ => rfl

theorem reads_decodeExplicitCommit :
    Reads (decodeExplicitCommit total)
      (fun commit => encodeObjectFormat (oidFormat commit) :: commit.bytes)
      (fun commit => ¬ oidIsNull commit) := by
  have hf : Reads (takeObjectFormat total) (fun format => [encodeObjectFormat format])
      (fun _ => True) := reads_tag fun _ _ => decodeObjectFormat_eq_ok
  refine ⟨fun {input commit rest} => ?_⟩
  unfold decodeExplicitCommit
  simp only [ReadM.bind_eq_ok, ReadM.reject_eq_ok]
  constructor
  · rintro ⟨format, _, ht, _, _, ho, _, _, ⟨hn, rfl⟩, hp⟩
    cases hp
    obtain ⟨-, rfl⟩ := hf.iff.mp ht
    obtain ⟨rfl, rfl⟩ := (reads_takeOid format).iff.mp ho
    exact ⟨hn, rfl⟩
  rintro ⟨hn, rfl⟩
  exact ⟨oidFormat commit, commit.bytes ++ rest, hf.iff.mpr ⟨trivial, rfl⟩, commit, rest,
    (reads_takeOid _).iff.mpr ⟨rfl, rfl⟩, (), rest, ⟨hn, rfl⟩, rfl⟩

def selectionTag : NormalizedGitSelection → UInt8
  | .defaultBranchOnly => 0
  | .explicitRefs _ => 1
  | .explicitCommit _ => 2

def selectionBody : NormalizedGitSelection → Bytes
  | .defaultBranchOnly => []
  | .explicitRefs refs => beBytes 4 refs.length ++ refs.flatMap lenPrefixed
  | .explicitCommit commit => encodeObjectFormat (oidFormat commit) :: commit.bytes

theorem reads_decodeSelection :
    Reads (decodeSelection total) wireSelection
      (fun selection => SelectionOk selection ∧ SelectionFits selection) := by
  refine (ReadsAs.field selectionTag reads_takeU8 (q := selectionBody)
    (Q := fun selection => SelectionOk selection ∧ SelectionFits selection)
    fun tag => ?_).reads.congr (fun _ => and_iff_right trivial) fun selection _ => by
      cases selection <;> rfl
  by_cases hz : tag = 0
  · rw [if_pos hz, hz]
    refine ReadsAs.only (fun selection => ?_) rfl
    cases selection <;> simp [selectionTag, SelectionOk, SelectionFits]
  rw [if_neg hz]
  by_cases ho : tag = 1
  · rw [if_pos ho, ho]
    refine inject reads_decodeExplicitRefs NormalizedGitSelection.explicitRefs (fun selection => ?_)
      fun _ => rfl
    cases selection with
    | defaultBranchOnly | explicitCommit commit => simp [selectionTag]
    | explicitRefs refs =>
      simp only [selectionTag, SelectionOk, SelectionFits,
        NormalizedGitSelection.explicitRefs.injEq,
        exists_eq_right]
      tauto
  rw [if_neg ho]
  by_cases ht : tag = 2
  · rw [if_pos ht, ht]
    refine inject reads_decodeExplicitCommit NormalizedGitSelection.explicitCommit
      (fun selection => ?_) fun _ => rfl
    cases selection <;> simp [selectionTag, SelectionOk, SelectionFits]
  rw [if_neg ht]
  refine refuse fun selection => ?_
  cases selection with
  | defaultBranchOnly => exact fun h => hz h.2.symm
  | explicitRefs refs => exact fun h => ho h.2.symm
  | explicitCommit commit => exact fun h => ht h.2.symm

/-! #### Execution limits -/

theorem executionFlags_known (limits) :
    executionFlags limits &&& ~~~knownLimitsFlags = 0 := by
  unfold executionFlags
  cases limits.scanBinary <;> cases limits.enrichIdentities <;> decide

theorem executionFlags_scanBinary (limits) :
    (executionFlags limits &&& 1 != 0) = limits.scanBinary := by
  unfold executionFlags
  cases limits.scanBinary <;> cases limits.enrichIdentities <;> decide

theorem executionFlags_enrichIdentities (limits) :
    (executionFlags limits &&& 2 != 0) = limits.enrichIdentities := by
  unfold executionFlags
  cases limits.scanBinary <;> cases limits.enrichIdentities <;> decide

theorem flags_of_bits (flags) (h : flags &&& ~~~knownLimitsFlags = 0) :
    ((if flags &&& 1 != 0 then 1 else 0) ||| (if flags &&& 2 != 0 then 2 else 0)) = flags := by
  have ha : ∀ n : Fin 256, UInt8.ofNat n &&& ~~~knownLimitsFlags = 0 →
      ((if UInt8.ofNat n &&& 1 != 0 then 1 else 0) |||
        (if UInt8.ofNat n &&& 2 != 0 then 2 else 0)) = UInt8.ofNat n := by decide +kernel
  have hf : UInt8.ofNat flags.toNat = flags := UInt8.ofNat_toNat
  have := ha ⟨flags.toNat, flags.toNat_lt⟩
  rw [hf] at this
  exact this h

theorem nonZeroU32_new (mb) : NonZeroU32.new (mbOrZero mb) = mb := by
  cases mb with
  | none => rfl
  | some n => exact dif_neg n.property

theorem mbOrZero_new (n) : mbOrZero (NonZeroU32.new n) = n := by
  unfold NonZeroU32.new mbOrZero
  split
  · next h => exact h.symm
  · rfl

theorem nonZeroUsize_new (limits) :
    NonZeroUsize.new (workersOrZero limits) = limits.packExecWorkers := by
  unfold workersOrZero
  cases limits.packExecWorkers with
  | none => rfl
  | some n => exact dif_neg n.property

theorem getD_nonZeroUsize_new (n) : ((NonZeroUsize.new n).map Subtype.val).getD 0 = n := by
  unfold NonZeroUsize.new
  split
  · next h => exact h.symm
  · rfl

theorem reads_decodeExecutionLimits :
    Reads (decodeExecutionLimits total) encodeExecutionLimits
      (fun limits => (workersOrZero limits).toNat < 2 ^ 32) := by
  have hd : Reads (takeDebugLevel total) (fun level => [encodeDebugLevel level])
      (fun _ => True) := reads_tag fun _ _ => decodeDebugLevel_eq_ok
  refine (ReadsAs.field executionFlags reads_takeU8 fun flags =>
    guard (P := fun _ => True) (fun limits hk => ?_) fun hf =>
    ReadsAs.field GitExecutionLimits.debugLevel hd fun debugLevel =>
    ReadsAs.field workersOrZero reads_takeU64 fun workers =>
    ReadsAs.field (fun limits => mbOrZero limits.treeDeltaCacheMb) reads_takeU32 fun cacheMb =>
    ReadsAs.field (fun limits => mbOrZero limits.engineChunkMb) reads_takeU32 fun chunkMb =>
    check (P := fun limits => (workersOrZero limits).toNat < 2 ^ 32)
      (fun limits hk => ?_) (done fun limits => ?_)).reads.congr ?_ fun _ _ => ?_
  · rw [← hk.2, true_iff, not_not]
    exact executionFlags_known limits
  · rw [hk.1.1.2, Nat.not_le]
  · constructor
    · rintro ⟨⟨⟨⟨⟨-, rfl⟩, rfl⟩, rfl⟩, rfl⟩, rfl⟩
      rw [executionFlags_scanBinary, executionFlags_enrichIdentities, nonZeroUsize_new,
        nonZeroU32_new, nonZeroU32_new]
    rintro rfl
    exact ⟨⟨⟨⟨⟨trivial, flags_of_bits flags (not_not.mp hf)⟩, rfl⟩,
      getD_nonZeroUsize_new workers⟩, mbOrZero_new cacheMb⟩, mbOrZero_new chunkMb⟩
  · intro limits
    simp
  · rw [encodeExecutionLimits, append_nil]

/-! #### The payload -/

structure Readable (p : GitShardPayload P) : Prop where
  locator : p.repoTarget.locator.path.length < 2 ^ 32 ∧ PathOk P p.repoTarget.locator.path
  name : NameOk p.repoTarget.displayName
  selection : SelectionOk p.selection ∧ SelectionFits p.selection
  workers : (workersOrZero p.executionLimits).toNat < 2 ^ 32

theorem reads_decodeFields : Reads (decodeFields P total) wire (Readable (P := P)) := by
  have hmo : Reads (takeScanMode total) (fun mode => [encodeScanMode mode])
      (fun _ => True) := reads_tag fun _ _ => decodeScanMode_eq_ok
  have hm : Reads (takeMergeStrategy total) (fun strategy => [encodeMergeStrategy strategy])
      (fun _ => True) := reads_tag fun _ _ => decodeMergeStrategy_eq_ok
  refine (ReadsAs.field GitShardPayload.tenantId reads_takeTenantId fun tenantId =>
    ReadsAs.field GitShardPayload.repoId reads_takeU64 fun repoId =>
    ReadsAs.field (fun p : GitShardPayload P => p.repoTarget.repoKey) reads_decodeRepoKey
      fun repoKey =>
    ReadsAs.field (fun p : GitShardPayload P => p.repoTarget.locator) reads_decodeLocator
      fun locator =>
    ReadsAs.field (fun p : GitShardPayload P => p.repoTarget.displayName) reads_decodeDisplayName
      fun displayName =>
    ReadsAs.field GitShardPayload.selection reads_decodeSelection fun selection =>
    ReadsAs.field GitShardPayload.scanMode hmo fun scanMode =>
    ReadsAs.field GitShardPayload.mergeStrategy hm fun mergeStrategy =>
    ReadsAs.field GitShardPayload.executionLimits reads_decodeExecutionLimits fun limits =>
    done fun p => ?_).reads.congr (fun p => ?_) fun p _ => ?_
  · constructor
    · rintro ⟨⟨⟨⟨⟨⟨⟨⟨⟨-, rfl⟩, rfl⟩, rfl⟩, rfl⟩, rfl⟩, rfl⟩, rfl⟩, rfl⟩, rfl⟩
      rfl
    · rintro rfl
      exact ⟨⟨⟨⟨⟨⟨⟨⟨⟨trivial, rfl⟩, rfl⟩, rfl⟩, rfl⟩, rfl⟩, rfl⟩, rfl⟩, rfl⟩, rfl⟩
  · simp only [true_and, and_true]
    constructor
    · rintro ⟨hl, hn, hs, hw⟩
      exact ⟨hl, hn, hs, hw⟩
    · intro h
      exact ⟨h.locator, h.name, h.selection, h.workers⟩
  · rw [wire, append_nil]

end Readers

theorem Canonical.readable {p : GitShardPayload P} (hp : Canonical p)
    (hn : ∀ name ∈ p.repoTarget.displayName, name.val ≠ []) : Readable p := by
  have hl := length_wire p
  have hle := hp.size
  have hmax : maxMetadataSize < 2 ^ 32 := by decide
  refine ⟨⟨by omega, hp.path⟩, fun name hm => ⟨?_, hn name hm⟩,
    ⟨hp.selection, SelectionFits.of_len (by omega)⟩, hp.workers⟩
  have hd : encodedDisplayNameLen p.repoTarget.displayName = 1 + 4 + name.val.length := by
    rw [Option.mem_def.mp hm, encodedDisplayNameLen, if_neg (hn name hm)]
  omega

theorem decode_eq_ok :
    decode P bytes = .ok p ↔
      (Canonical p ∧ ∀ name ∈ p.repoTarget.displayName, name.val ≠ []) ∧ bytes = wire p := by
  simp only [decode, checks_eq_ok, failIf_eq_ok, ne_eq, not_not]
  constructor
  · rintro ⟨-, -, -, hmax, ⟨_, _⟩, hr, -, rfl, _, hidentity, hpu⟩
    cases hpu
    obtain ⟨hq, heq⟩ := reads_decodeFields.iff.mp hr
    rw [append_nil] at heq
    obtain ⟨-, -, hk, hid⟩ := validateRepoIdentity_eq_ok.mp hidentity
    rw [heq, Nat.not_lt] at hmax
    exact ⟨⟨⟨hq.locator.2, hk, hid, hq.selection.1, hq.workers, hmax⟩,
      fun name hm => (hq.name name hm).2⟩, heq⟩
  rintro ⟨⟨hp, hn⟩, hb⟩
  have hl := length_wire p
  have hpa := hp.path
  have hv : validateDecodedLocalPath P p.repoTarget.locator.path = .ok () :=
    validateDecodedLocalPath_eq_ok.mpr ⟨hpa.nonempty, hpa.absolute, hpa.noParent⟩
  refine ⟨(), ?_, (), ?_, (p, []), ?_, (), rfl, (),
    validateRepoIdentity_eq_ok.mpr ⟨hv, hpa.nonempty, hp.key, hp.repoId⟩, rfl⟩
  · intro he
    rw [← hb, he, length_nil] at hl
    omega
  · rw [hb]
    exact Nat.not_lt.mpr hp.size
  · refine reads_decodeFields.iff.mpr ⟨hp.readable hn, ?_⟩
    rw [hb, append_nil]

/-! ### One payload, one encoding -/

def GitShardPayload.withoutEmptyName {P : Platform} (p : GitShardPayload P) : GitShardPayload P :=
  { p with
    repoTarget :=
      { p.repoTarget with
        displayName := p.repoTarget.displayName.filter fun name => decide (name.val ≠ []) } }

theorem withoutEmptyName_name (p : GitShardPayload P) :
    ∀ name ∈ p.withoutEmptyName.repoTarget.displayName, name.val ≠ [] := by
  intro name hm
  obtain ⟨-, hn⟩ := Option.mem_filter_iff.mp hm
  exact of_decide_eq_true hn

theorem wireDisplayName_filter (name : Option (Text P)) :
    wireDisplayName (name.filter fun n => decide (n.val ≠ [])) = wireDisplayName name := by
  cases name with
  | none => rfl
  | some n =>
    by_cases he : n.val = []
    · simp [Option.filter, wireDisplayName, he]
    · simp [Option.filter, wireDisplayName, he]

theorem wire_withoutEmptyName (p : GitShardPayload P) : wire p.withoutEmptyName = wire p := by
  unfold wire GitShardPayload.withoutEmptyName
  rw [wireDisplayName_filter]

theorem Canonical.withoutEmptyName {p : GitShardPayload P} (hp : Canonical p) :
    Canonical p.withoutEmptyName where
  path := hp.path
  key := hp.key
  repoId := hp.repoId
  selection := hp.selection
  workers := hp.workers
  size := by
    rw [wire_withoutEmptyName]
    exact hp.size

theorem Canonical.eq_of_same {p q : GitShardPayload P} (hp : Canonical p) (hq : Canonical q)
    (h : p.Same q) : p = q := by
  obtain ⟨ht, ⟨hk, -, hn⟩, hid, hs, hmo, hm, hl⟩ := h
  have hpa : p.repoTarget.locator.path = q.repoTarget.locator.path := by
    have hb := congrArg RepoKey.bytes hk
    rw [hp.key, hq.key] at hb
    exact (List.cons.inj hb).2
  obtain ⟨_, ⟨_, ⟨_⟩, _⟩, _⟩ := p
  obtain ⟨_, ⟨_, ⟨_⟩, _⟩, _⟩ := q
  cases ht
  cases hk
  cases hn
  cases hid
  cases hs
  cases hmo
  cases hm
  cases hl
  cases hpa
  rfl

theorem GitShardPayload.Same.refl (p : GitShardPayload P) : p.Same p :=
  ⟨rfl, ⟨rfl, P.samePath_refl _, rfl⟩, rfl, rfl, rfl, rfl, rfl⟩

/-- Decoding undoes encoding, encoding undoes decoding, and payloads are equal exactly when their
encodings are. -/
theorem gitShardPayload_canonical (P : Platform) :
    (∀ (p : GitShardPayload P) (bytes : Bytes),
      encode p = .ok bytes → decode P bytes = .ok p.withoutEmptyName) ∧
    (∀ (bytes : Bytes) (p : GitShardPayload P), decode P bytes = .ok p → encode p = .ok bytes) ∧
    (∀ (p q : GitShardPayload P) (bytes bytes' : Bytes),
      encode p = .ok bytes → encode q = .ok bytes' →
        (p.withoutEmptyName.Same q.withoutEmptyName ↔ bytes = bytes')) := by
  have hdecode : ∀ (p : GitShardPayload P) (bytes : Bytes),
      encode p = .ok bytes → decode P bytes = .ok p.withoutEmptyName := by
    intro p bytes h
    obtain ⟨hp, hbytes⟩ := encode_eq_ok.mp h
    refine decode_eq_ok.mpr ⟨⟨hp.withoutEmptyName, withoutEmptyName_name p⟩, ?_⟩
    rw [wire_withoutEmptyName]
    exact hbytes
  refine ⟨hdecode, ?_, ?_⟩
  · intro bytes p h
    obtain ⟨⟨hp, -⟩, hbytes⟩ := decode_eq_ok.mp h
    exact encode_eq_ok.mpr ⟨hp, hbytes⟩
  intro p q bytes bytes' hpEnc hqEnc
  obtain ⟨hp, hbytes⟩ := encode_eq_ok.mp hpEnc
  obtain ⟨hq, hbytes'⟩ := encode_eq_ok.mp hqEnc
  constructor
  · intro hsame
    have heq := hp.withoutEmptyName.eq_of_same hq.withoutEmptyName hsame
    rw [hbytes, hbytes', ← wire_withoutEmptyName p, ← wire_withoutEmptyName q, heq]
  intro hbytesEq
  have hread := hdecode p bytes hpEnc
  rw [hbytesEq, hdecode q bytes' hqEnc] at hread
  rw [Except.ok.inj hread]
  exact GitShardPayload.Same.refl _

def samplePlatform : Platform where
  isUtf8 bytes := bytes.all fun b => decide (b < 128)
  isAbsolute path := path.head? == some 47
  hasParentDir _ := false
  samePath a b := a == b
  samePath_refl _ := beq_self_eq_true _
  deriveRepoId tenant key := UInt64.ofNat (tenant.raw.toNat + key.bytes.length)

def samplePayload : GitShardPayload samplePlatform where
  tenantId := ⟨5#256⟩
  repoTarget := ⟨⟨[1, 47, 97], by decide, by decide⟩, .localPath [47, 97], some ⟨[], by decide⟩⟩
  repoId := 8
  selection := .explicitRefs [[97], [98, 99]]
  scanMode := .odbBlobFast
  mergeStrategy := .firstParentOnly
  executionLimits := ⟨some ⟨4, by decide⟩, true, false, .perf, none, some ⟨2, by decide⟩⟩

theorem gitShardPayload_canonical_sample :
    encode samplePayload = .ok (wire samplePayload) ∧
      decode samplePlatform (wire samplePayload) = .ok samplePayload.withoutEmptyName ∧
      encode samplePayload.withoutEmptyName = .ok (wire samplePayload) := by
  have hencode : encode samplePayload = .ok (wire samplePayload) := by decide +kernel
  have h := gitShardPayload_canonical samplePlatform
  have hdecode := h.1 samplePayload (wire samplePayload) hencode
  exact ⟨hencode, hdecode, h.2.1 _ _ hdecode⟩

end GossipRs.Orchestrator
