import GossipRs.Etcd.CodecSpec
import GossipRs.Git.ObjectId

/-! The Git shard payload of `git_payload.rs`: a normalized repo target with its selection and
execution settings, written as `connector_extra` bytes and read back. -/

namespace GossipRs.Orchestrator

open Lib Git Etcd

/-! ### Repo keys -/

def maxItemKeySize : Nat := 4096

inductive ConnectorInputError where
  | empty (field : String)
  | tooLarge (field : String) (size max : Nat)
deriving DecidableEq, Repr

@[ext]
structure RepoKey where
  bytes : Bytes
  nonempty : bytes ≠ []
  length_le : bytes.length ≤ maxItemKeySize

instance : DecidableEq RepoKey := fun _ _ => decidable_of_iff _ RepoKey.ext_iff.symm

def RepoKey.tryFromSlice (bytes : Bytes) : Except ConnectorInputError RepoKey :=
  if hempty : bytes = [] then .error (.empty "ItemKey")
  else if hfits : bytes.length ≤ maxItemKeySize then .ok ⟨bytes, hempty, hfits⟩
  else .error (.tooLarge "ItemKey" bytes.length maxItemKeySize)

inductive RepoLocatorKind where
  | localPath
deriving DecidableEq, Repr

def RepoLocatorKind.fromTag (tag : UInt8) : Option RepoLocatorKind :=
  if tag = 1 then some .localPath else none

inductive RepoKeyDecodeError where
  | missingLocatorKind
  | unknownLocatorKind (tag : UInt8)
  | missingLocalPathPayload
deriving DecidableEq, Repr

structure DecodedRepoKey where
  locatorKind : RepoLocatorKind
  identityPayload : Bytes
deriving DecidableEq, Repr

def DecodedRepoKey.localPathBytes (key : DecodedRepoKey) : Except RepoKeyDecodeError Bytes :=
  match key.locatorKind with
  | .localPath =>
    if key.identityPayload = [] then .error .missingLocalPathPayload else .ok key.identityPayload

def RepoKey.decode (key : RepoKey) : Except RepoKeyDecodeError DecodedRepoKey :=
  match key.bytes with
  | [] => .error .missingLocatorKind
  | tag :: payload =>
    match RepoLocatorKind.fromTag tag with
    | none => .error (.unknownLocatorKind tag)
    | some .localPath =>
      if payload = [] then .error .missingLocalPathPayload else .ok ⟨.localPath, payload⟩

/-! ### The payload -/

/-- What the payload code takes from the standard library and from `derive_repo_id`. Paths are their
encoded bytes; `samePath` compares components. -/
structure Platform where
  isUtf8 : Bytes → Bool
  isAbsolute : Bytes → Bool
  hasParentDir : Bytes → Bool
  samePath : Bytes → Bytes → Bool
  samePath_refl : ∀ path, samePath path path = true
  deriveRepoId : TenantId → RepoKey → UInt64

abbrev Text (P : Platform) := {bytes : Bytes // P.isUtf8 bytes = true}

inductive RepoLocator where
  | localPath (path : Bytes)
deriving DecidableEq, Repr

def RepoLocator.path : RepoLocator → Bytes
  | .localPath path => path

structure GitRepoTarget (P : Platform) where
  repoKey : RepoKey
  locator : RepoLocator
  displayName : Option (Text P)
deriving DecidableEq

inductive NormalizedGitSelection where
  | defaultBranchOnly
  | explicitRefs (refs : List Bytes)
  | explicitCommit (commit : OidBytes)
deriving DecidableEq

inductive GitScanMode where
  | diffHistory
  | odbBlobFast
deriving DecidableEq, Repr

inductive GitMergeStrategy where
  | allParents
  | firstParentOnly
deriving DecidableEq, Repr

inductive GitDebugLevel where
  | off
  | stats
  | perf
deriving DecidableEq, Repr

abbrev NonZeroU32 := {n : UInt32 // n ≠ 0}

abbrev NonZeroUsize := {n : UInt64 // n ≠ 0}

structure GitExecutionLimits where
  packExecWorkers : Option NonZeroUsize
  scanBinary : Bool
  enrichIdentities : Bool
  debugLevel : GitDebugLevel
  treeDeltaCacheMb : Option NonZeroU32
  engineChunkMb : Option NonZeroU32
deriving DecidableEq

structure GitShardPayload (P : Platform) where
  tenantId : TenantId
  repoTarget : GitRepoTarget P
  repoId : UInt64
  selection : NormalizedGitSelection
  scanMode : GitScanMode
  mergeStrategy : GitMergeStrategy
  executionLimits : GitExecutionLimits
deriving DecidableEq

/-- The derived equality of payloads; it is coarser than `=` on the locator. -/
def GitShardPayload.Same {P : Platform} (p q : GitShardPayload P) : Prop :=
  p.tenantId = q.tenantId ∧
    (p.repoTarget.repoKey = q.repoTarget.repoKey ∧
      P.samePath p.repoTarget.locator.path q.repoTarget.locator.path = true ∧
      p.repoTarget.displayName = q.repoTarget.displayName) ∧
    p.repoId = q.repoId ∧ p.selection = q.selection ∧ p.scanMode = q.scanMode ∧
    p.mergeStrategy = q.mergeStrategy ∧ p.executionLimits = q.executionLimits

inductive ExplicitRefValidationError where
  | emptyList
  | emptyRef (refIndex : Nat)
  | refContainsNul (refIndex : Nat)
  | nonCanonical
deriving DecidableEq, Repr

inductive GitShardPayloadEncodeError where
  | emptyLocalPath
  | relativeLocalPath
  | localPathTraversal
  | nonUtf8LocalPath
  | repoKeyDecode (source : RepoKeyDecodeError)
  | repoKeyLocatorMismatch
  | repoIdMismatch (expected actual : UInt64)
  | emptyExplicitRefs
  | emptyRef (refIndex : Nat)
  | refContainsNul (refIndex : Nat)
  | nonCanonicalExplicitRefs
  | nullExplicitCommit
  | packExecWorkersTooLarge (workers : UInt64)
  | metadataTooLarge (size max : Nat)
deriving DecidableEq, Repr

inductive GitShardPayloadDecodeError where
  | emptyPayload
  | metadataTooLarge (size max : Nat)
  | truncated (field : String) (expectedMin actual : Nat)
  | trailingBytes (remaining : Nat)
  | invalidRepoKey (source : ConnectorInputError)
  | repoKeyDecode (source : RepoKeyDecodeError)
  | unknownLocatorTag (tag : UInt8)
  | emptyLocalPath
  | invalidUtf8LocalPath
  | relativeLocalPath
  | localPathTraversal
  | unknownDisplayNameFlag (flag : UInt8)
  | nonCanonicalEmptyDisplayName
  | invalidUtf8DisplayName
  | unknownSelectionTag (tag : UInt8)
  | emptyExplicitRefs
  | emptyRef (refIndex : Nat)
  | refContainsNul (refIndex : Nat)
  | nonCanonicalExplicitRefs
  | unknownObjectFormatTag (tag : UInt8)
  | nullExplicitCommit
  | unknownScanModeTag (tag : UInt8)
  | unknownMergeStrategyTag (tag : UInt8)
  | unknownExecutionFlags (flags : UInt8)
  | unknownDebugLevelTag (tag : UInt8)
  | packExecWorkersTooLarge (workers : UInt64)
  | repoKeyLocatorMismatch
  | repoIdMismatch (expected actual : UInt64)
deriving DecidableEq, Repr

def ExplicitRefValidationError.toEncode : ExplicitRefValidationError → GitShardPayloadEncodeError
  | .emptyList => .emptyExplicitRefs
  | .emptyRef i => .emptyRef i
  | .refContainsNul i => .refContainsNul i
  | .nonCanonical => .nonCanonicalExplicitRefs

def ExplicitRefValidationError.toDecode : ExplicitRefValidationError → GitShardPayloadDecodeError
  | .emptyList => .emptyExplicitRefs
  | .emptyRef i => .emptyRef i
  | .refContainsNul i => .refContainsNul i
  | .nonCanonical => .nonCanonicalExplicitRefs

/-! ### Tags -/

inductive ObjectFormat where
  | sha1
  | sha256
deriving DecidableEq, Repr

def ObjectFormat.oidLen : ObjectFormat → Nat
  | .sha1 => 20
  | .sha256 => 32

def oidFormat (oid : OidBytes) : ObjectFormat := if oid.len = 20 then .sha1 else .sha256

def oidIsNull (oid : OidBytes) : Prop := ∀ b ∈ oid.bytes, b = 0

instance (oid : OidBytes) : Decidable (oidIsNull oid) :=
  inferInstanceAs (Decidable (∀ b ∈ oid.bytes, b = 0))

def encodeScanMode : GitScanMode → UInt8
  | .diffHistory => 0
  | .odbBlobFast => 1

def decodeScanMode (tag : UInt8) : Except GitShardPayloadDecodeError GitScanMode :=
  if tag = 0 then .ok .diffHistory
  else if tag = 1 then .ok .odbBlobFast
  else .error (.unknownScanModeTag tag)

def encodeMergeStrategy : GitMergeStrategy → UInt8
  | .allParents => 0
  | .firstParentOnly => 1

def decodeMergeStrategy (tag : UInt8) : Except GitShardPayloadDecodeError GitMergeStrategy :=
  if tag = 0 then .ok .allParents
  else if tag = 1 then .ok .firstParentOnly
  else .error (.unknownMergeStrategyTag tag)

def encodeObjectFormat : ObjectFormat → UInt8
  | .sha1 => 1
  | .sha256 => 2

def decodeObjectFormat (tag : UInt8) : Except GitShardPayloadDecodeError ObjectFormat :=
  if tag = 1 then .ok .sha1
  else if tag = 2 then .ok .sha256
  else .error (.unknownObjectFormatTag tag)

def encodeDebugLevel : GitDebugLevel → UInt8
  | .off => 0
  | .stats => 1
  | .perf => 2

def decodeDebugLevel (tag : UInt8) : Except GitShardPayloadDecodeError GitDebugLevel :=
  if tag = 0 then .ok .off
  else if tag = 1 then .ok .stats
  else if tag = 2 then .ok .perf
  else .error (.unknownDebugLevelTag tag)

/-! ### Validation -/

section Validation

variable (P : Platform)

def validateLocalPathForEncode (path : Bytes) : Except GitShardPayloadEncodeError Unit := do
  failIf (path = []) .emptyLocalPath
  failIf (P.isUtf8 path = false) .nonUtf8LocalPath
  failIf (P.isAbsolute path = false) .relativeLocalPath
  failIf (P.hasParentDir path = true) .localPathTraversal

def validateDecodedLocalPath (path : Bytes) : Except GitShardPayloadDecodeError Unit := do
  failIf (path = []) .emptyLocalPath
  failIf (P.isAbsolute path = false) .relativeLocalPath
  failIf (P.hasParentDir path = true) .localPathTraversal

structure IdentityErrors (ε : Type) where
  repoKeyDecode : RepoKeyDecodeError → ε
  repoKeyLocatorMismatch : ε
  repoIdMismatch : UInt64 → UInt64 → ε

/-- What both `validate_repo_identity_for_*` functions share; they differ in the path check and in
their errors. -/
def validateRepoIdentity {ε : Type} (validatePath : Bytes → Except ε Unit)
    (errors : IdentityErrors ε)
    (tenantId : TenantId) (repoTarget : GitRepoTarget P) (repoId : UInt64) : Except ε Unit := do
  validatePath repoTarget.locator.path
  let decoded ← repoTarget.repoKey.decode.mapError errors.repoKeyDecode
  let keyPath ← decoded.localPathBytes.mapError errors.repoKeyDecode
  failIf (keyPath ≠ repoTarget.locator.path) errors.repoKeyLocatorMismatch
  let expected := P.deriveRepoId tenantId repoTarget.repoKey
  failIf (repoId ≠ expected) (errors.repoIdMismatch expected repoId)

def encodeIdentityErrors : IdentityErrors GitShardPayloadEncodeError :=
  ⟨.repoKeyDecode, .repoKeyLocatorMismatch, .repoIdMismatch⟩

def decodeIdentityErrors : IdentityErrors GitShardPayloadDecodeError :=
  ⟨.repoKeyDecode, .repoKeyLocatorMismatch, .repoIdMismatch⟩

def validateRepoIdentityForEncode (tenantId : TenantId) (repoTarget : GitRepoTarget P)
    (repoId : UInt64) : Except GitShardPayloadEncodeError Unit :=
  validateRepoIdentity P (validateLocalPathForEncode P) encodeIdentityErrors tenantId repoTarget
    repoId

def validateRepoIdentityForDecode (tenantId : TenantId) (repoTarget : GitRepoTarget P)
    (repoId : UInt64) : Except GitShardPayloadDecodeError Unit :=
  validateRepoIdentity P (validateDecodedLocalPath P) decodeIdentityErrors tenantId
    repoTarget repoId

end Validation

def validateRef (refIndex : Nat) (previous : Option Bytes) (value : Bytes) :
    Except ExplicitRefValidationError Unit := do
  failIf (value = []) (.emptyRef refIndex)
  failIf (0 ∈ value) (.refContainsNul refIndex)
  failIf (previous.any (fun p => decide (value ≤ p)) = true) .nonCanonical

def validateRefsFrom (refIndex : Nat) (previous : Option Bytes) :
    List Bytes → Except ExplicitRefValidationError Unit
  | [] => .ok ()
  | value :: rest => do
    validateRef refIndex previous value
    validateRefsFrom (refIndex + 1) (some value) rest

def validateExplicitRefs (refs : List Bytes) : Except ExplicitRefValidationError Unit := do
  failIf (refs = []) .emptyList
  validateRefsFrom 0 none refs

def validateSelectionForEncode : NormalizedGitSelection → Except GitShardPayloadEncodeError Unit
  | .defaultBranchOnly => .ok ()
  | .explicitRefs refs => (validateExplicitRefs refs).mapError (·.toEncode)
  | .explicitCommit commit => failIf (oidIsNull commit) .nullExplicitCommit

def validateExecutionLimitsForEncode (limits : GitExecutionLimits) :
    Except GitShardPayloadEncodeError Unit :=
  match limits.packExecWorkers with
  | none => .ok ()
  | some workers => failIf (2 ^ 32 ≤ workers.val.toNat) (.packExecWorkersTooLarge workers.val)

/-! ### Encoding -/

def enforceMetadataLimit (total : Nat) : Except GitShardPayloadEncodeError Unit :=
  failIf (maxMetadataSize < total) (.metadataTooLarge total maxMetadataSize)

def checkedAddLen (current extra : Nat) : Except GitShardPayloadEncodeError Nat := do
  let total := current + extra
  enforceMetadataLimit total
  return total

def encodedLocatorLen (P : Platform) : RepoLocator → Except GitShardPayloadEncodeError Nat
  | .localPath path => do
    validateLocalPathForEncode P path
    checkedAddLen 1 (4 + path.length)

def encodedDisplayNameLen {P : Platform} : Option (Text P) → Nat
  | none => 1
  | some name => if name.val = [] then 1 else 1 + 4 + name.val.length

def encodedSelectionLen : NormalizedGitSelection → Nat
  | .defaultBranchOnly => 1
  | .explicitRefs refs => 1 + 4 + (refs.map fun value => 4 + value.length).sum
  | .explicitCommit commit => 1 + 1 + commit.bytes.length

def executionLimitsEncodedLen : Nat := 1 + 1 + 8 + 4 + 4

def encodedLen {P : Platform} (p : GitShardPayload P) : Except GitShardPayloadEncodeError Nat := do
  validateRepoIdentityForEncode P p.tenantId p.repoTarget p.repoId
  validateSelectionForEncode p.selection
  validateExecutionLimitsForEncode p.executionLimits
  let locatorLen ← encodedLocatorLen P p.repoTarget.locator
  let total ← checkedAddLen (32 + 8) (4 + p.repoTarget.repoKey.bytes.length)
  let total ← checkedAddLen total locatorLen
  let total ← checkedAddLen total (encodedDisplayNameLen p.repoTarget.displayName)
  let total ← checkedAddLen total (encodedSelectionLen p.selection)
  let total ← checkedAddLen total (1 + 1 + executionLimitsEncodedLen)
  enforceMetadataLimit total
  return total

/-- Where encoding aborts: a length beyond 32 bits, or a debug build finding another length than
announced. -/
inductive EncodePanic where
  | fieldLength
  | encodedLength
deriving DecidableEq, Repr

abbrev Encode := Outcome EncodePanic GitShardPayloadEncodeError

def Encode.ofExcept {α : Type} : Except GitShardPayloadEncodeError α → Encode α
  | .ok a => .ok a
  | .error e => .err e

def pushLenPrefixedBytes (bytes : Bytes) : Encode Bytes := do
  Outcome.assert (bytes.length < 2 ^ 32) .fieldLength
  return beBytes 4 bytes.length ++ bytes

def encodeLocatorInto (P : Platform) : RepoLocator → Encode Bytes
  | .localPath path => do
    Encode.ofExcept (validateLocalPathForEncode P path)
    let bytes ← pushLenPrefixedBytes path
    return 1 :: bytes

def encodeDisplayNameInto {P : Platform} : Option (Text P) → Encode Bytes
  | none => return [0]
  | some name =>
    if name.val = [] then return [0]
    else do
      let bytes ← pushLenPrefixedBytes name.val
      return 1 :: bytes

def pushRefs : List Bytes → Encode Bytes
  | [] => return []
  | value :: rest => do
    let bytes ← pushLenPrefixedBytes value
    let more ← pushRefs rest
    return bytes ++ more

def encodeSelectionInto : NormalizedGitSelection → Encode Bytes
  | .defaultBranchOnly => return [0]
  | .explicitRefs refs => do
    Outcome.assert (refs.length < 2 ^ 32) .fieldLength
    let bytes ← pushRefs refs
    return 1 :: (beBytes 4 refs.length ++ bytes)
  | .explicitCommit commit =>
    return 2 :: encodeObjectFormat (oidFormat commit) :: commit.bytes

def executionFlags (limits : GitExecutionLimits) : UInt8 :=
  (if limits.scanBinary then 1 else 0) ||| (if limits.enrichIdentities then 2 else 0)

def workersOrZero (limits : GitExecutionLimits) : UInt64 :=
  (limits.packExecWorkers.map Subtype.val).getD 0

def mbOrZero (mb : Option NonZeroU32) : UInt32 := (mb.map Subtype.val).getD 0

def encodeExecutionLimits (limits : GitExecutionLimits) : Bytes :=
  [executionFlags limits] ++ ([encodeDebugLevel limits.debugLevel] ++
    (beBytes 8 (workersOrZero limits).toNat ++
      (beBytes 4 (mbOrZero limits.treeDeltaCacheMb).toNat ++
      beBytes 4 (mbOrZero limits.engineChunkMb).toNat)))

def encode {P : Platform} (p : GitShardPayload P) : Encode Bytes := do
  let len ← Encode.ofExcept (encodedLen p)
  let repoKey ← pushLenPrefixedBytes p.repoTarget.repoKey.bytes
  let locator ← encodeLocatorInto P p.repoTarget.locator
  let displayName ← encodeDisplayNameInto p.repoTarget.displayName
  let selection ← encodeSelectionInto p.selection
  let encoded := tenantBytes p.tenantId ++ (beBytes 8 p.repoId.toNat ++ (repoKey ++ (locator ++
    (displayName ++ (selection ++ ([encodeScanMode p.scanMode] ++
      ([encodeMergeStrategy p.mergeStrategy] ++ encodeExecutionLimits p.executionLimits)))))))
  Outcome.assert (encoded.length = len) .encodedLength
  return encoded

/-! ### Decoding -/

/-- `DecodeCursor`: what is left of the payload. Only the errors read its offset, the payload's
length minus what is left. -/
abbrev Cursor := ReadM UInt8 GitShardPayloadDecodeError

section Decoding

variable (P : Platform) (total : Nat)

def take (field : String) (len : Nat) : Cursor Bytes :=
  ReadM.exact len fun input => .truncated field (total - input.length + len) total

def takeU8 (field : String) : Cursor UInt8 := do
  let raw ← take total field 1
  return UInt8.ofNat (ofBeBytes raw)

def takeU32 (field : String) : Cursor UInt32 := do
  let raw ← take total field 4
  return UInt32.ofNat (ofBeBytes raw)

def takeU64 (field : String) : Cursor UInt64 := do
  let raw ← take total field 8
  return UInt64.ofNat (ofBeBytes raw)

def takeLenPrefixedBytes (lenField dataField : String) : Cursor Bytes := do
  let len ← takeU32 total lenField
  take total dataField len.toNat

def takeTenantId : Cursor TenantId := do
  let raw ← take total "tenant_id" 32
  return Decoder.tenantFromBytes raw

def decodeRepoKey : Cursor RepoKey := do
  let bytes ← takeLenPrefixedBytes total "repo_key_len" "repo_key"
  ReadM.ofExcept ((RepoKey.tryFromSlice bytes).mapError .invalidRepoKey)

def parseLocalPath (bytes : Bytes) : Except GitShardPayloadDecodeError RepoLocator := do
  failIf (bytes = []) .emptyLocalPath
  failIf (P.isUtf8 bytes = false) .invalidUtf8LocalPath
  failIf (P.isAbsolute bytes = false) .relativeLocalPath
  failIf (P.hasParentDir bytes = true) .localPathTraversal
  return .localPath bytes

def decodeLocator : Cursor RepoLocator := do
  let tag ← takeU8 total "locator_tag"
  if tag = 1 then do
    let bytes ← takeLenPrefixedBytes total "locator_len" "locator"
    ReadM.ofExcept (parseLocalPath P bytes)
  else throw (.unknownLocatorTag tag)

def parseDisplayName (bytes : Bytes) : Except GitShardPayloadDecodeError (Text P) :=
  if bytes = [] then .error .nonCanonicalEmptyDisplayName
  else if h : P.isUtf8 bytes = true then .ok ⟨bytes, h⟩
  else .error .invalidUtf8DisplayName

def takeDisplayName : Cursor (Text P) := do
  let bytes ← takeLenPrefixedBytes total "display_name_len" "display_name"
  ReadM.ofExcept (parseDisplayName P bytes)

def decodeDisplayName : Cursor (Option (Text P)) := do
  let flag ← takeU8 total "display_name_flag"
  if flag = 0 then return none
  else if flag = 1 then do
    let name ← takeDisplayName P total
    return some name
  else throw (.unknownDisplayNameFlag flag)

def decodeRefs (refIndex : Nat) (previous : Option Bytes) : Nat → Cursor (List Bytes)
  | 0 => return []
  | count + 1 => do
    let value ← takeLenPrefixedBytes total "explicit_ref_len" "explicit_ref"
    ReadM.ofExcept ((validateRef refIndex previous value).mapError (·.toDecode))
    let rest ← decodeRefs (refIndex + 1) (some value) count
    return value :: rest

def minBytesPerRef : Nat := 5

def decodeExplicitRefs : Cursor (List Bytes) := do
  let count ← takeU32 total "explicit_refs_count"
  ReadM.reject (count = 0) .emptyExplicitRefs
  let rest ← get
  ReadM.reject (rest.length / minBytesPerRef < count.toNat)
    (.truncated "explicit_refs" (count.toNat * minBytesPerRef) rest.length)
  decodeRefs total 0 none count.toNat

theorem oidLen_eq_of_take {format : ObjectFormat} {input : Bytes}
    (h : ¬ input.length < format.oidLen) :
    (input.take format.oidLen).length = 20 ∨ (input.take format.oidLen).length = 32 := by
  rw [List.length_take_of_le (Nat.not_lt.mp h)]
  cases format with
  | sha1 => exact .inl rfl
  | sha256 => exact .inr rfl

/-- The bytes of an object id; their number fixes the format, so `try_from_slice` cannot fail on
them. -/
def takeOid (format : ObjectFormat) : Cursor OidBytes := fun input =>
  if h : input.length < format.oidLen then
    .error (.truncated "explicit_commit" (total - input.length + format.oidLen) total)
  else .ok (⟨input.take format.oidLen, oidLen_eq_of_take h⟩, input.drop format.oidLen)

def takeObjectFormat : Cursor ObjectFormat := do
  let tag ← takeU8 total "explicit_commit_format"
  ReadM.ofExcept (decodeObjectFormat tag)

def decodeExplicitCommit : Cursor OidBytes := do
  let format ← takeObjectFormat total
  let commit ← takeOid total format
  ReadM.reject (oidIsNull commit) .nullExplicitCommit
  return commit

def decodeSelection : Cursor NormalizedGitSelection := do
  let tag ← takeU8 total "selection_tag"
  if tag = 0 then return .defaultBranchOnly
  else if tag = 1 then do
    let refs ← decodeExplicitRefs total
    return .explicitRefs refs
  else if tag = 2 then do
    let commit ← decodeExplicitCommit total
    return .explicitCommit commit
  else throw (.unknownSelectionTag tag)

def takeScanMode : Cursor GitScanMode := do
  let tag ← takeU8 total "scan_mode_tag"
  ReadM.ofExcept (decodeScanMode tag)

def takeMergeStrategy : Cursor GitMergeStrategy := do
  let tag ← takeU8 total "merge_strategy_tag"
  ReadM.ofExcept (decodeMergeStrategy tag)

def takeDebugLevel : Cursor GitDebugLevel := do
  let tag ← takeU8 total "debug_level_tag"
  ReadM.ofExcept (decodeDebugLevel tag)

def knownLimitsFlags : UInt8 := 1 ||| 2

def NonZeroUsize.new (n : UInt64) : Option NonZeroUsize := if h : n = 0 then none else some ⟨n, h⟩

def NonZeroU32.new (n : UInt32) : Option NonZeroU32 := if h : n = 0 then none else some ⟨n, h⟩

/-- The numbers are read before the worker count is checked against its ceiling. -/
def decodeExecutionLimits : Cursor GitExecutionLimits := do
  let flags ← takeU8 total "execution_flags"
  ReadM.reject (flags &&& ~~~knownLimitsFlags ≠ 0) (.unknownExecutionFlags flags)
  let debugLevel ← takeDebugLevel total
  let packExecWorkers ← takeU64 total "pack_exec_workers"
  let treeDeltaCacheMb ← takeU32 total "tree_delta_cache_mb"
  let engineChunkMb ← takeU32 total "engine_chunk_mb"
  ReadM.reject (2 ^ 32 ≤ packExecWorkers.toNat) (.packExecWorkersTooLarge packExecWorkers)
  return { packExecWorkers := NonZeroUsize.new packExecWorkers
           scanBinary := flags &&& 1 != 0
           enrichIdentities := flags &&& 2 != 0
           debugLevel := debugLevel
           treeDeltaCacheMb := NonZeroU32.new treeDeltaCacheMb
           engineChunkMb := NonZeroU32.new engineChunkMb }

def decodeFields : Cursor (GitShardPayload P) := do
  let tenantId ← takeTenantId total
  let repoId ← takeU64 total "repo_id"
  let repoKey ← decodeRepoKey total
  let locator ← decodeLocator P total
  let displayName ← decodeDisplayName P total
  let selection ← decodeSelection total
  let scanMode ← takeScanMode total
  let mergeStrategy ← takeMergeStrategy total
  let executionLimits ← decodeExecutionLimits total
  return ⟨tenantId, ⟨repoKey, locator, displayName⟩, repoId, selection, scanMode, mergeStrategy,
    executionLimits⟩

end Decoding

def decode (P : Platform) (bytes : Bytes) :
    Except GitShardPayloadDecodeError (GitShardPayload P) := do
  failIf (bytes = []) .emptyPayload
  failIf (maxMetadataSize < bytes.length) (.metadataTooLarge bytes.length maxMetadataSize)
  let read ← decodeFields P bytes.length bytes
  failIf (read.2 ≠ []) (.trailingBytes read.2.length)
  validateRepoIdentityForDecode P read.1.tenantId read.1.repoTarget read.1.repoId
  return read.1

end GossipRs.Orchestrator
