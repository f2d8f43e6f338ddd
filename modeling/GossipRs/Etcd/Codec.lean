import GossipRs.Etcd.Keyspace
import GossipRs.Coordination.Run
import GossipRs.Lib.Wire

/-! The binary codec of etcd values. Blobs are parsed into owned intermediates, validated, and only
then turned into records; a shard record allocates its pooled fields last and gives all back when
one does not fit. -/

namespace GossipRs.Etcd

open Lib Stdx

variable {ε α : Type}

def versionPrefixV1 : Bytes := asciiBytes "v1"

def shardIdWireSize : Nat := 8

def maxRootShards : Nat := 10000

def maxRegisteredShards : Nat := maxRootShards

def maxFieldSize : Nat := 2 ^ 20

inductive BlobKind where
  | runRecord
  | shardRecord
  | shardOwner
deriving DecidableEq, Repr

inductive CursorInputError where
  | emptyLastKey
  | keyTooLarge (size max : Nat)
  | tokenTooLarge (size max : Nat)
deriving DecidableEq, Repr

/-- Decode failures. Where the source keeps the text of an input error, the error itself
stands here. -/
inductive EtcdCodecError where
  | truncated (needed remaining : Nat)
  | invalidVersionPrefix (actual : Bytes)
  | invalidBlobKind (actual : UInt8)
  | unexpectedBlobKind (expected actual : BlobKind)
  | invalidBool (actual : UInt8)
  | invalidEnum (ty : String) (actual : UInt8)
  | invalidSpec (reason : ShardSpecInputError)
  | invalidCursor (reason : CursorInputError)
  | slabFull (reason : SlabFull)
  | trailingBytes (remaining : Nat)
  | invariantViolation (kind detail : String)
  | fieldTooLarge (actual max : Nat)
deriving DecidableEq, Repr

/-! ## Discriminants -/

def fromTag (tag : α → UInt8) (values : List α) (raw : UInt8) : Option α :=
  values.find? fun a => tag a == raw

def BlobKind.asU8 : BlobKind → UInt8
  | .runRecord => 1
  | .shardRecord => 2
  | .shardOwner => 3

def BlobKind.fromU8 : UInt8 → Option BlobKind :=
  fromTag asU8 [.runRecord, .shardRecord, .shardOwner]

def statusTag : ShardStatus → UInt8
  | .active => 0
  | .done => 1
  | .split => 2
  | .parked => 3

def statusFromU8 : UInt8 → Option ShardStatus := fromTag statusTag [.active, .done, .split, .parked]

def parkReasonTag : ParkReason → UInt8
  | .permissionDenied => 0
  | .notFound => 1
  | .poisoned => 2
  | .tooManyErrors => 3
  | .other => 4

def parkReasonFromU8 : UInt8 → Option ParkReason :=
  fromTag parkReasonTag [.permissionDenied, .notFound, .poisoned, .tooManyErrors, .other]

def semanticsTag : CursorSemantics → UInt8
  | .completed => 0
  | .dispatched => 1

def semanticsFromU8 : UInt8 → Option CursorSemantics :=
  fromTag semanticsTag [.completed, .dispatched]

def opKindTag : OpKind → UInt8
  | .checkpoint => 0
  | .complete => 1
  | .park => 2
  | .splitReplace => 3
  | .splitResidual => 4
  | .unpark => 5

def opKindFromU8 : UInt8 → Option OpKind :=
  fromTag opKindTag [.checkpoint, .complete, .park, .splitReplace, .splitResidual, .unpark]

def opResultTag : OpResult → UInt8
  | .completed => 0
  | .error => 1
  | .superseded => 2

def opResultFromU8 : UInt8 → Option OpResult :=
  fromTag opResultTag [.completed, .error, .superseded]

def runStatusTag : RunStatus → UInt8
  | .initializing => 0
  | .active => 1
  | .done => 2
  | .failed => 3
  | .cancelled => 4

def runStatusFromU8 : UInt8 → Option RunStatus :=
  fromTag runStatusTag [.initializing, .active, .done, .failed, .cancelled]

def runOpKindTag : RunOpKind → UInt8
  | .registerShards => 0
  | .completeRun => 1
  | .failRun => 2
  | .cancelRun => 3

def runOpKindFromU8 : UInt8 → Option RunOpKind :=
  fromTag runOpKindTag [.registerShards, .completeRun, .failRun, .cancelRun]

/-! ## Encoding primitives -/

def putU32 (n : UInt32) : Bytes := leBytes 4 n.toNat

def putU64 (n : UInt64) : Bytes := leBytes 8 n.toNat

/-- A collection length; one that does not fit in 32 bits is refused by an `expect`. -/
def putLen (len : Nat) : Run ε Bytes := do
  Outcome.assert (len < 2 ^ 32) .codecLength
  return leBytes 4 len

def putBytes (data : Bytes) : Run ε Bytes := do
  let len ← putLen data.length
  return len ++ data

def putOpt (put : α → Run ε Bytes) : Option α → Run ε Bytes
  | none => return [0]
  | some a => do
    let bytes ← put a
    return 1 :: bytes

def putList (put : α → Run ε Bytes) (items : List α) : Run ε Bytes := do
  let len ← putLen items.length
  let bytes ← canonicalConcat (items.map put)
  return len ++ bytes

def putShardId (shard : ShardId) : Bytes := putU64 shard.raw

def putHeader (kind : BlobKind) : Bytes := versionPrefixV1 ++ [kind.asU8]

/-! ## Decoding primitives -/

abbrev Decoder := ReadM UInt8 EtcdCodecError

namespace Decoder

def readExact (len : Nat) : Decoder Bytes := fun input =>
  if input.length < len then .error (.truncated len input.length)
  else .ok (input.take len, input.drop len)

def readU8 : Decoder UInt8 := do
  let raw ← readExact 1
  return UInt8.ofNat (ofLeBytes raw)

def readBool : Decoder Bool := do
  let raw ← readU8
  if raw = 0 then return false
  else if raw = 1 then return true
  else throw (.invalidBool raw)

def readU32 : Decoder UInt32 := do
  let raw ← readExact 4
  return UInt32.ofNat (ofLeBytes raw)

def readU64 : Decoder UInt64 := do
  let raw ← readExact 8
  return UInt64.ofNat (ofLeBytes raw)

def readLen : Decoder Nat := do
  let raw ← readExact 4
  return ofLeBytes raw

def readVec : Decoder Bytes := do
  let len ← readLen
  ReadM.reject (maxFieldSize < len) (.fieldTooLarge len maxFieldSize)
  readExact len

def readOpt (x : Decoder α) : Decoder (Option α) := do
  let present ← readBool
  if present then
    let a ← x
    return some a
  else return none

def readEnum (ty : String) (fromU8 : UInt8 → Option α) : Decoder α := do
  let raw ← readU8
  match fromU8 raw with
  | some a => return a
  | none => throw (.invalidEnum ty raw)

def tenantFromBytes (bytes : Bytes) : TenantId :=
  ⟨BitVec.ofNat 256 (ofBeDigits 256 (bytes.map UInt8.toNat))⟩

def readTenant : Decoder TenantId := do
  let raw ← readExact 32
  return tenantFromBytes raw

def readShardId : Decoder ShardId := do
  let raw ← readU64
  return ⟨raw⟩

def readList (max : Nat) (tooLong : Nat → EtcdCodecError) (x : Decoder α) : Decoder (List α) := do
  let len ← readLen
  ReadM.reject (max < len) (tooLong len)
  ReadM.replicate x len

/-- Shard ids, refused before reading when more are announced than the input can hold. -/
def readShardIds (max : Nat) (kind detail : String) : Decoder (List ShardId) := do
  let len ← readLen
  ReadM.reject (max < len) (.fieldTooLarge len max)
  let rest ← get
  ReadM.reject (rest.length / shardIdWireSize < len) (.invariantViolation kind detail)
  ReadM.replicate readShardId len

def expectHeader (expected : BlobKind) : Decoder Unit := do
  let actual ← readExact 2
  ReadM.reject (actual ≠ versionPrefixV1) (.invalidVersionPrefix actual)
  let raw ← readU8
  match BlobKind.fromU8 raw with
  | none => throw (.invalidBlobKind raw)
  | some actual => ReadM.reject (actual ≠ expected) (.unexpectedBlobKind expected actual)

def finish : Decoder Unit := do
  let rest ← get
  ReadM.reject (rest.length ≠ 0) (.trailingBytes rest.length)

end Decoder

def violation (c : Prop) [Decidable c] (kind detail : String) : Except EtcdCodecError Unit :=
  if c then .error (.invariantViolation kind detail) else .ok ()

/-! ## Owner bindings -/

structure OwnerLeaseValue where
  worker : WorkerId
  fence : FenceEpoch
deriving DecidableEq, Repr

def encodeOwnerValue (worker : WorkerId) (fence : FenceEpoch) : Bytes :=
  putHeader .shardOwner ++ (putU64 worker.raw ++ putU64 fence)

def decodeOwner : Decoder OwnerLeaseValue := do
  Decoder.expectHeader .shardOwner
  let worker ← Decoder.readU64
  let fence ← Decoder.readU64
  ReadM.reject (fence < FenceEpoch.initial)
    (.invariantViolation "OwnerLeaseValue" "fence must be >= INITIAL")
  Decoder.finish
  return ⟨⟨worker⟩, fence⟩

def runDecoder (decoder : Decoder α) (blob : Bytes) : Except EtcdCodecError α :=
  (decoder blob).map Prod.fst

def decodeOwnerValue (bytes : Bytes) : Except EtcdCodecError OwnerLeaseValue :=
  runDecoder decodeOwner bytes

def decodeBlob (kind : BlobKind) (decode : Decoder α) : Decoder α := do
  Decoder.expectHeader kind
  let owned ← decode
  Decoder.finish
  return owned

/-- No later item equals an earlier one; the pairwise loop of the source. -/
def rejectDuplicates [DecidableEq α] (kind detail : String) :
    List α → Except EtcdCodecError Unit
  | [] => .ok ()
  | a :: rest => do
    violation (a ∈ rest) kind detail
    rejectDuplicates kind detail rest

end GossipRs.Etcd
