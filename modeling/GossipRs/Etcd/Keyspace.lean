import GossipRs.Coordination.Validation
import GossipRs.Lib.Digits

/-! The key layout of the etcd backend: one key for each record, ownership, index and counter under
a namespace, the scan prefixes, and the parsers that read ids back. -/

namespace GossipRs.Etcd

open Lib

/-! ## Hex -/

def hexLut : Bytes := asciiBytes "0123456789abcdef"

def hexChar (d : Nat) : UInt8 := hexLut.getD d 0

def encodeHex (bytes : Bytes) : Bytes :=
  bytes.flatMap fun byte => [hexChar (byte.toNat / 16), hexChar (byte.toNat % 16)]

/-- A 64-bit number as sixteen characters, zero padded. -/
def hexU64 (n : UInt64) : Bytes := (beDigits 16 16 n.toNat).map hexChar

def tenantBytes (tenant : TenantId) : Bytes := (beDigits 256 32 tenant.raw.toNat).map UInt8.ofNat

def tenantHex (tenant : TenantId) : Bytes := encodeHex (tenantBytes tenant)

def runHex (run : RunId) : Bytes := hexU64 run.raw

def shardHex (shard : ShardId) : Bytes := hexU64 shard.raw

def isHexChar (c : UInt8) : Bool := (48 ≤ c && c ≤ 57) || (97 ≤ c && c ≤ 102)

def hexValue (c : UInt8) : Nat := if c ≤ 57 then c.toNat - 48 else c.toNat - 87

/-- Sixteen lowercase hex characters as a number; anything else is refused. -/
def parseHexU64 (suffix : Bytes) : Option UInt64 :=
  if suffix.length = 16 ∧ suffix.all isHexChar then
    some (UInt64.ofNat (ofBeDigits 16 (suffix.map hexValue)))
  else none

/-! ## Keys -/

def slash : Bytes := asciiBytes "/"

inductive EtcdKeyspaceError where
  | emptyPrefix
  | prefixMustStartWithSlash
  | prefixMustNotEndWithSlash
  | prefixContainsDoubleSlash
deriving DecidableEq, Repr

/-- A namespace that passed the checks of `new`. -/
structure EtcdKeyspace where
  root : Bytes
  absolute : slash <+: root
  no_trailing_slash : slash <:+ root → root.length ≤ 1
  no_double_slash : ¬ slash ++ slash <:+: root

/-- The whitespace of Unicode, as `char::is_whitespace` has it. -/
def isWhitespace (c : Char) : Bool :=
  let n := c.toNat
  9 ≤ n && n ≤ 13 || n == 0x20 || n == 0x85 || n == 0xa0 || n == 0x1680 ||
    0x2000 ≤ n && n ≤ 0x200a || n == 0x2028 || n == 0x2029 || n == 0x202f || n == 0x205f ||
    n == 0x3000

/-- The text without the whitespace around it, in UTF-8. -/
def trim (text : String) : Bytes :=
  ((text.toList.dropWhile isWhitespace).rdropWhile isWhitespace).flatMap String.utf8EncodeChar

def EtcdKeyspace.new (text : String) : Except EtcdKeyspaceError EtcdKeyspace :=
  let root := trim text
  if root = [] then .error .emptyPrefix
  else if habs : slash <+: root then
    if htrail : slash <:+ root → root.length ≤ 1 then
      if hdouble : slash ++ slash <:+: root then .error .prefixContainsDoubleSlash
      else .ok ⟨root, habs, htrail, hdouble⟩
    else .error .prefixMustNotEndWithSlash
  else .error .prefixMustStartWithSlash

namespace EtcdKeyspace

variable (ks : EtcdKeyspace)

def joinNamespace (segment : Bytes) : Bytes :=
  if ks.root = slash then slash ++ segment else ks.root ++ slash ++ segment

def tenantsPrefix : Bytes := ks.joinNamespace (asciiBytes "tenants")

def tenantPrefix (tenant : TenantId) : Bytes := ks.tenantsPrefix ++ slash ++ tenantHex tenant

def tenantShardCountKey (tenant : TenantId) : Bytes :=
  ks.tenantPrefix tenant ++ asciiBytes "/shard_count"

def runsPrefix (tenant : TenantId) : Bytes := ks.tenantPrefix tenant ++ asciiBytes "/runs"

def runRecordsScanPrefix (tenant : TenantId) : Bytes := ks.runsPrefix tenant ++ slash

def runRecordKey (tenant : TenantId) (run : RunId) : Bytes :=
  ks.runsPrefix tenant ++ slash ++ runHex run

def runShardsPrefix (tenant : TenantId) (run : RunId) : Bytes :=
  ks.runRecordKey tenant run ++ asciiBytes "/shards"

def shardRecordsScanPrefix (tenant : TenantId) (run : RunId) : Bytes :=
  ks.runShardsPrefix tenant run ++ slash

def shardRecordKey (tenant : TenantId) (run : RunId) (shard : ShardId) : Bytes :=
  ks.runShardsPrefix tenant run ++ slash ++ shardHex shard

def shardOwnerKey (tenant : TenantId) (run : RunId) (shard : ShardId) : Bytes :=
  ks.shardRecordKey tenant run shard ++ asciiBytes "/owner"

def runsActivePrefix (tenant : TenantId) : Bytes :=
  ks.tenantPrefix tenant ++ asciiBytes "/runs_active"

def runActiveIndexKey (tenant : TenantId) (run : RunId) : Bytes :=
  ks.runsActivePrefix tenant ++ slash ++ runHex run

def shardsActivePrefix (tenant : TenantId) (run : RunId) : Bytes :=
  ks.runRecordKey tenant run ++ asciiBytes "/shards_active"

def shardActiveIndexKey (tenant : TenantId) (run : RunId) (shard : ShardId) : Bytes :=
  ks.shardsActivePrefix tenant run ++ slash ++ shardHex shard

end EtcdKeyspace

/-! ## Parsers -/

/-- The rest of `key` behind a leading part. -/
def stripFront (front key : Bytes) : Option Bytes :=
  if front <+: key then some (key.drop front.length) else none

def stripBack (back key : Bytes) : Option Bytes :=
  if back <:+ key then some (key.take (key.length - back.length)) else none

def parseDirectHexU64Child (front key : Bytes) : Option UInt64 := do
  let suffix ← stripFront front key
  parseHexU64 suffix

def parseDirectRunId (front key : Bytes) : Option RunId :=
  (parseDirectHexU64Child front key).map RunId.mk

def parseDirectShardId (front key : Bytes) : Option ShardId :=
  (parseDirectHexU64Child front key).map ShardId.mk

def parseOwnedShard (shardsScanPrefix key : Bytes) : Option ShardId := do
  let suffix ← stripFront shardsScanPrefix key
  let hex ← stripBack (asciiBytes "/owner") suffix
  let n ← parseHexU64 hex
  return ⟨n⟩

inductive PersistedShardSubtreeKey where
  | record
  | owner
deriving DecidableEq, Repr

def afterLast (segment : Bytes) : Bytes → Option Bytes
  | [] => none
  | c :: rest =>
    match afterLast segment rest with
    | some suffix => some suffix
    | none => stripFront segment (c :: rest)

def PersistedShardSubtreeKey.classify (key : Bytes) : Option PersistedShardSubtreeKey := do
  let suffix ← afterLast (asciiBytes "/shards/") key
  if (parseHexU64 suffix).isSome then return .record
  else
    let hex ← stripBack (asciiBytes "/owner") suffix
    let _ ← parseHexU64 hex
    return .owner

end GossipRs.Etcd
