import GossipRs.Panic
import GossipRs.Lib.Word

/-! Identities of the coordination layer and the canonical bytes that feed the payload and split-id
digests. The digests (BLAKE3, truncated to 64 bits) are parameters of the build; results that rest
on a property of theirs state it as a hypothesis. -/

namespace GossipRs

open Lib

/-- What a build fixes: whether debug assertions are compiled in, and the two 64-bit digests. -/
structure Env where
  debug : Bool
  opPayloadDigest : Bytes → UInt64
  splitIdDigest : Bytes → UInt64

/-- A tenant is 32 opaque bytes. -/
structure TenantId where
  raw : BitVec 256
deriving DecidableEq, Repr

structure RunId where
  raw : UInt64
deriving DecidableEq, Repr

@[ext] structure ShardId where
  raw : UInt64
deriving DecidableEq, Repr

structure WorkerId where
  raw : UInt64
deriving DecidableEq, Repr

structure OpId where
  raw : UInt64
deriving DecidableEq, Repr

structure ShardKey where
  run : RunId
  shard : ShardId
deriving DecidableEq, Repr

abbrev FenceEpoch := UInt64

abbrev LogicalTime := UInt64

instance : LinearOrder ShardId :=
  LinearOrder.lift' ShardId.raw fun _ _ => ShardId.ext

/-- Split-derived shard ids have bit 63 set; root ids have it clear. -/
def ShardId.isDerived (id : ShardId) : Bool := id.raw >>> 63 != 0

namespace FenceEpoch

def zero : FenceEpoch := 0

def initial : FenceEpoch := 1

def increment {ε : Type} (fence : FenceEpoch) : Run ε FenceEpoch := do
  Outcome.assert (fence.toNat + 1 < 2 ^ 64) .fenceEpochOverflow
  return fence + 1

theorem increment_eq_ok :
    (increment fence : Run ε FenceEpoch) = .ok next ↔
      fence.toNat + 1 < 2 ^ 64 ∧ fence + 1 = next := by
  simp [increment, Outcome.bind_eq_ok]

end FenceEpoch

/-- `now + duration`, or the largest time when the sum does not fit. -/
def LogicalTime.saturatingAdd (now : LogicalTime) (duration : UInt64) : LogicalTime :=
  if now.toNat + duration.toNat < 2 ^ 64 then now + duration else UInt64.ofNat (2 ^ 64 - 1)

/-! ## Canonical bytes -/

def canonicalU8 (n : Nat) : Bytes := leBytes 1 n
def canonicalU32 (n : Nat) : Bytes := leBytes 4 n
def canonicalU64 (n : UInt64) : Bytes := leBytes 8 n.toNat

/-- Bytes with a 4-byte length in front; longer slices are refused by an `expect`. -/
def canonicalSlice {ε : Type} (data : Bytes) : Run ε Bytes := do
  Outcome.assert (data.length < 2 ^ 32) .canonicalSliceTooLarge
  return canonicalU32 data.length ++ data

def canonicalConcat {ε : Type} : List (Run ε Bytes) → Run ε Bytes
  | [] => return []
  | part :: rest => do
    let a ← part
    let b ← canonicalConcat rest
    return a ++ b

end GossipRs
