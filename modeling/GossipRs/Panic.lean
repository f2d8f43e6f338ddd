import GossipRs.Lib.Outcome

/-! The assertion, `expect` and overflow sites of the modelled crates. A call that reaches one
unwinds, and no later call sees the coordinator again. -/

namespace GossipRs

open Lib

inductive Panic where
  -- arithmetic checked by the build
  | arithmeticOverflow
  -- byte slab
  | slabCapacityTooLarge
  | slotForeignOwner
  | slotLenExceedsAlloc
  | slotBeyondBump
  | slabIndexOutOfRange
  | slabFreeBlockInsertedTwice
  | slabFreeBytes
  | slabLiveBytes
  | slabLiveCount
  | slabSplitOffset
  | slabCoalescedSize
  | slabPoisonCorrupted
  | slabDoubleFree
  | slabFreeListMetadataExhausted
  | slabInvariant (n : Nat)
  -- identities and canonical encodings
  | canonicalSliceTooLarge
  | canonicalCountTooLarge
  | fenceEpochOverflow
  -- pooled fields
  | spawnedLength
  | spawnedAdditionalEmpty
  | spawnedCap
  -- leases, op log entries and shard records
  | leaseDeadlineZero
  | leaseFenceUnassigned
  | opLogTimeZero
  | opLogHashZero
  | opLogDuplicate
  | opLogOverflow
  | illegalTransition
  | shardInvariant (n : Nat)
  -- validation
  | coordErrorRejected
  | validateLeaseTimeZero
  | payloadHashZero
  -- splits
  | splitChildrenEmpty
  | splitChildCountMismatch
  | splitReplayTooFewSpawned
  | residualReplayMissing
  -- runs
  | runOpLogResultKind
  | runInvariant (n : Nat)
  | illegalRunTransition
  | progressInvariant
  | progressOverflow
  | progressLeasedInactive
  | progressKeyTooLarge
  | progressKeyEmpty
  | summaryKeyTooLarge
  -- coordinator tables
  | shardCountDrift
  | shardCountUnderflow
  | runIndexDesynchronized
  | runIndexTooLarge
  | availableCountOverflow
  | scratchSpec
  | scratchCursorKey
  | scratchCursorToken
  | scratchSpawned
  -- construction
  | cooldownExceedsLease
  -- run management
  | replayKindMismatch
  | replayResultMissing
  | runRecordMissing
  | registerKeyCollision
  | limitErrorRejected
  -- claims
  | claimCandidateMissing
  | claimIndexInconsistent
  | claimTimeBackward
  -- etcd codec
  | codecLength
  -- split coverage
  | coverageIndex
  | coverageStart
  | coverageEnd
deriving DecidableEq, Repr

abbrev Run (ε α : Type) := Outcome Panic ε α

/-- Abort at site `p` in a build with debug assertions unless `c` holds. -/
def debugAssert {ε : Type} (debug : Bool) (c : Prop) [Decidable c] (p : Panic) : Run ε Unit :=
  Outcome.assert (debug = false ∨ c) p

/-- `u32` addition by the plain operator: checked in debug builds, wrapping otherwise. -/
def addU32 {ε : Type} (debug : Bool) (a b : Nat) : Run ε Nat :=
  if a + b < 2 ^ 32 then .ok (a + b)
  else if debug then .panic .arithmeticOverflow
  else .ok ((a + b) % 2 ^ 32)

@[simp] theorem debugAssert_of_true [Decidable c] (h : c) :
    (debugAssert debug c p : Run ε Unit) = .ok () :=
  Outcome.assert_of_true (.inr h)

end GossipRs
