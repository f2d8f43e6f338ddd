import GossipRs.Coordination.Record
import GossipRs.Contracts.Manifest

/-! Validation shared by the lease-gated operations: the lease, cursor and idempotency checks, their
errors, and the payload hashes. -/

namespace GossipRs

open Lib Stdx

variable {ε α σ κ ρ : Type}

/-! ## Errors -/

inductive CoordError where
  | shardNotFound (shard : ShardKey)
  | tenantMismatch (expected : TenantId)
  | staleFence (presented current : FenceEpoch)
  | leaseExpired (deadline now : LogicalTime)
  | shardTerminal (shard : ShardKey) (status : ShardStatus)
  | opIdConflict (opId : OpId) (expectedHash actualHash : UInt64)
  | cursorRegression (oldKey newKey : Option Nat)
  | cursorOutOfBounds (lastKey specStart specEnd : Nat)
  | cursorKeyTooLarge (size max : Nat)
  | cursorTokenTooLarge (size max : Nat)
  | splitInvalid (reason : SplitValidationError)
  | checkpointMissingKey
deriving DecidableEq, Repr

/-- The common shape of the per-operation errors: the variants of `CoordError` the operation can
produce, and slab exhaustion if it allocates. -/
inductive ShardOpError where
  | coord (e : CoordError)
  | resourceExhausted (e : SlabFull)
deriving DecidableEq, Repr

abbrev RenewError := ShardOpError
abbrev CheckpointError := ShardOpError
abbrev CompleteError := ShardOpError
abbrev ParkError := ShardOpError
abbrev SplitError := ShardOpError

def RenewError.accepts : CoordError → Bool
  | .shardNotFound .. | .tenantMismatch .. | .staleFence .. | .leaseExpired ..
  | .shardTerminal .. => true
  | _ => false

def ParkError.accepts : CoordError → Bool
  | .opIdConflict .. => true
  | e => RenewError.accepts e

def SplitError.accepts : CoordError → Bool
  | .splitInvalid .. => true
  | e => ParkError.accepts e

def CheckpointError.accepts : CoordError → Bool
  | .splitInvalid .. => false
  | _ => true

def CompleteError.accepts : CoordError → Bool := CheckpointError.accepts

/-- `From<CoordError>`: an accepted variant keeps its fields, the others are unreachable. -/
def fromCoordError (accepts : CoordError → Bool) (x : Run CoordError α) : Run ShardOpError α :=
  x.convertErr accepts .coordErrorRejected .coord

inductive IdempotentOutcome (α : Type) where
  | executed (value : α)
  | replayed (value : α)
deriving DecidableEq, Repr

def IdempotentOutcome.map {β : Type} (f : α → β) : IdempotentOutcome α → IdempotentOutcome β
  | .executed a => .executed (f a)
  | .replayed a => .replayed (f a)

/-! ## Lease, cursor and idempotency checks -/

/-- Tenant, terminal status, fence, expiry, owner, in this order. The tenant of the lease is not
consulted. -/
def validateLease (now : LogicalTime) (tenant : TenantId) (lease : Lease)
    (record : ShardRecord σ κ ρ) : Run CoordError Unit := do
  Outcome.assert (0 < now) .validateLeaseTimeZero
  Outcome.ensure (record.tenant = tenant) (.tenantMismatch tenant)
  Outcome.ensure (record.status.isTerminal = false) (.shardTerminal record.key record.status)
  Outcome.ensure (lease.fence = record.fenceEpoch) (.staleFence lease.fence record.fenceEpoch)
  -- a matching fence without a holder is treated as stale
  let holder ← Outcome.okOr record.lease (.staleFence lease.fence record.fenceEpoch)
  Outcome.ensure (now < holder.deadline) (.leaseExpired holder.deadline now)
  Outcome.ensure (holder.owner = lease.owner) (.staleFence lease.fence record.fenceEpoch)

/-- A checkpoint needs a key within the size limits that does not regress and lies in the shard's
range. -/
def validateCursorUpdatePooled (newCursor : CursorUpdate) (oldLastKey : Option Bytes)
    (specStart specEnd : Bytes) : Run CoordError Unit := do
  let newLastKey ← Outcome.okOr newCursor.lastKey .checkpointMissingKey
  Outcome.ensure (newLastKey.length ≤ maxKeySize)
    (.cursorKeyTooLarge newLastKey.length maxKeySize)
  Outcome.ensure (∀ token ∈ newCursor.token, token.length ≤ maxTokenSize)
    (.cursorTokenTooLarge (newCursor.token.elim 0 List.length) maxTokenSize)
  Outcome.ensure (∀ oldKey ∈ oldLastKey, oldKey ≤ newLastKey)
    (.cursorRegression (oldLastKey.map List.length) (some newLastKey.length))
  Outcome.ensure ((specStart = [] ∨ specStart ≤ newLastKey) ∧ (specEnd = [] ∨ newLastKey < specEnd))
    (.cursorOutOfBounds newLastKey.length specStart.length specEnd.length)

/-- The logged entry of a replay, nothing for a new op id, an error for a reused one. -/
def checkOpIdempotency (record : ShardRecord σ κ ρ) (opId : OpId) (payloadHash : UInt64) :
    Run CoordError (Option OpLogEntry) := do
  Outcome.assert (payloadHash ≠ 0) .payloadHashZero
  match record.opLogLookup opId with
  | none => return none
  | some entry =>
    Outcome.ensure (entry.payloadHash = payloadHash)
      (.opIdConflict opId entry.payloadHash payloadHash)
    return some entry

/-! ## Payload hashes -/

/-- The payload of an idempotent operation, as far as it enters the hash; a manifest in id order. -/
inductive Payload where
  | checkpoint (newCursor : CursorUpdate)
  | complete (finalCursor : CursorUpdate)
  | park (reason : ParkReason)
  | splitReplace (plan : SplitReplacePlan)
  | splitResidual (plan : SplitResidualPlan)
  | registerShards (sorted : List InitialShardInput)
  | completeRun
  | failRun
  | cancelRun
  | unparkShard (key : ShardKey)
deriving DecidableEq

def asciiBytes (s : String) : Bytes := s.toList.map fun c => UInt8.ofNat c.toNat

namespace Payload

def opTag : Payload → Bytes
  | .checkpoint _ => asciiBytes "checkpoint"
  | .complete _ => asciiBytes "complete"
  | .park _ => asciiBytes "park"
  | .splitReplace _ => asciiBytes "split_replace"
  | .splitResidual _ => asciiBytes "split_residual"
  | .registerShards _ => asciiBytes "register_shards"
  | .completeRun => asciiBytes "complete_run"
  | .failRun => asciiBytes "fail_run"
  | .cancelRun => asciiBytes "cancel_run"
  | .unparkShard _ => asciiBytes "unpark_shard"

def canonicalShard (s : InitialShardInput) : Run Empty Bytes :=
  canonicalConcat [return canonicalU64 s.shard.raw, s.spec.canonical, s.cursor.canonical]

def canonicalFields : Payload → Run Empty Bytes
  | .checkpoint newCursor => newCursor.canonical
  | .complete finalCursor => finalCursor.canonical
  | .park reason => return canonicalU8 reason.asU8
  | .splitReplace plan => plan.canonical
  | .splitResidual plan => plan.canonical
  | .registerShards sorted =>
    canonicalConcat ((return canonicalU32 sorted.length) :: sorted.map canonicalShard)
  | .completeRun | .failRun | .cancelRun => return []
  | .unparkShard key => return canonicalU64 key.run.raw ++ canonicalU64 key.shard.raw

def hash (env : Env) (payload : Payload) : Run ε UInt64 := do
  let fields ← payload.canonicalFields.widen
  return env.opPayloadDigest (payload.opTag ++ fields)

/-- The payload of a manifest, in the order `hash_register_shards_payload` writes it. -/
def ofManifest (shards : List InitialShardInput) : Payload := .registerShards (sortByShardId shards)

def HashIs (env : Env) (payload : Payload) (h : UInt64) : Prop :=
  ∃ fields, payload.canonicalFields = .ok fields ∧
    env.opPayloadDigest (payload.opTag ++ fields) = h

theorem hash_eq_ok {payload : Payload} :
    (payload.hash env : Run ε UInt64) = .ok h ↔ payload.HashIs env h := by
  simp [hash, HashIs, Outcome.bind_eq_ok]

theorem HashIs.unique {payload : Payload} (hh : payload.HashIs env h)
    (hh' : payload.HashIs env h') : h = h' := by
  obtain ⟨_, hf, rfl⟩ := hh
  obtain ⟨_, hf', rfl⟩ := hh'
  rw [hf] at hf'
  cases hf'
  rfl

end Payload

end GossipRs
