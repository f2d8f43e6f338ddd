import GossipRs.Etcd.CodecSpec
import GossipRs.Coordination.Invariants

/-! The codec of shard records. A blob is parsed and validated; then the pooled fields are allocated
one after the other, and a failure gives those already made back. -/

namespace GossipRs.Etcd

open Lib Stdx

variable {ε : Type}

structure OwnedShardOpLogEntry where
  opId : OpId
  kind : OpKind
  result : OpResult
  payloadHash : UInt64
  executedAt : LogicalTime
deriving DecidableEq

namespace OwnedShardOpLogEntry

def fromEntry (entry : OpLogEntry) : OwnedShardOpLogEntry where
  opId := entry.opId
  kind := entry.kind
  result := entry.result
  payloadHash := entry.payloadHash
  executedAt := entry.executedAt

def encodeInto (entry : OwnedShardOpLogEntry) : Bytes :=
  putU64 entry.opId.raw ++ ([opKindTag entry.kind] ++ ([opResultTag entry.result] ++
    (putU64 entry.payloadHash ++ putU64 entry.executedAt)))

def validate (entry : OwnedShardOpLogEntry) : Except EtcdCodecError Unit := do
  violation (entry.payloadHash = 0) "OpLogEntry" "payload_hash must be non-zero"
  violation (entry.executedAt ≤ 0) "OpLogEntry" "executed_at must be > ZERO"

def decode : Decoder OwnedShardOpLogEntry := do
  let opId ← Decoder.readU64
  let kind ← Decoder.readEnum "OpKind" opKindFromU8
  let result ← Decoder.readEnum "OpResult" opResultFromU8
  let payloadHash ← Decoder.readU64
  let executedAt ← Decoder.readU64
  let owned : OwnedShardOpLogEntry := ⟨⟨opId⟩, kind, result, payloadHash, executedAt⟩
  ReadM.ofExcept owned.validate
  return owned

def intoEntry (entry : OwnedShardOpLogEntry) : Run EtcdCodecError OpLogEntry :=
  match entry.validate with
  | .error e => .err e
  | .ok () =>
    OpLogEntry.new entry.opId entry.kind entry.result entry.payloadHash entry.executedAt

end OwnedShardOpLogEntry

structure OwnedShardRecord where
  tenant : TenantId
  run : RunId
  shard : ShardId
  status : ShardStatus
  parkReason : Option ParkReason
  keyRangeStart : Bytes
  keyRangeEnd : Bytes
  metadata : Bytes
  cursorLastKey : Option Bytes
  cursorToken : Option Bytes
  cursorSemantics : CursorSemantics
  leaseOwner : Option WorkerId
  leaseDeadline : Option LogicalTime
  fenceEpoch : FenceEpoch
  parent : Option ShardId
  spawned : List ShardId
  opLog : List OwnedShardOpLogEntry
deriving DecidableEq

namespace OwnedShardRecord

def fromRecord (debug : Bool) (record : PooledRecord) (slab : ByteSlab) :
    Run ε OwnedShardRecord := do
  let spec ← record.spec.asSpecRef debug slab
  let cursorLastKey ← record.cursor.readLastKey debug slab
  let cursorToken ← record.cursor.readToken debug slab
  let spawned ← record.spawned.iter debug slab
  return {
    tenant := record.tenant
    run := record.run
    shard := record.shard
    status := record.status
    parkReason := record.parkReason
    keyRangeStart := spec.keyRangeStart
    keyRangeEnd := spec.keyRangeEnd
    metadata := spec.metadata
    cursorLastKey, cursorToken
    cursorSemantics := record.cursorSemantics
    leaseOwner := record.lease.map LeaseHolder.owner
    leaseDeadline := record.lease.map LeaseHolder.deadline
    fenceEpoch := record.fenceEpoch
    parent := record.parent
    spawned
    opLog := record.opLog.map OwnedShardOpLogEntry.fromEntry }

/-- Owner and deadline stand behind one presence byte; one without the other is refused. -/
def putLease (owner : Option WorkerId) (deadline : Option LogicalTime) :
    Run EtcdCodecError Bytes :=
  match owner, deadline with
  | some owner, some deadline => return 1 :: (putU64 owner.raw ++ putU64 deadline)
  | none, none => return [0]
  | _, _ => .err (.invariantViolation "ShardRecord"
      "lease owner and deadline must be jointly present or absent")

def encodeInto (record : OwnedShardRecord) : Run EtcdCodecError Bytes :=
  canonicalConcat [return tenantBytes record.tenant, return putU64 record.run.raw,
    return putShardId record.shard, return [statusTag record.status],
    putOpt (fun reason => return [parkReasonTag reason]) record.parkReason,
    putBytes record.keyRangeStart, putBytes record.keyRangeEnd, putBytes record.metadata,
    putOpt putBytes record.cursorLastKey, putOpt putBytes record.cursorToken,
    return [semanticsTag record.cursorSemantics],
    putLease record.leaseOwner record.leaseDeadline, return putU64 record.fenceEpoch,
    putOpt (fun parent => return putShardId parent) record.parent,
    putList (fun id => return putShardId id) record.spawned,
    putList (fun entry => return OwnedShardOpLogEntry.encodeInto entry) record.opLog]

def validateOpLog : Option LogicalTime → List OwnedShardOpLogEntry → Except EtcdCodecError Unit
  | _, [] => .ok ()
  | prev, entry :: rest => do
    violation (entry.opId ∈ rest.map OwnedShardOpLogEntry.opId) "ShardRecord"
      "op_log must not contain duplicate OpId values"
    violation (prev.any (entry.executedAt < ·)) "ShardRecord"
      "op_log timestamps must be non-decreasing"
    entry.validate
    validateOpLog (some entry.executedAt) rest

def validate (record : OwnedShardRecord) : Except EtcdCodecError Unit := do
  violation (record.status = .parked ∧ record.parkReason.isNone) "ShardRecord"
    "Parked shard must have park_reason"
  violation (record.status ≠ .parked ∧ record.parkReason.isSome) "ShardRecord"
    "non-Parked shard must not have park_reason"
  violation (record.status.isTerminal ∧ record.leaseOwner.isSome) "ShardRecord"
    "terminal shard must not have a lease"
  violation (record.leaseOwner.isSome ≠ record.leaseDeadline.isSome) "ShardRecord"
    "lease owner and deadline must either both be present or both absent"
  violation (record.leaseDeadline.any (· ≤ 0)) "ShardRecord"
    "lease deadline must be > ZERO when present"
  violation (record.fenceEpoch < FenceEpoch.initial) "ShardRecord" "fence_epoch must be >= INITIAL"
  violation (record.cursorLastKey.isNone ∧ record.cursorToken.isSome) "ShardRecord"
    "cursor token without cursor last_key is invalid"
  violation (record.status = .split ∧ record.spawned = []) "ShardRecord"
    "Split shard must have spawned children"
  violation (record.parent.isSome ≠ record.shard.isDerived) "ShardRecord"
    "parent presence must match shard derived-bit"
  violation (maxSpawnedPerShard < record.spawned.length) "ShardRecord"
    "spawned exceeds MAX_SPAWNED_PER_SHARD"
  violation (∃ id ∈ record.spawned, id.isDerived = false) "ShardRecord"
    "all spawned shard ids must be derived"
  rejectDuplicates "ShardRecord" "spawned must not contain duplicate ShardId values" record.spawned
  violation (ShardRecord.opLogCap < record.opLog.length) "ShardRecord" "op_log exceeds cap"
  validateOpLog none record.opLog

def readLease : Decoder (Option WorkerId × Option LogicalTime) := do
  let hasLease ← Decoder.readBool
  if hasLease then
    let owner ← Decoder.readU64
    let deadline ← Decoder.readU64
    return (some ⟨owner⟩, some deadline)
  else return (none, none)

def decode : Decoder OwnedShardRecord := do
  let tenant ← Decoder.readTenant
  let run ← Decoder.readU64
  let shard ← Decoder.readShardId
  let status ← Decoder.readEnum "ShardStatus" statusFromU8
  let parkReason ← Decoder.readOpt (Decoder.readEnum "ParkReason" parkReasonFromU8)
  let keyRangeStart ← Decoder.readVec
  let keyRangeEnd ← Decoder.readVec
  let metadata ← Decoder.readVec
  let cursorLastKey ← Decoder.readOpt Decoder.readVec
  let cursorToken ← Decoder.readOpt Decoder.readVec
  let cursorSemantics ← Decoder.readEnum "CursorSemantics" semanticsFromU8
  let lease ← readLease
  let fenceEpoch ← Decoder.readU64
  let parent ← Decoder.readOpt Decoder.readShardId
  let spawned ← Decoder.readList maxSpawnedPerShard
    (fun _ => .invariantViolation "ShardRecord" "spawned exceeds MAX_SPAWNED_PER_SHARD")
    Decoder.readShardId
  let opLog ← Decoder.readList ShardRecord.opLogCap
    (fun _ => .invariantViolation "ShardRecord" "op_log exceeds cap") OwnedShardOpLogEntry.decode
  let owned : OwnedShardRecord := ⟨tenant, ⟨run⟩, shard, status, parkReason, keyRangeStart,
    keyRangeEnd, metadata, cursorLastKey, cursorToken, cursorSemantics, lease.1, lease.2,
    fenceEpoch, parent, spawned, opLog⟩
  ReadM.ofExcept owned.validate
  return owned

end OwnedShardRecord

def tryWithLastKey (lastKey : Bytes) : Except CursorInputError CursorUpdate :=
  if h : lastKey = [] then .error .emptyLastKey
  else if maxKeySize < lastKey.length then .error (.keyTooLarge lastKey.length maxKeySize)
  else .ok (CursorUpdate.new lastKey h)

/-- `CursorUpdate::try_with_token`: an empty token counts as none. -/
def tryWithToken (lastKey token : Bytes) : Except CursorInputError CursorUpdate :=
  if h : lastKey = [] then .error .emptyLastKey
  else if maxKeySize < lastKey.length then .error (.keyTooLarge lastKey.length maxKeySize)
  else if maxTokenSize < token.length then .error (.tokenTooLarge token.length maxTokenSize)
  else .ok (CursorUpdate.withToken lastKey token h)

structure StagedShardAllocations where
  spec : Option PooledShardSpec
  cursor : Option PooledCursor
  spawned : Option PooledSpawned

namespace StagedShardAllocations

def new : StagedShardAllocations := ⟨none, none, none⟩

def releaseField {α : Type} (release : α → Prog ByteSlab Panic ε Unit) :
    Option α → Prog ByteSlab Panic ε Unit
  | some field => release field
  | none => return

def rollback (debug : Bool) (staged : StagedShardAllocations) : Prog ByteSlab Panic ε Unit := do
  releaseField (PooledSpawned.releaseFields debug) staged.spawned
  releaseField (PooledCursor.releaseFields debug) staged.cursor
  releaseField (PooledShardSpec.releaseFields debug) staged.spec

end StagedShardAllocations

namespace OwnedShardRecord

def cursorUpdate (record : OwnedShardRecord) : Run EtcdCodecError CursorUpdate :=
  match record.cursorLastKey, record.cursorToken with
  | none, none => .ok CursorUpdate.initial
  | some lastKey, none =>
    match tryWithLastKey lastKey with
    | .ok update => .ok update
    | .error e => .err (.invalidCursor e)
  | some lastKey, some token =>
    match tryWithToken lastKey token with
    | .ok update => .ok update
    | .error e => .err (.invalidCursor e)
  | none, some _ => .err (.invariantViolation "ShardRecord"
      "cursor token without cursor last_key is invalid")

def intoLease (record : OwnedShardRecord) : Run EtcdCodecError (Option LeaseHolder) :=
  match record.leaseOwner, record.leaseDeadline with
  | some owner, some deadline => do
    let holder ← LeaseHolder.new owner deadline
    return some holder
  | none, none => return none
  | _, _ => .err (.invariantViolation "ShardRecord"
      "lease owner and deadline must either both be present or both absent")

def intoOpLog : List OwnedShardOpLogEntry → List OpLogEntry → Run EtcdCodecError (List OpLogEntry)
  | [], log => return log
  | entry :: rest, log => do
    let e ← entry.intoEntry
    intoOpLog rest (pushOverwrite ShardRecord.opLogCap log e)

abbrev Staging := Prog ByteSlab Panic (EtcdCodecError × StagedShardAllocations)

def withStaged {α : Type} (staged : StagedShardAllocations) (x : Run EtcdCodecError α) :
    Staging α :=
  Prog.lift (x.mapErr fun e => (e, staged))

def allocSpawned (debug : Bool) (ids : List ShardId) :
    Prog ByteSlab Panic SlabFull PooledSpawned := do
  if ids = [] then return PooledSpawned.new
  else
    let staged ← PooledSpawned.new.allocateAppendedSlot debug ids
    PooledSpawned.new.installSlot debug staged

def tryMaterialize (debug : Bool) (record : OwnedShardRecord) : Staging PooledRecord := do
  let specRef : ShardSpec := ⟨record.keyRangeStart, record.keyRangeEnd, record.metadata⟩
  let staged := StagedShardAllocations.new
  withStaged staged (specRef.validateRef.mapErr .invalidSpec)
  let spec ← (PooledShardSpec.fromSpecRef debug specRef).mapErr fun e => (.slabFull e, staged)
  let staged := { staged with spec := some spec }
  let update ← withStaged staged record.cursorUpdate
  let cursor ← (PooledCursor.fromUpdate debug update).mapErr fun e => (.slabFull e, staged)
  let staged := { staged with cursor := some cursor }
  let spawned ← (allocSpawned debug record.spawned).mapErr fun e => (.slabFull e, staged)
  let staged := { staged with spawned := some spawned }
  let opLog ← withStaged staged (intoOpLog record.opLog [])
  let lease ← withStaged staged record.intoLease
  return {
    tenant := record.tenant
    run := record.run
    shard := record.shard
    status := record.status
    parkReason := record.parkReason
    spec, cursor
    cursorSemantics := record.cursorSemantics
    lease
    fenceEpoch := record.fenceEpoch
    parent := record.parent
    spawned, opLog }

def intoRecord (debug : Bool) (record : OwnedShardRecord) :
    Prog ByteSlab Panic EtcdCodecError PooledRecord :=
  match record.validate with
  | .error e => Prog.throw e
  | .ok () => (record.tryMaterialize debug).onErr fun (e, staged) => do
    staged.rollback debug
    return e

end OwnedShardRecord

def encodeShardRecord (debug : Bool) (record : PooledRecord) (slab : ByteSlab) :
    Run EtcdCodecError Bytes := do
  let owned ← OwnedShardRecord.fromRecord debug record slab
  let body ← owned.encodeInto
  return putHeader .shardRecord ++ body

def encodeShardRecordInto (debug : Bool) (record : PooledRecord) (slab : ByteSlab) :
    Run EtcdCodecError Bytes := do
  let body ← canonicalConcat [return tenantBytes record.tenant, return putU64 record.run.raw,
    return putShardId record.shard, return [statusTag record.status],
    putOpt (fun reason => return [parkReasonTag reason]) record.parkReason,
    slab.get debug record.spec.keyRangeStart >>= putBytes,
    slab.get debug record.spec.keyRangeEnd >>= putBytes,
    slab.get debug record.spec.metadata >>= putBytes,
    record.cursor.readLastKey debug slab >>= putOpt putBytes,
    record.cursor.readToken debug slab >>= putOpt putBytes,
    return [semanticsTag record.cursorSemantics],
    return match record.lease with
      | some lease => 1 :: (putU64 lease.owner.raw ++ putU64 lease.deadline)
      | none => [0],
    return putU64 record.fenceEpoch,
    putOpt (fun parent => return putShardId parent) record.parent,
    (do
      let len ← putLen record.spawned.len
      let ids ← record.spawned.iter debug slab
      return len ++ ids.flatMap putShardId),
    putList (fun entry => return OwnedShardOpLogEntry.encodeInto (.fromEntry entry)) record.opLog]
  return putHeader .shardRecord ++ body

def decodeShardRecord (debug : Bool) (blob : Bytes) :
    Prog ByteSlab Panic EtcdCodecError PooledRecord :=
  match runDecoder (decodeBlob .shardRecord OwnedShardRecord.decode) blob with
  | .error e => Prog.throw e
  | .ok owned => owned.intoRecord debug

end GossipRs.Etcd
