import GossipRs.Etcd.CodecSpec
import GossipRs.Coordination.Invariants

/-! The codec of run records. -/

namespace GossipRs.Etcd

open Lib Stdx List
open Decoder (reads_shardIds reads_enum reads_u64 reads_opt)

variable {ε : Type}

/-! ## Op log entries -/

inductive OwnedRunOpResult where
  | registeredShards (shardIds : List ShardId)
  | ack
deriving DecidableEq, Repr

namespace OwnedRunOpResult

def fromResult : RunOpResult → OwnedRunOpResult
  | .registeredShards shardIds => .registeredShards shardIds
  | .ack => .ack

def intoResult : OwnedRunOpResult → RunOpResult
  | .registeredShards shardIds => .registeredShards shardIds
  | .ack => .ack

def encodeInto : OwnedRunOpResult → Run ε Bytes
  | .registeredShards shardIds => do
    let ids ← putList (fun id => return putShardId id) shardIds
    return 1 :: ids
  | .ack => return [2]

def decode : Decoder OwnedRunOpResult := do
  let tag ← Decoder.readU8
  if tag = 1 then
    let shardIds ← Decoder.readShardIds maxRegisteredShards "RunOpResult"
      "RegisteredShards length exceeds remaining wire bytes"
    return .registeredShards shardIds
  else if tag = 2 then return .ack
  else throw (.invalidEnum "RunOpResultTag" tag)

end OwnedRunOpResult

structure OwnedRunOpLogEntry where
  opId : OpId
  kind : RunOpKind
  payloadHash : UInt64
  executedAt : LogicalTime
  result : OwnedRunOpResult
deriving DecidableEq

namespace OwnedRunOpLogEntry

def fromEntry (entry : RunOpLogEntry) : OwnedRunOpLogEntry where
  opId := entry.opId
  kind := entry.kind
  payloadHash := entry.payloadHash
  executedAt := entry.executedAt
  result := .fromResult entry.result

def encodeInto (entry : OwnedRunOpLogEntry) : Run ε Bytes :=
  canonicalConcat [return putU64 entry.opId.raw, return [runOpKindTag entry.kind],
    return putU64 entry.payloadHash, return putU64 entry.executedAt, entry.result.encodeInto]

def validate (entry : OwnedRunOpLogEntry) : Except EtcdCodecError Unit := do
  violation (entry.payloadHash = 0) "RunOpLogEntry" "payload_hash must be non-zero"
  violation (entry.executedAt ≤ 0) "RunOpLogEntry" "executed_at must be > ZERO"
  match entry.kind, entry.result with
  | .registerShards, .registeredShards _ => .ok ()
  | .registerShards, .ack =>
    .error (.invariantViolation "RunOpLogEntry" "RegisterShards must use RegisteredShards result")
  | _, .ack => .ok ()
  | _, .registeredShards _ =>
    .error (.invariantViolation "RunOpLogEntry" "non-RegisterShards entry must use Ack result")

def decode : Decoder OwnedRunOpLogEntry := do
  let opId ← Decoder.readU64
  let kind ← Decoder.readEnum "RunOpKind" runOpKindFromU8
  let payloadHash ← Decoder.readU64
  let executedAt ← Decoder.readU64
  let result ← OwnedRunOpResult.decode
  let owned : OwnedRunOpLogEntry := ⟨⟨opId⟩, kind, payloadHash, executedAt, result⟩
  ReadM.ofExcept owned.validate
  return owned

def intoEntry (entry : OwnedRunOpLogEntry) : Run EtcdCodecError RunOpLogEntry := do
  match entry.validate with
  | .error e => .err e
  | .ok () =>
    RunOpLogEntry.new entry.opId entry.kind entry.payloadHash entry.executedAt
      entry.result.intoResult

end OwnedRunOpLogEntry

/-! ## Records -/

structure OwnedRunRecord where
  tenant : TenantId
  run : RunId
  cursorSemantics : CursorSemantics
  leaseDuration : UInt64
  maxShardRetries : Option UInt32
  status : RunStatus
  createdAt : LogicalTime
  completedAt : Option LogicalTime
  rootShards : List ShardId
  opLog : List OwnedRunOpLogEntry
deriving DecidableEq

namespace OwnedRunRecord

def fromRecord (record : RunRecord) : OwnedRunRecord where
  tenant := record.tenant
  run := record.run
  cursorSemantics := record.config.cursorSemantics
  leaseDuration := record.config.leaseDuration
  maxShardRetries := record.config.maxShardRetries
  status := record.status
  createdAt := record.createdAt
  completedAt := record.completedAt
  rootShards := record.rootShards
  opLog := record.opLog.map OwnedRunOpLogEntry.fromEntry

def encodeInto (record : OwnedRunRecord) : Run ε Bytes :=
  canonicalConcat [return tenantBytes record.tenant, return putU64 record.run.raw,
    return [semanticsTag record.cursorSemantics], return putU64 record.leaseDuration,
    putOpt (fun n => return putU32 n) record.maxShardRetries, return [runStatusTag record.status],
    return putU64 record.createdAt, putOpt (fun t => return putU64 t) record.completedAt,
    putList (fun id => return putShardId id) record.rootShards,
    putList OwnedRunOpLogEntry.encodeInto record.opLog]

def validateOpLog : Option LogicalTime → List OwnedRunOpLogEntry → Except EtcdCodecError Unit
  | _, [] => .ok ()
  | prev, entry :: rest => do
    violation (entry.opId ∈ rest.map OwnedRunOpLogEntry.opId) "RunRecord"
      "op_log must not contain duplicate OpId values"
    violation (prev.any (entry.executedAt < ·)) "RunRecord"
      "op_log timestamps must be non-decreasing"
    entry.validate
    validateOpLog (some entry.executedAt) rest

def validate (record : OwnedRunRecord) : Except EtcdCodecError Unit := do
  violation (record.createdAt ≤ 0) "RunRecord" "created_at must be > ZERO"
  violation (record.leaseDuration = 0) "RunRecord" "lease_duration must be > 0"
  violation (record.status = .active ∧ record.rootShards = []) "RunRecord"
    "Active run must have at least one root shard"
  violation (record.status = .initializing ∧ record.rootShards ≠ []) "RunRecord"
    "Initializing run must not have root shards"
  violation (record.status.isTerminal ≠ record.completedAt.isSome) "RunRecord"
    "completed_at presence must match terminal status"
  violation (record.completedAt.any (· < record.createdAt)) "RunRecord"
    "completed_at must be >= created_at"
  violation (RunRecord.opLogCap < record.opLog.length) "RunRecord" "op_log exceeds cap"
  rejectDuplicates "RunRecord" "root_shards must not contain duplicates" record.rootShards
  validateOpLog none record.opLog

def decode : Decoder OwnedRunRecord := do
  let tenant ← Decoder.readTenant
  let run ← Decoder.readU64
  let cursorSemantics ← Decoder.readEnum "CursorSemantics" semanticsFromU8
  let leaseDuration ← Decoder.readU64
  let maxShardRetries ← Decoder.readOpt Decoder.readU32
  let status ← Decoder.readEnum "RunStatus" runStatusFromU8
  let createdAt ← Decoder.readU64
  let completedAt ← Decoder.readOpt Decoder.readU64
  let rootShards ← Decoder.readShardIds maxRootShards "RunRecord"
    "root_shards length exceeds remaining wire bytes"
  let opLog ← Decoder.readList RunRecord.opLogCap
    (fun _ => .invariantViolation "RunRecord" "op_log exceeds cap") OwnedRunOpLogEntry.decode
  let owned : OwnedRunRecord := ⟨tenant, ⟨run⟩, cursorSemantics, leaseDuration, maxShardRetries,
    status, createdAt, completedAt, rootShards, opLog⟩
  ReadM.ofExcept owned.validate
  return owned

def intoOpLog : List OwnedRunOpLogEntry → List RunOpLogEntry →
    Run EtcdCodecError (List RunOpLogEntry)
  | [], log => return log
  | entry :: rest, log => do
    let e ← entry.intoEntry
    intoOpLog rest (pushOverwrite RunRecord.opLogCap log e)

def intoRecord (record : OwnedRunRecord) : Run EtcdCodecError RunRecord := do
  match record.validate with
  | .error e => .err e
  | .ok () =>
    if h : record.leaseDuration ≠ 0 then do
      let opLog ← intoOpLog record.opLog []
      return {
        tenant := record.tenant
        run := record.run
        config := ⟨record.cursorSemantics, record.leaseDuration, record.maxShardRetries, h⟩
        status := record.status
        createdAt := record.createdAt
        completedAt := record.completedAt
        rootShards := record.rootShards
        opLog }
    else .err (.invariantViolation "RunRecord" "lease_duration must be > 0")

end OwnedRunRecord

def encodeRunRecord (record : RunRecord) : Run ε Bytes := do
  let body ← (OwnedRunRecord.fromRecord record).encodeInto
  return putHeader .runRecord ++ body

def decodeRunRecord (blob : Bytes) : Run EtcdCodecError RunRecord :=
  match runDecoder (decodeBlob .runRecord OwnedRunRecord.decode) blob with
  | .error e => .err e
  | .ok owned => owned.intoRecord

/-! ## What is accepted -/

namespace OwnedRunOpResult

def wire : OwnedRunOpResult → Bytes
  | .registeredShards shardIds => 1 :: wireList putShardId shardIds
  | .ack => [2]

def Bounded : OwnedRunOpResult → Prop
  | .registeredShards shardIds => shardIds.length ≤ maxRegisteredShards
  | .ack => True

theorem reads_decode : Reads decode wire Bounded := by
  have hid : Reads (Decoder.readShardIds maxRegisteredShards "RunOpResult"
      "RegisteredShards length exceeds remaining wire bytes") (wireList putShardId)
      (fun ids => ids.length ≤ maxRegisteredShards) := reads_shardIds (by decide)
  refine ⟨fun {input result rest} => ?_⟩
  unfold decode
  rw [ReadM.bind_eq_ok]
  constructor
  · intro ⟨tag, middle, ht, h⟩
    obtain ⟨-, rfl⟩ := Decoder.reads_u8.iff.mp ht
    by_cases h1 : tag = 1
    · rw [if_pos h1] at h
      obtain ⟨ids, _, hr, h⟩ := ReadM.bind_eq_ok.mp h
      cases h
      obtain ⟨hl, rfl⟩ := hid.iff.mp hr
      exact ⟨hl, by rw [h1]; rfl⟩
    rw [if_neg h1] at h
    by_cases h2 : tag = 2
    · rw [if_pos h2] at h
      cases h
      exact ⟨trivial, by rw [h2]; rfl⟩
    · rw [if_neg h2] at h
      cases h
  · intro ⟨hl, he⟩
    subst he
    cases result with
    | registeredShards ids =>
      refine ⟨1, wireList putShardId ids ++ rest, Decoder.reads_u8.iff.mpr ⟨trivial, rfl⟩, ?_⟩
      exact ReadM.bind_eq_ok.mpr ⟨ids, rest, hid.iff.mpr ⟨hl, rfl⟩, rfl⟩
    | ack => exact ⟨2, rest, Decoder.reads_u8.iff.mpr ⟨trivial, rfl⟩, rfl⟩

theorem encodeInto_eq {result : OwnedRunOpResult} (h : result.Bounded) :
    (result.encodeInto : Run ε Bytes) = .ok result.wire := by
  cases result with
  | registeredShards ids =>
    have hl : ids.length ≤ maxRegisteredShards := h
    have hmax : maxRegisteredShards < 2 ^ 32 := by decide
    have hp : (putList (fun id => return putShardId id) ids : Run ε Bytes) =
        .ok (wireList putShardId ids) := putList_of_ok (by omega) fun _ _ => rfl
    rw [encodeInto, hp]
    rfl
  | ack => rfl

theorem fromResult_intoResult (result) : fromResult result.intoResult = result := by
  cases result <;> rfl

end OwnedRunOpResult

namespace OwnedRunOpLogEntry

def wire (entry : OwnedRunOpLogEntry) : Bytes :=
  putU64 entry.opId.raw ++ ([runOpKindTag entry.kind] ++ (putU64 entry.payloadHash ++
    (putU64 entry.executedAt ++ (entry.result.wire ++ []))))

structure Valid (entry : OwnedRunOpLogEntry) : Prop where
  payloadHash_ne : entry.payloadHash ≠ 0
  executedAt_pos : 0 < entry.executedAt
  result_matches : entry.result.intoResult.matchesKind entry.kind = true

theorem validate_eq_ok {entry : OwnedRunOpLogEntry} :
    entry.validate = .ok () ↔ entry.Valid := by
  have hm : (match entry.kind, entry.result with
      | .registerShards, .registeredShards _ => (.ok () : Except EtcdCodecError Unit)
      | .registerShards, .ack => .error (.invariantViolation "RunOpLogEntry"
          "RegisterShards must use RegisteredShards result")
      | _, .ack => .ok ()
      | _, .registeredShards _ => .error (.invariantViolation "RunOpLogEntry"
          "non-RegisterShards entry must use Ack result")) = .ok () ↔
      entry.result.intoResult.matchesKind entry.kind = true := by
    cases entry.kind <;> cases entry.result <;>
      simp [OwnedRunOpResult.intoResult, RunOpResult.matchesKind]
  unfold validate
  rw [except_check_eq_ok, except_check_eq_ok, violation_eq_ok, violation_eq_ok, hm,
    not_le]
  exact ⟨fun ⟨h1, h2, h3⟩ => ⟨h1, h2, h3⟩, fun h => ⟨h.1, h.2, h.3⟩⟩

theorem reads_decode : Reads decode wire (fun entry => entry.result.Bounded ∧ entry.Valid) := by
  have hk : Reads (Decoder.readEnum "RunOpKind" runOpKindFromU8) (fun a => [runOpKindTag a])
      (fun _ => True) :=
    reads_enum (by decide) (by intro a; cases a <;> simp)
  refine (ReadsAs.reads (ReadsAs.field (fun entry => entry.opId.raw) reads_u64 fun opId =>
    .field (·.kind) hk fun kind => .field (·.payloadHash) reads_u64 fun payloadHash =>
    .field (·.executedAt) reads_u64 fun executedAt =>
    .field (·.result) OwnedRunOpResult.reads_decode fun result =>
    .checked (v := validate) (fun entry => ?_) validate_eq_ok)).congr
      (fun entry => ?_) (fun entry _ => rfl)
  · obtain ⟨⟨raw⟩, _, _, _, _⟩ := entry
    simp [and_assoc]
  · simp

theorem encodeInto_eq {entry : OwnedRunOpLogEntry} (h : entry.result.Bounded) :
    (entry.encodeInto : Run ε Bytes) = .ok entry.wire := by
  exact canonicalConcat_cons rfl <| canonicalConcat_cons rfl <| canonicalConcat_cons rfl <|
    canonicalConcat_cons rfl <| canonicalConcat_cons (OwnedRunOpResult.encodeInto_eq h) rfl

theorem intoEntry_eq {entry : OwnedRunOpLogEntry} (h : entry.Valid) :
    entry.intoEntry = .ok ⟨entry.opId, entry.kind, entry.payloadHash, entry.executedAt,
      entry.result.intoResult, h.payloadHash_ne, h.executedAt_pos, h.result_matches⟩ := by
  unfold intoEntry RunOpLogEntry.new
  rw [validate_eq_ok.mpr h, dif_pos h.payloadHash_ne, dif_pos h.executedAt_pos,
    dif_pos h.result_matches]

end OwnedRunOpLogEntry

namespace OwnedRunRecord

def wire (record : OwnedRunRecord) : Bytes :=
  tenantBytes record.tenant ++ (putU64 record.run.raw ++ ([semanticsTag record.cursorSemantics] ++
    (putU64 record.leaseDuration ++ (wireOpt putU32 record.maxShardRetries ++
    ([runStatusTag record.status] ++ (putU64 record.createdAt ++
    (wireOpt putU64 record.completedAt ++ (wireList putShardId record.rootShards ++
    (wireList OwnedRunOpLogEntry.wire record.opLog ++ [])))))))))

structure OpLogValid (prev : Option LogicalTime) (log : List OwnedRunOpLogEntry) : Prop where
  nodup : (log.map OwnedRunOpLogEntry.opId).Nodup
  sorted : (prev.toList ++ log.map OwnedRunOpLogEntry.executedAt).IsChain (· ≤ ·)
  valid : ∀ entry ∈ log, entry.Valid

theorem validateOpLog_eq_ok {prev} : validateOpLog prev log = .ok () ↔ OpLogValid prev log := by
  induction log generalizing prev with
  | nil => exact ⟨fun _ => ⟨by simp, by cases prev <;> simp, by simp⟩, fun _ => rfl⟩
  | cons entry rest ih =>
    unfold validateOpLog
    rw [except_check_eq_ok, except_check_eq_ok, except_check_eq_ok, violation_eq_ok,
      violation_eq_ok, OwnedRunOpLogEntry.validate_eq_ok, ih]
    constructor
    · intro ⟨hne, ht, he, hr⟩
      obtain ⟨hn, hs, hv⟩ := opLog_cons_iff.mpr ⟨hne, ht, he, hr.nodup, hr.sorted, hr.valid⟩
      exact ⟨hn, hs, hv⟩
    intro h
    obtain ⟨hne, ht, he, hn, hs, hv⟩ := opLog_cons_iff.mp ⟨h.nodup, h.sorted, h.valid⟩
    exact ⟨hne, ht, he, hn, hs, hv⟩

structure Valid (record : OwnedRunRecord) : Prop where
  createdAt_pos : 0 < record.createdAt
  leaseDuration_ne : record.leaseDuration ≠ 0
  active_rooted : record.status = .active → record.rootShards ≠ []
  initializing_rootless : record.status = .initializing → record.rootShards = []
  completed_iff : record.status.isTerminal = record.completedAt.isSome
  completed_after : record.completedAt.any (· < record.createdAt) = false
  opLog_le : record.opLog.length ≤ RunRecord.opLogCap
  roots_nodup : record.rootShards.Nodup
  opLog_valid : OpLogValid none record.opLog

theorem validate_eq_ok {record : OwnedRunRecord} : record.validate = .ok () ↔ record.Valid := by
  unfold validate
  simp only [except_check_eq_ok, violation_eq_ok, rejectDuplicates_eq_ok,
    validateOpLog_eq_ok, not_le, not_and, not_not, ne_eq, not_lt, Bool.not_eq_true]
  constructor
  · intro h
    obtain ⟨h1, h2, h3, h4, h5, h6, h7, h8, h9⟩ := h
    exact ⟨h1, h2, h3, h4, h5, h6, h7, h8, h9⟩
  · intro h
    exact ⟨h.1, h.2, h.3, h.4, h.5, h.6, h.7, h.8, h.9⟩

structure Bounded (record : OwnedRunRecord) : Prop where
  roots_le : record.rootShards.length ≤ maxRootShards
  results : ∀ entry ∈ record.opLog, entry.result.Bounded

theorem reads_decode : Reads decode wire (fun record => record.Bounded ∧ record.Valid) := by
  have hs : Reads (Decoder.readEnum "RunStatus" runStatusFromU8) (fun a => [runStatusTag a])
      (fun _ => True) :=
    reads_enum (by decide) (by intro a; cases a <;> simp)
  have hr : Reads (Decoder.readShardIds maxRootShards "RunRecord"
      "root_shards length exceeds remaining wire bytes") (wireList putShardId)
      (fun ids => ids.length ≤ maxRootShards) := reads_shardIds (by decide)
  have hl : Reads (Decoder.readList RunRecord.opLogCap
      (fun _ => .invariantViolation "RunRecord" "op_log exceeds cap") OwnedRunOpLogEntry.decode)
      (wireList OwnedRunOpLogEntry.wire) (fun log => log.length ≤ RunRecord.opLogCap ∧
        ∀ entry ∈ log, entry.result.Bounded ∧ entry.Valid) :=
    Decoder.reads_list (by decide) OwnedRunOpLogEntry.reads_decode
  refine (ReadsAs.reads (ReadsAs.field (·.tenant) Decoder.reads_tenant fun tenant =>
    .field (fun record => record.run.raw) reads_u64 fun run =>
    .field (·.cursorSemantics) Decoder.reads_semantics fun semantics =>
    .field (·.leaseDuration) reads_u64 fun leaseDuration =>
    .field (·.maxShardRetries) (reads_opt Decoder.reads_u32) fun maxShardRetries =>
    .field (·.status) hs fun status =>
    .field (·.createdAt) reads_u64 fun createdAt =>
    .field (·.completedAt) (reads_opt reads_u64) fun completedAt =>
    .field (·.rootShards) hr fun rootShards => .field (·.opLog) hl fun opLog =>
    .checked (v := validate) (fun record => ?_) validate_eq_ok)).congr
      (fun record => ?_) (fun record _ => by rw [wire])
  · obtain ⟨_, ⟨_⟩, _, _, _, _, _, _, _, log⟩ := record
    simp [and_assoc]
  constructor
  · intro h
    obtain ⟨-, -, -, -, -, -, -, -, hr, ⟨-, ha⟩, hv⟩ := h
    exact ⟨⟨hr, fun entry he => (ha entry he).1⟩, hv⟩
  intro ⟨hb, hv⟩
  refine ⟨trivial, trivial, trivial, trivial, fun _ _ => trivial, trivial, trivial,
    fun _ _ => trivial, hb.roots_le, ⟨hv.opLog_le, ?_⟩, hv⟩
  exact fun entry he => ⟨hb.results entry he, hv.opLog_valid.valid entry he⟩

end OwnedRunRecord

/-! ## Into records -/

namespace OwnedRunRecord

theorem intoOpLog_eq (log) (hv : ∀ entry ∈ entries, entry.Valid)
    (hl : log.length + entries.length ≤ RunRecord.opLogCap) :
    ∃ items, intoOpLog entries log = .ok (log ++ items) ∧
      items.map OwnedRunOpLogEntry.fromEntry = entries := by
  refine pushLoop_eq (fun _ => rfl) (fun _ _ _ => rfl) log (fun e he => ?_) hl
  refine ⟨_, OwnedRunOpLogEntry.intoEntry_eq (hv e he), ?_⟩
  rw [OwnedRunOpLogEntry.fromEntry, OwnedRunOpResult.fromResult_intoResult]

theorem Valid.invariant (h : (fromRecord record).Valid) : record.Invariant := by
  have hc : ∀ completed ∈ record.completedAt, record.createdAt ≤ completed := by
    intro completed hm
    have := h.completed_after
    rw [fromRecord, Option.mem_def.mp hm] at this
    exact not_lt.mp (by simpa using this)
  refine {
    active_roots := h.active_rooted
    completed_terminal := h.completed_iff.symm
    created_pos := h.createdAt_pos
    initializing_roots := h.initializing_rootless
    created_le := hc
    roots_nodup := h.roots_nodup
    opLog_le := ?_
    opLog_nodup := ?_
    opLog_ordered := ?_
    opLog_matches := fun entry _ => entry.result_matches }
  · have := h.opLog_le
    rwa [fromRecord, length_map] at this
  · have := h.opLog_valid.nodup
    rwa [fromRecord, map_map] at this
  have := h.opLog_valid.sorted
  rw [fromRecord, map_map, Option.toList_none, nil_append, isChain_map] at this
  exact this

theorem intoRecord_eq (h : owned.Valid) :
    ∃ record, owned.intoRecord = .ok record ∧ fromRecord record = owned := by
  obtain ⟨_, hit, hm⟩ := intoOpLog_eq [] h.opLog_valid.valid (by simpa using h.opLog_le)
  unfold intoRecord
  rw [validate_eq_ok.mpr h]
  simp only [dif_pos h.leaseDuration_ne, hit, Outcome.ok_bind, nil_append]
  refine ⟨_, rfl, ?_⟩
  unfold fromRecord
  simp [hm]

theorem encodeInto_eq {record : OwnedRunRecord} (h : record.Bounded)
    (hl : record.opLog.length ≤ RunRecord.opLogCap) :
    (record.encodeInto : Run ε Bytes) = .ok record.wire := by
  have hro : (putList (fun id => return putShardId id) record.rootShards : Run ε Bytes) =
      .ok (wireList putShardId record.rootShards) := by
    have hmax : maxRootShards < 2 ^ 32 := by decide
    have := h.roots_le
    exact putList_of_ok (by omega) fun _ _ => rfl
  have hen : (putList OwnedRunOpLogEntry.encodeInto record.opLog : Run ε Bytes) =
      .ok (wireList OwnedRunOpLogEntry.wire record.opLog) := by
    have hca : RunRecord.opLogCap < 2 ^ 32 := by decide
    exact putList_of_ok (by omega) fun entry he =>
      OwnedRunOpLogEntry.encodeInto_eq (h.results entry he)
  have hr : (putOpt (fun n => return putU32 n) record.maxShardRetries : Run ε Bytes) =
      .ok (wireOpt putU32 record.maxShardRetries) := putOpt_of_ok fun _ _ => rfl
  have hc : (putOpt (fun t => return putU64 t) record.completedAt : Run ε Bytes) =
      .ok (wireOpt putU64 record.completedAt) := putOpt_of_ok fun _ _ => rfl
  exact canonicalConcat_cons rfl <| canonicalConcat_cons rfl <| canonicalConcat_cons rfl <|
    canonicalConcat_cons rfl <| canonicalConcat_cons hr <| canonicalConcat_cons rfl <|
    canonicalConcat_cons rfl <| canonicalConcat_cons hc <| canonicalConcat_cons hro <|
    canonicalConcat_cons hen rfl

end OwnedRunRecord

/-- **Run records decode exactly.** A blob is refused, or it is the encoding of the record returned,
which satisfies its invariants. -/
theorem decodeRunRecord_canonical (blob) :
    (∃ e, decodeRunRecord blob = .err e) ∨
      ∃ record, decodeRunRecord blob = .ok record ∧ record.Invariant ∧
        (encodeRunRecord record : Run ε Bytes) = .ok blob := by
  unfold decodeRunRecord
  cases hr : runDecoder (decodeBlob .runRecord OwnedRunRecord.decode) blob with
  | error e => exact .inl ⟨e, rfl⟩
  | ok owned =>
    obtain ⟨⟨hb, hv⟩, rfl⟩ :=
      (runDecodeBlob_eq_ok OwnedRunRecord.reads_decode).mp hr
    obtain ⟨record, hin, rfl⟩ := OwnedRunRecord.intoRecord_eq hv
    refine .inr ⟨record, hin, hv.invariant, ?_⟩
    unfold encodeRunRecord
    rw [OwnedRunRecord.encodeInto_eq hb hv.opLog_le]
    rfl

end GossipRs.Etcd
