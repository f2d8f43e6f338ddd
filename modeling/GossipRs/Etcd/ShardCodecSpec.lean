import GossipRs.Etcd.ShardCodec
import GossipRs.Refinement.State

/-! What the shard codec accepts and returns. A blob is accepted exactly when it is the layout of a
valid owned record within the field limits; materializing one gives a record that reads as it, with
an empty token dropped, or leaves the slab as it was. -/

namespace GossipRs.Etcd

open Lib Stdx Outcome List
open Decoder (readEnum readList reads_bool)
open OwnedShardOpLogEntry (fromEntry)
open StagedShardAllocations (new releaseField)
open Decoder (reads_enum reads_u64 reads_list reads_shardId reads_opt reads_vec)
open Prog (wp_seq wp_mono wp_bind wp_lift wp_mapErr)

variable {ε : Type}

/-! ## Parsing -/

namespace OwnedShardOpLogEntry

structure Valid (entry : OwnedShardOpLogEntry) : Prop where
  payloadHash_ne : entry.payloadHash ≠ 0
  executedAt_pos : 0 < entry.executedAt

theorem validate_eq_ok {entry : OwnedShardOpLogEntry} : entry.validate = .ok () ↔ entry.Valid := by
  unfold validate
  rw [except_check_eq_ok, violation_eq_ok, violation_eq_ok, not_le]
  exact ⟨fun ⟨h1, h2⟩ => ⟨h1, h2⟩, fun h => ⟨h.1, h.2⟩⟩

theorem reads_decode : Reads decode encodeInto Valid := by
  have hk : Reads (readEnum "OpKind" opKindFromU8) (fun a => [opKindTag a])
      (fun _ => True) := reads_enum (by decide) (by intro a; cases a <;> simp)
  have hr : Reads (readEnum "OpResult" opResultFromU8) (fun a => [opResultTag a])
      (fun _ => True) := reads_enum (by decide) (by intro a; cases a <;> simp)
  refine (ReadsAs.reads (ReadsAs.field (fun entry => entry.opId.raw) reads_u64 fun opId =>
    .field (·.kind) hk fun kind => .field (·.result) hr fun result =>
    .field (·.payloadHash) reads_u64 fun payloadHash =>
    .field (·.executedAt) reads_u64 fun executedAt =>
    .checked (v := validate) (fun entry => ?_) validate_eq_ok)).congr
      (fun entry => ?_) (fun entry _ => ?_)
  · obtain ⟨⟨raw⟩, _, _, _, _⟩ := entry
    simp [and_assoc]
  · simp
  · rw [encodeInto, append_nil]

theorem intoEntry_eq {entry : OwnedShardOpLogEntry} (h : entry.Valid) :
    entry.intoEntry = .ok ⟨entry.opId, entry.kind, entry.result, entry.payloadHash,
      entry.executedAt, h.executedAt_pos, h.payloadHash_ne⟩ := by
  unfold intoEntry OpLogEntry.new
  rw [validate_eq_ok.mpr h, dif_pos h.executedAt_pos, dif_pos h.payloadHash_ne]

end OwnedShardOpLogEntry

namespace OwnedShardRecord

structure OpLogValid (prev : Option LogicalTime) (log : List OwnedShardOpLogEntry) : Prop where
  nodup : (log.map OwnedShardOpLogEntry.opId).Nodup
  sorted : (prev.toList ++ log.map OwnedShardOpLogEntry.executedAt).IsChain (· ≤ ·)
  valid : ∀ entry ∈ log, entry.Valid

theorem validateOpLog_eq_ok {prev} : validateOpLog prev log = .ok () ↔ OpLogValid prev log := by
  induction log generalizing prev with
  | nil => exact ⟨fun _ => ⟨by simp, by cases prev <;> simp, by simp⟩, fun _ => rfl⟩
  | cons entry rest ih =>
    unfold validateOpLog
    rw [except_check_eq_ok, except_check_eq_ok, except_check_eq_ok, violation_eq_ok,
      violation_eq_ok, OwnedShardOpLogEntry.validate_eq_ok, ih]
    constructor
    · intro ⟨hne, ht, he, hr⟩
      obtain ⟨hn, hs, hv⟩ := opLog_cons_iff.mpr ⟨hne, ht, he, hr.nodup, hr.sorted, hr.valid⟩
      exact ⟨hn, hs, hv⟩
    intro h
    obtain ⟨hne, ht, he, hn, hs, hv⟩ := opLog_cons_iff.mp ⟨h.nodup, h.sorted, h.valid⟩
    exact ⟨hne, ht, he, hn, hs, hv⟩

structure Valid (record : OwnedShardRecord) : Prop where
  parked_iff : record.status = .parked ↔ record.parkReason.isSome
  terminal_unleased : record.status.isTerminal → record.leaseOwner.isNone
  lease_joint : record.leaseOwner.isSome = record.leaseDeadline.isSome
  deadline_pos : ∀ deadline ∈ record.leaseDeadline, 0 < deadline
  fence_pos : FenceEpoch.initial ≤ record.fenceEpoch
  token_key : record.cursorToken.isSome → record.cursorLastKey.isSome
  split_spawned : record.status = .split → record.spawned ≠ []
  parent_iff : record.parent.isSome = record.shard.isDerived
  spawned_le : record.spawned.length ≤ maxSpawnedPerShard
  spawned_derived : ∀ id ∈ record.spawned, id.isDerived
  spawned_nodup : record.spawned.Nodup
  opLog_le : record.opLog.length ≤ ShardRecord.opLogCap
  opLog_valid : OpLogValid none record.opLog

theorem validate_eq_ok {record : OwnedShardRecord} : record.validate = .ok () ↔ record.Valid := by
  unfold validate
  simp only [except_check_eq_ok, violation_eq_ok, rejectDuplicates_eq_ok, validateOpLog_eq_ok]
  constructor
  · intro h
    obtain ⟨h1, h2, h3, h4, h5, h6, h7, h8, h9, h10, h11, h12, h13, h14⟩ := h
    refine ⟨⟨fun h => ?_, fun h => ?_⟩, fun h => ?_, not_not.mp h4, fun d hd => ?_, not_lt.mp h6,
      fun h => ?_, fun h hni => h8 ⟨h, hni⟩, not_not.mp h9, not_lt.mp h10, fun id hid => ?_, h12,
      not_lt.mp h13, h14⟩
    · by_contra hn
      exact h1 ⟨h, by simpa using hn⟩
    · by_contra hne
      exact h2 ⟨hne, h⟩
    · by_contra hso
      exact h3 ⟨h, by simpa [Option.isSome_iff_ne_none] using hso⟩
    · rw [Option.mem_def.mp hd] at h5
      exact not_le.mp (by simpa using h5)
    · by_contra hn
      exact h7 ⟨by simpa using hn, h⟩
    · by_contra hr
      exact h11 ⟨id, hid, by simpa using hr⟩
  · intro h
    refine ⟨fun hp => ?_, fun hp => hp.1 (h.parked_iff.mpr hp.2), fun ht => ?_,
      not_not.mpr h.lease_joint, fun ha => ?_, not_lt.mpr h.fence_pos, fun ht => ?_,
      fun hs => h.split_spawned hs.1 hs.2, not_not.mpr h.parent_iff, not_lt.mpr h.spawned_le,
      fun hr => ?_, h.spawned_nodup, not_lt.mpr h.opLog_le, h.opLog_valid⟩
    · have := h.parked_iff.mp hp.1
      simp_all
    · have := h.terminal_unleased ht.1
      simp_all
    · cases hd : record.leaseDeadline with
      | none =>
        rw [hd] at ha
        cases ha
      | some d =>
        rw [hd] at ha
        exact absurd (h.deadline_pos d hd) (not_lt.mpr (by simpa using ha))
    · have := h.token_key ht.2
      simp_all
    obtain ⟨id, hid, hr⟩ := hr
    have := h.spawned_derived id hid
    simp_all

/-- The presence byte, then owner and deadline; only joint options have a layout. -/
def wireLease (lease : Option WorkerId × Option LogicalTime) : Bytes :=
  match lease with
  | (some owner, some deadline) => 1 :: (putU64 owner.raw ++ putU64 deadline)
  | _ => [0]

theorem reads_lease : Reads readLease wireLease (fun lease => lease.1.isSome = lease.2.isSome) := by
  refine ⟨fun {input lease rest} => ?_⟩
  unfold readLease
  rw [ReadM.bind_eq_ok]
  constructor
  · intro ⟨ha, middle, hb, h⟩
    obtain ⟨-, rfl⟩ := reads_bool.iff.mp hb
    cases ha with
    | false =>
      cases h
      exact ⟨rfl, rfl⟩
    | true =>
      obtain ⟨owner, _, ho, h⟩ := ReadM.bind_eq_ok.mp h
      obtain ⟨deadline, _, hd, h⟩ := ReadM.bind_eq_ok.mp h
      cases h
      obtain ⟨-, rfl⟩ := Decoder.reads_u64.iff.mp ho
      obtain ⟨-, rfl⟩ := Decoder.reads_u64.iff.mp hd
      exact ⟨rfl, by simp [wireLease]⟩
  · intro ⟨hj, he⟩
    subst he
    obtain ⟨owner, deadline⟩ := lease
    cases owner with
    | none =>
      cases deadline with
      | none => exact ⟨false, rest, reads_bool.iff.mpr ⟨trivial, rfl⟩, rfl⟩
      | some deadline => cases hj
    | some owner =>
      cases deadline with
      | none => cases hj
      | some deadline =>
        refine ⟨true, putU64 owner.raw ++ (putU64 deadline ++ rest),
          reads_bool.iff.mpr ⟨trivial, by simp [wireLease]⟩, ?_⟩
        exact ReadM.bind_eq_ok.mpr ⟨owner.raw, _, Decoder.reads_u64.iff.mpr ⟨trivial, rfl⟩,
          ReadM.bind_eq_ok.mpr ⟨deadline, rest, Decoder.reads_u64.iff.mpr ⟨trivial, rfl⟩, rfl⟩⟩

def wire (record : OwnedShardRecord) : Bytes :=
  tenantBytes record.tenant ++ (putU64 record.run.raw ++ (putShardId record.shard ++
    ([statusTag record.status] ++
    (wireOpt (fun reason => [parkReasonTag reason]) record.parkReason ++
    (wireBytes record.keyRangeStart ++ (wireBytes record.keyRangeEnd ++
    (wireBytes record.metadata ++
    (wireOpt wireBytes record.cursorLastKey ++ (wireOpt wireBytes record.cursorToken ++
    ([semanticsTag record.cursorSemantics] ++
    (wireLease (record.leaseOwner, record.leaseDeadline) ++
    (putU64 record.fenceEpoch ++ (wireOpt putShardId record.parent ++
    (wireList putShardId record.spawned ++
    (wireList OwnedShardOpLogEntry.encodeInto record.opLog ++ [])))))))))))))))

structure Bounded (record : OwnedShardRecord) : Prop where
  start_le : record.keyRangeStart.length ≤ maxFieldSize
  end_le : record.keyRangeEnd.length ≤ maxFieldSize
  metadata_le : record.metadata.length ≤ maxFieldSize
  key_le : ∀ key ∈ record.cursorLastKey, key.length ≤ maxFieldSize
  token_le : ∀ token ∈ record.cursorToken, token.length ≤ maxFieldSize

theorem reads_decode : Reads decode wire (fun record => record.Bounded ∧ record.Valid) := by
  have hst : Reads (readEnum "ShardStatus" statusFromU8) (fun a => [statusTag a])
      (fun _ => True) := reads_enum (by decide) (by intro a; cases a <;> simp)
  have hr : Reads (readEnum "ParkReason" parkReasonFromU8)
      (fun a => [parkReasonTag a]) (fun _ => True) :=
    reads_enum (by decide) (by intro a; cases a <;> simp)
  have hs : Reads (readList maxSpawnedPerShard (fun _ =>
      .invariantViolation "ShardRecord" "spawned exceeds MAX_SPAWNED_PER_SHARD")
      Decoder.readShardId) (wireList putShardId)
      (fun ids => ids.length ≤ maxSpawnedPerShard ∧ ∀ id ∈ ids, True) :=
    reads_list (by decide) reads_shardId
  have hl : Reads (readList ShardRecord.opLogCap
      (fun _ => .invariantViolation "ShardRecord" "op_log exceeds cap") OwnedShardOpLogEntry.decode)
      (wireList OwnedShardOpLogEntry.encodeInto)
      (fun log => log.length ≤ ShardRecord.opLogCap ∧ ∀ entry ∈ log, entry.Valid) :=
    reads_list (by decide) OwnedShardOpLogEntry.reads_decode
  refine (ReadsAs.reads (ReadsAs.field (·.tenant) Decoder.reads_tenant fun tenant =>
    .field (fun record => record.run.raw) reads_u64 fun run =>
    .field (·.shard) reads_shardId fun shard => .field (·.status) hst fun status =>
    .field (·.parkReason) (reads_opt hr) fun parkReason =>
    .field (·.keyRangeStart) reads_vec fun keyRangeStart =>
    .field (·.keyRangeEnd) reads_vec fun keyRangeEnd =>
    .field (·.metadata) reads_vec fun metadata =>
    .field (·.cursorLastKey) (reads_opt reads_vec) fun cursorLastKey =>
    .field (·.cursorToken) (reads_opt reads_vec) fun cursorToken =>
    .field (·.cursorSemantics) Decoder.reads_semantics fun cursorSemantics =>
    .field (fun record => (record.leaseOwner, record.leaseDeadline)) reads_lease fun lease =>
    .field (·.fenceEpoch) reads_u64 fun fenceEpoch =>
    .field (·.parent) (reads_opt reads_shardId) fun parent =>
    .field (·.spawned) hs fun spawned => .field (·.opLog) hl fun opLog =>
    .checked (v := validate) (fun record => ?_) validate_eq_ok)).congr
      (fun record => ?_) (fun record _ => by rw [wire])
  · obtain ⟨_, ⟨_⟩, _, _, _, _, _, _, _, _, _, _, _, _, _, _, log⟩ := record
    obtain ⟨_, _⟩ := lease
    simp [and_assoc]
  constructor
  · intro h
    obtain ⟨-, -, -, -, -, hsta, he, hm, hk, ht, -, -, -, -, -, -, hv⟩ := h
    exact ⟨⟨hsta, he, hm, hk, ht⟩, hv⟩
  intro ⟨hb, hv⟩
  exact ⟨trivial, trivial, trivial, trivial, fun _ _ => trivial, hb.start_le, hb.end_le,
    hb.metadata_le, hb.key_le, hb.token_le, trivial, hv.lease_joint, trivial,
    fun _ _ => trivial, ⟨hv.spawned_le, fun _ _ => trivial⟩,
    ⟨hv.opLog_le, hv.opLog_valid.valid⟩, hv⟩

end OwnedShardRecord

/-! ## Records and their owned form -/

namespace OwnedShardRecord

def ofView (r : RecordView) : OwnedShardRecord where
  tenant := r.tenant
  run := r.run
  shard := r.shard
  status := r.status
  parkReason := r.parkReason
  keyRangeStart := r.spec.keyRangeStart
  keyRangeEnd := r.spec.keyRangeEnd
  metadata := r.spec.metadata
  cursorLastKey := r.cursor.lastKey
  cursorToken := r.cursor.token
  cursorSemantics := r.cursorSemantics
  leaseOwner := r.lease.map LeaseHolder.owner
  leaseDeadline := r.lease.map LeaseHolder.deadline
  fenceEpoch := r.fenceEpoch
  parent := r.parent
  spawned := r.spawned
  opLog := r.opLog.map OwnedShardOpLogEntry.fromEntry

theorem injective_fromEntry : Function.Injective fromEntry := by
  intro a b h
  cases a
  cases b
  simpa [fromEntry] using h

theorem ofView_injective : Function.Injective ofView := by
  intro a b h
  have hl : a.lease = b.lease := by
    have ho : a.lease.map LeaseHolder.owner = b.lease.map LeaseHolder.owner :=
      congrArg leaseOwner h
    have hd : a.lease.map LeaseHolder.deadline = b.lease.map LeaseHolder.deadline :=
      congrArg leaseDeadline h
    cases ha : a.lease with
    | none =>
      rw [ha] at ho
      exact (Option.map_eq_none_iff.mp ho.symm).symm
    | some x =>
      rw [ha] at ho hd
      obtain ⟨_, hy, how⟩ := Option.map_eq_some_iff.mp ho.symm
      rw [hy, Option.map_some, Option.map_some, Option.some_inj] at hd
      rw [hy, Option.some_inj]
      cases x
      cases how
      cases hd
      rfl
  have hlo : a.opLog = b.opLog := (map_injective_iff.mpr injective_fromEntry) (congrArg opLog h)
  obtain ⟨_, _, _, _, _, ⟨_, _, _⟩, ⟨_, _⟩, _, lease, _, _, _, _⟩ := a
  cases hl
  cases hlo
  cases h
  rfl

section Reading

variable {debug : Bool} {slab : ByteSlab} {live : Multiset ByteSlot} {record : PooledRecord}

theorem fromRecord_eq (h : Owns debug slab live 0) (hr : record.held ≤ live)
    (hwf : record.spawned.WellFormed) :
    (fromRecord debug record slab : Run ε _) =
      .ok (ofView ((pooledView slab).onRecord record)) := by
  obtain ⟨⟨hs, he, hm⟩, hk, ht⟩ := reads_of_held h hr
  unfold fromRecord PooledShardSpec.asSpecRef PooledCursor.readLastKey PooledCursor.readToken
  rw [hs, he, hm, hk, ht, PooledSpawned.iter_ok h (held_spawned_le hr) hwf]
  rfl

end Reading

structure Encodable (record : OwnedShardRecord) : Prop where
  start_lt : record.keyRangeStart.length < 2 ^ 32
  end_lt : record.keyRangeEnd.length < 2 ^ 32
  metadata_lt : record.metadata.length < 2 ^ 32
  key_lt : ∀ key ∈ record.cursorLastKey, key.length < 2 ^ 32
  token_lt : ∀ token ∈ record.cursorToken, token.length < 2 ^ 32
  spawned_lt : record.spawned.length < 2 ^ 32
  opLog_lt : record.opLog.length < 2 ^ 32
  lease_joint : record.leaseOwner.isSome = record.leaseDeadline.isSome

theorem putLease_eq (h : owner.isSome = deadline.isSome) :
    putLease owner deadline = .ok (wireLease (owner, deadline)) := by
  cases owner <;> cases deadline <;> first | rfl | cases h

theorem encodeInto_eq {record : OwnedShardRecord} (h : record.Encodable) :
    record.encodeInto = .ok record.wire := by
  exact canonicalConcat_cons rfl <| canonicalConcat_cons rfl <| canonicalConcat_cons rfl <|
    canonicalConcat_cons rfl <| canonicalConcat_cons (putOpt_of_ok fun _ _ => rfl) <|
    canonicalConcat_cons (putBytes_of_lt h.start_lt) <|
    canonicalConcat_cons (putBytes_of_lt h.end_lt) <|
    canonicalConcat_cons (putBytes_of_lt h.metadata_lt) <|
    canonicalConcat_cons (putOpt_of_ok fun key hk => putBytes_of_lt (h.key_lt key hk)) <|
    canonicalConcat_cons (putOpt_of_ok fun token ht => putBytes_of_lt (h.token_lt token ht)) <|
    canonicalConcat_cons rfl <| canonicalConcat_cons (putLease_eq h.lease_joint) <|
    canonicalConcat_cons rfl <| canonicalConcat_cons (putOpt_of_ok fun _ _ => rfl) <|
    canonicalConcat_cons (putList_of_ok h.spawned_lt fun _ _ => rfl) <|
    canonicalConcat_cons (putList_of_ok h.opLog_lt fun _ _ => rfl) rfl

end OwnedShardRecord

open OwnedShardRecord in
theorem encodeShardRecord_eq {debug : Bool} {slab : ByteSlab} {live : Multiset ByteSlot}
    {record : PooledRecord} (h : Owns debug slab live 0) (hr : record.held ≤ live)
    (hwf : record.spawned.WellFormed)
    (he : (ofView ((pooledView slab).onRecord record)).Encodable) :
    encodeShardRecord debug record slab =
        .ok (putHeader .shardRecord ++ (ofView ((pooledView slab).onRecord record)).wire) ∧
      encodeShardRecordInto debug record slab =
        .ok (putHeader .shardRecord ++ (ofView ((pooledView slab).onRecord record)).wire) := by
  constructor
  · unfold encodeShardRecord
    rw [fromRecord_eq h hr hwf, ok_bind, encodeInto_eq he]
    rfl
  obtain ⟨⟨hst, hen, hm⟩, hk, ht⟩ :=
    reads_of_held (ε := EtcdCodecError) h hr
  -- what is put from the record in place is what its owned form puts
  have hs : putList (ε := EtcdCodecError) (fun id => return putShardId id)
      (record.spawned.view slab) = (do
      let len ← putLen record.spawned.len
      return len ++ (record.spawned.view slab).flatMap putShardId) := by
    have hid : canonicalConcat ((record.spawned.view slab).map
        fun id => (return putShardId id : Run EtcdCodecError _)) = _ :=
      canonicalConcat_map fun _ _ => rfl
    rw [putList, PooledSpawned.length_view hwf, hid]
    rfl
  have hl : putList (ε := EtcdCodecError)
      (fun entry => return OwnedShardOpLogEntry.encodeInto (.fromEntry entry)) record.opLog =
      putList (fun entry => return OwnedShardOpLogEntry.encodeInto entry)
        (record.opLog.map fromEntry) := by
    simp [putList, Function.comp_def]
  unfold encodeShardRecordInto PooledCursor.readLastKey PooledCursor.readToken
  simp only [hst, hen, hm, hk, ht, PooledSpawned.iter_ok h (held_spawned_le hr) hwf, ok_bind]
  rw [← hs, hl]
  refine bind_eq_ok.mpr ⟨_, (?_ : _ = encodeInto _).trans (encodeInto_eq he), rfl⟩
  dsimp only [encodeInto, ofView, FieldMap.onRecord]
  cases record.lease <;> rfl

/-! ## Materialization -/

namespace OwnedShardRecord

/-- The conditions that are checked only when the fields are allocated. -/
structure Acceptable (record : OwnedShardRecord) : Prop where
  spec : ShardSpec.Valid ⟨record.keyRangeStart, record.keyRangeEnd, record.metadata⟩
  key : ∀ key ∈ record.cursorLastKey, key ≠ [] ∧ key.length ≤ maxKeySize
  token : ∀ token ∈ record.cursorToken, token.length ≤ maxTokenSize

def normalize (record : OwnedShardRecord) : OwnedShardRecord :=
  { record with cursorToken := record.cursorToken.filter (· ≠ []) }

theorem cursorUpdate_eq {record : OwnedShardRecord} (hke : record.cursorToken.isSome →
    record.cursorLastKey.isSome) :
    (∃ update, record.cursorUpdate = .ok update ∧
      update.value = ⟨record.normalize.cursorLastKey, record.normalize.cursorToken⟩ ∧
      (∀ key ∈ record.cursorLastKey, key ≠ [] ∧ key.length ≤ maxKeySize) ∧
      ∀ token ∈ record.cursorToken, token.length ≤ maxTokenSize) ∨
    ∃ e, record.cursorUpdate = .err e ∧
      ¬ ((∀ key ∈ record.cursorLastKey, key ≠ [] ∧ key.length ≤ maxKeySize) ∧
        ∀ token ∈ record.cursorToken, token.length ≤ maxTokenSize) := by
  unfold cursorUpdate normalize
  cases hk : record.cursorLastKey with
  | none =>
    cases ht : record.cursorToken with
    | none => exact .inl ⟨_, rfl, rfl, by simp, by simp⟩
    | some token =>
      rw [hk, ht] at hke
      exact absurd (hke rfl) (by simp)
  | some key =>
    by_cases hn : key = []
    · cases ht : record.cursorToken with
      | none => exact .inr ⟨_, by simp [tryWithLastKey, hn]; rfl, by simp [hn]⟩
      | some token => exact .inr ⟨_, by simp [tryWithToken, hn]; rfl, by simp [hn]⟩
    by_cases hl : maxKeySize < key.length
    · cases ht : record.cursorToken with
      | none =>
        exact .inr ⟨.invalidCursor (.keyTooLarge key.length maxKeySize),
          by simp [tryWithLastKey, dif_neg hn, if_pos hl], by
          simp only [Option.mem_def, Option.some.injEq, forall_eq', not_and]
          exact fun h => absurd h.2 (by omega)⟩
      | some token =>
        exact .inr ⟨.invalidCursor (.keyTooLarge key.length maxKeySize),
          by simp [tryWithToken, dif_neg hn, if_pos hl], by
          simp only [Option.mem_def, Option.some.injEq, forall_eq', not_and]
          exact fun h => absurd h.2 (by omega)⟩
    · cases ht : record.cursorToken with
      | none =>
        refine .inl ⟨CursorUpdate.new key hn,
          by simp [tryWithLastKey, dif_neg hn, if_neg hl], rfl, ?_, by simp⟩
        simpa using ⟨hn, by omega⟩
      | some token =>
        by_cases hb : maxTokenSize < token.length
        · refine .inr ⟨.invalidCursor (.tokenTooLarge token.length maxTokenSize), by
            simp only [tryWithToken, dif_neg hn, if_neg hl, if_pos hb], fun h => ?_⟩
          exact absurd (h.2 token rfl) (by omega)
        refine .inl ⟨CursorUpdate.withToken key token hn, by
          simp only [tryWithToken, dif_neg hn, if_neg hl, if_neg hb], ?_, ?_, ?_⟩
        · by_cases he : token = [] <;>
            simp [CursorUpdate.value, CursorUpdate.withToken, he, Option.filter]
        · simpa using ⟨hn, by omega⟩
        · simpa using Nat.le_of_not_lt hb

theorem intoLease_eq {record : OwnedShardRecord} (h : record.Valid) :
    ∃ lease, record.intoLease = .ok lease ∧ lease.map LeaseHolder.owner = record.leaseOwner ∧
      lease.map LeaseHolder.deadline = record.leaseDeadline := by
  have hj := h.lease_joint
  have hp := h.deadline_pos
  unfold intoLease
  cases ho : record.leaseOwner with
  | none =>
    cases hd : record.leaseDeadline with
    | none => exact ⟨none, rfl, rfl, rfl⟩
    | some deadline =>
      rw [ho, hd] at hj
      cases hj
  | some owner =>
    cases hd : record.leaseDeadline with
    | none =>
      rw [ho, hd] at hj
      cases hj
    | some deadline =>
      have hde : 0 < deadline := hp deadline hd
      exact ⟨some ⟨owner, deadline, hde⟩, by simp only [LeaseHolder.new, dif_pos hde]; rfl,
        rfl, rfl⟩

theorem intoOpLog_eq (log) (hv : ∀ entry ∈ entries, entry.Valid)
    (hl : log.length + entries.length ≤ ShardRecord.opLogCap) :
    ∃ items, intoOpLog entries log = .ok (log ++ items) ∧ items.map fromEntry = entries := by
  refine pushLoop_eq (fun _ => rfl) (fun _ _ _ => rfl) log (fun e he => ?_) hl
  exact ⟨_, OwnedShardOpLogEntry.intoEntry_eq (hv e he), rfl⟩

end OwnedShardRecord

namespace OwnedShardRecord

section Spec

variable {debug : Bool} {slab slab₁ slab₂ : ByteSlab} {live : Multiset ByteSlot}

theorem allocSpawned_spec (h : Owns debug slab live 0) (hl : ids.length ≤ maxSpawnedPerShard) :
    Prog.wp (allocSpawned debug ids) slab
      (fun p slab' => Placed debug slab live p.held slab' ∧ p.view slab' = ids ∧ p.WellFormed)
      (fun _ slab' => slab' = slab) (fun _ => False) := by
  unfold allocSpawned
  by_cases hn : ids = []
  · rw [if_pos hn]
    refine ⟨⟨?_, .refl _ _, rfl⟩, hn.symm, PooledSpawned.wellFormed_new⟩
    rw [show PooledSpawned.new.held = 0 from rfl, zero_add]
    exact h
  rw [if_neg hn]
  refine wp_seq (PooledSpawned.allocateAppendedSlot_spec h (p := PooledSpawned.new)
    (by rw [show PooledSpawned.new.held = 0 from rfl]; exact Multiset.zero_le _)
    PooledSpawned.wellFormed_new hn (by simpa [PooledSpawned.new] using hl))
    (fun staged slab' hs => ?_) (fun _ _ he => he) (fun _ hf => hf)
  obtain ⟨hp, hv, hwf⟩ := hs
  -- the empty list owns no slot, so installing over it releases nothing
  exact ⟨hp, hv, hwf⟩

theorem releaseField_spec {release : α → Prog ByteSlab Panic ε Unit}
    (hr : ∀ a, Owns debug slab (held a + live) 0 → Prog.wp (release a) slab
      (fun _ slab' => Released debug slab live slab') (fun _ _ => False) (MetadataExhausted slab))
    (h : Owns debug slab (field.elim 0 held + live) 0) :
    Prog.wp (releaseField release field) slab
      (fun _ slab' => Released debug slab live slab') (fun _ _ => False)
      (MetadataExhausted slab) := by
  cases field with
  | none => exact Released.refl (by simpa using h)
  | some field => exact hr field h

theorem rollback_spec {staged : StagedShardAllocations}
    (h : Owns debug slab ((staged.spawned.elim 0 PooledSpawned.held) +
      (staged.cursor.elim 0 PooledCursor.held + (staged.spec.elim 0 PooledShardSpec.held + live)))
        0) :
    Prog.wp (staged.rollback debug : Prog ByteSlab Panic ε Unit) slab
      (fun _ slab' => Released debug slab live slab') (fun _ _ => False)
      (MetadataExhausted slab) := by
  refine wp_seq (releaseField_spec (fun _ ho => deallocate_spec ho) h) (fun _ slab1 h1 => ?_)
    (fun _ _ hf => hf) (fun _ hp => hp)
  refine wp_seq (releaseField_spec (fun _ ho => deallocateAll_spec ho) h1.owns)
    (fun _ slab2 h2 => ?_) (fun _ _ hf => hf) (fun _ hp => hp.of_capacity h1.capacity)
  have h12 := h1.trans h2 le_add_self
  refine wp_mono (releaseField_spec (fun _ ho => deallocateAll_spec ho) h2.owns)
    (fun _ slab3 h3 => ?_) (fun _ _ hf => hf) (fun _ hp => hp.of_capacity h12.capacity)
  exact h12.trans h3 le_add_self

def stagedHeld (staged : StagedShardAllocations) : Multiset ByteSlot :=
  (staged.spawned.elim 0 PooledSpawned.held) +
    (staged.cursor.elim 0 PooledCursor.held + staged.spec.elim 0 PooledShardSpec.held)

/-- **Materialization.** A valid and acceptable owned record becomes a record that reads as it;
else, or when the slab is full, everything staged is still there to be rolled back. -/
theorem tryMaterialize_spec {record : OwnedShardRecord} (hv : record.Valid)
    (h : Owns debug slab live 0) :
    Prog.wp (record.tryMaterialize debug) slab
      (fun r slab' => record.Acceptable ∧ Placed debug slab live r.held slab' ∧
        r.spawned.WellFormed ∧ ofView ((pooledView slab').onRecord r) = record.normalize)
      (fun e slab' => Placed debug slab live (stagedHeld e.2) slab' ∧
        ((∃ full, e.1 = .slabFull full) ∨ ¬ record.Acceptable))
      (MetadataExhausted slab) := by
  have hn : stagedHeld new = 0 := rfl
  unfold tryMaterialize withStaged
  rw [wp_bind, wp_lift]
  cases hs : (ShardSpec.mk record.keyRangeStart record.keyRangeEnd record.metadata).validateRef with
  | panic p => exact absurd hs (ShardSpec.noPanic_validateRef _ p)
  | err e =>
    refine ⟨⟨?_, .refl _ _, rfl⟩, .inr fun ha => ?_⟩
    · rw [hn, zero_add]
      exact h
    · rw [(ShardSpec.validateRef_eq_ok (u := ())).mpr ha.spec] at hs
      cases hs
  | ok u =>
    have hsp := ShardSpec.validateRef_eq_ok.mp hs
    rw [mapErr_ok, mapErr_ok, post_ok, wp_bind, wp_mapErr]
    refine wp_mono (PooledShardSpec.fromSpecRef_spec h _) (fun spec slab1 h1 => ?_)
      (fun e slab1 hr => ⟨⟨?_, hr.same, hr.capacity⟩, .inl ⟨e, rfl⟩⟩) (fun _ hp => hp)
    swap
    · rw [hn, zero_add]
      exact hr.owns
    obtain ⟨hp1, hv1⟩ := h1
    have hs1 : stagedHeld { new with spec := some spec } = spec.held := by simp [stagedHeld, new]
    rw [wp_bind, wp_lift]
    rcases cursorUpdate_eq hv.token_key with ⟨update, hu, hva, hc⟩ | ⟨e, hu, hno⟩
    swap
    · rw [hu]
      exact ⟨⟨by rw [hs1]; exact hp1.owns, hp1.same, hp1.capacity⟩,
        .inr fun ha => hno ⟨ha.key, ha.token⟩⟩
    rw [hu, mapErr_ok, post_ok, wp_bind, wp_mapErr]
    refine wp_mono (PooledCursor.fromUpdate_spec hp1.owns update)
      (fun cursor slab2 h2 => ?_) (fun e slab2 hr => ⟨⟨?_, ?_, ?_⟩, .inl ⟨e, rfl⟩⟩)
      (fun _ hp => hp.of_capacity hp1.capacity)
    · obtain ⟨hp2, hv2⟩ := h2
      have hst2 : stagedHeld { new with
          spec := some spec, cursor := some cursor } = cursor.held + spec.held := by
        simp [stagedHeld, new]
      have hs2 : ByteSlab.SameReads live slab slab2 :=
        hp1.same.trans (hp2.same.mono le_add_self)
      have hc2 := hp2.capacity.trans hp1.capacity
      rw [wp_bind, wp_mapErr]
      refine wp_mono (allocSpawned_spec hp2.owns hv.spawned_le)
        (fun spawned slab3 h3 => ?_) (fun e slab3 he => ⟨⟨?_, ?_, ?_⟩, .inl ⟨e, rfl⟩⟩)
        (fun _ hf => hf.elim)
      · obtain ⟨hp3, hv3, hwf⟩ := h3
        obtain ⟨_, hit, hm⟩ := intoOpLog_eq [] hv.opLog_valid.valid (by simpa using hv.opLog_le)
        obtain ⟨_, hl, ho, hd⟩ := intoLease_eq hv
        rw [wp_bind, wp_lift, hit, mapErr_ok, post_ok, wp_bind, wp_lift, hl, mapErr_ok, post_ok]
        have hs3 : spec.view slab3 = ⟨record.keyRangeStart, record.keyRangeEnd,
          record.metadata⟩ := by
          rw [PooledShardSpec.view_congr hp3.same (le_self_add.trans le_add_self),
            PooledShardSpec.view_congr hp2.same le_self_add, hv1]
        have hc3 : cursor.view slab3 = update.value := by
          rw [PooledCursor.view_congr hp3.same le_self_add, hv2]
        refine ⟨⟨hsp, hc.1, hc.2⟩, ⟨?_, ?_, ?_⟩, hwf, ?_⟩
        · have how := hp3.owns
          rw [ShardRecord.held]
          have hpe : spec.held + cursor.held + spawned.held + live =
              spawned.held + (cursor.held + (spec.held + live)) := by abel
          exact hpe ▸ how
        · exact hs2.trans (hp3.same.mono (le_add_self.trans le_add_self))
        · exact hp3.capacity.trans hc2
        unfold ofView FieldMap.onRecord pooledView
        simp only [hs3, hc3, hv3, hva, ho, hd, nil_append, hm]
        rfl
      · subst he
        rw [hst2, add_assoc]
        exact hp2.owns
      · subst he
        exact hs2
      · subst he
        exact hc2
    · rw [hs1]
      exact hr.owns
    · exact hp1.same.trans (hr.same.mono le_add_self)
    · exact hr.capacity.trans hp1.capacity

theorem intoRecord_spec {record : OwnedShardRecord} (h : Owns debug slab live 0) :
    Prog.wp (record.intoRecord debug) slab
      (fun r slab' => record.Valid ∧ record.Acceptable ∧ Placed debug slab live r.held slab' ∧
        r.spawned.WellFormed ∧ ofView ((pooledView slab').onRecord r) = record.normalize)
      (fun e slab' => Released debug slab live slab' ∧
        ((∃ full, e = .slabFull full) ∨ ¬ (record.Valid ∧ record.Acceptable)))
      (MetadataExhausted slab) := by
  unfold intoRecord
  cases hv : record.validate with
  | error e =>
    refine ⟨Released.refl h, .inr fun ha => ?_⟩
    rw [validate_eq_ok.mpr ha.1] at hv
    cases hv
  | ok u =>
    have hva := validate_eq_ok.mp hv
    rw [Prog.wp_onErr]
    refine wp_mono (tryMaterialize_spec hva h) (fun r slab' hr => ⟨hva, hr⟩)
      (fun e slab1 he => ?_) (fun _ hp => hp)
    obtain ⟨hpl, hw⟩ := he
    have ho := hpl.owns
    rw [stagedHeld, add_assoc, add_assoc] at ho
    refine wp_seq (rollback_spec ho) (fun _ slab2 h2 => ?_) (fun _ _ hf => hf.elim)
      (fun _ hp => hp.of_capacity hpl.capacity)
    refine ⟨⟨h2.owns, hpl.same.trans h2.same, h2.capacity.trans hpl.capacity⟩, ?_⟩
    exact hw.imp_right fun hn ha => hn ha.2

end Spec

end OwnedShardRecord

end GossipRs.Etcd
