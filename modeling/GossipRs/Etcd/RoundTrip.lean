import GossipRs.Abstract.Records
import GossipRs.Etcd.SlabSizing
import GossipRs.Refinement.Step

/-! Which records of a running coordinator survive being stored and read back. -/

namespace GossipRs.Etcd

open Lib Stdx OwnedShardRecord Outcome List

variable {env : Env} {s : Coordinator} {r : RecordView}

structure Portable (r : RecordView) : Prop where
  log_ordered : (r.opLog.map OpLogEntry.executedAt).IsChain (· ≤ ·)
  key_le : ∀ key ∈ r.cursor.lastKey, key.length ≤ maxKeySize
  token_le : ∀ token ∈ r.cursor.token, token.length ≤ maxTokenSize
  spawned_nodup : r.spawned.Nodup

theorem portable_of_valid (hv : (ofView r).Valid) (ha : (ofView r).Acceptable) : Portable r where
  log_ordered := by
    have := hv.opLog_valid.sorted
    rw [ofView, map_map, Option.toList_none, nil_append] at this
    exact this
  key_le key hkey := (ha.key key hkey).2
  token_le := ha.token
  spawned_nodup := hv.spawned_nodup

theorem valid_of_portable {tenant} (hr : r.WellMade tenant key) (hp : Portable r) :
    (ofView r).Valid where
  parked_iff := hr.invariant.parked_iff
  terminal_unleased ht := by
    have := hr.invariant.terminal_unleased ht
    simpa [ofView] using this
  lease_joint := by simp [ofView]
  deadline_pos deadline hd := by
    obtain ⟨ho, -, rfl⟩ := Option.map_eq_some_iff.mp hd
    exact ho.deadline_pos
  fence_pos := hr.invariant.fence_pos
  token_key := hr.cursor_wellFormed.key_of_token
  split_spawned hs hnil := hr.invariant.split_spawned hs (length_eq_zero_iff.mpr hnil)
  parent_iff := by
    rw [Bool.eq_iff_iff]
    exact ⟨hr.invariant.parent_derived, hr.invariant.derived_parent⟩
  spawned_le := hr.invariant.spawned_le
  spawned_derived := hr.invariant.spawned_derived
  spawned_nodup := hp.spawned_nodup
  opLog_le := by
    rw [ofView, length_map]
    exact hr.invariant.opLog_le
  opLog_valid := by
    refine ⟨?_, ?_, fun entry hm => ?_⟩
    · rw [ofView, map_map]
      exact hr.invariant.opLog_nodup
    · rw [ofView, map_map, Option.toList_none, nil_append]
      exact hp.log_ordered
    · obtain ⟨logged, -, rfl⟩ := mem_map.mp hm
      exact ⟨logged.payloadHash_ne, logged.executedAt_pos⟩

theorem acceptable_of_portable {tenant} (hr : r.WellMade tenant key) (hp : Portable r) :
    (ofView r).Acceptable where
  spec := hr.spec_valid
  key key hk := ⟨hr.cursor_wellFormed.key_ne_nil key hk, hp.key_le key hk⟩
  token := hp.token_le

theorem bounded_of_acceptable {owned : OwnedShardRecord} (h : owned.Acceptable) :
    owned.Bounded where
  start_le := h.spec.start_le.trans (by decide)
  end_le := h.spec.end_le.trans (by decide)
  metadata_le := h.spec.metadata_le.trans (by decide)
  key_le key hkey := (h.key key hkey).2.trans (by decide)
  token_le token htoken := (h.token token htoken).trans (by decide)

theorem blobOf_of_portable {tenant} (hr : r.WellMade tenant key) (hp : Portable r) :
    BlobOf (ofView r) (putHeader .shardRecord ++ (ofView r).wire) where
  bounded := bounded_of_acceptable (acceptable_of_portable hr hp)
  valid := valid_of_portable hr hp
  acceptable := acceptable_of_portable hr hp
  layout := rfl

theorem acceptable_normalize {owned : OwnedShardRecord} (h : owned.Acceptable) :
    owned.normalize.Acceptable where
  spec := h.spec
  key := h.key
  token token ht := h.token token (Option.mem_filter_iff.mp ht).1

/-- Both encoders write one blob, and it is read back as an equal record, in some slab and in every
scratch slab with room for it. -/
structure RoundTrips (debug : Bool) (record : PooledRecord) (slab : ByteSlab) : Prop where
  encoded : ∃ blob, encodeShardRecord debug record slab = .ok blob ∧
    encodeShardRecordInto debug record slab = .ok blob ∧
    (∃ live fresh record' slab', Owns debug fresh live 0 ∧
      decodeShardRecord debug blob fresh = .ok (record', slab') ∧
      (pooledView slab').onRecord record' = (pooledView slab).onRecord record) ∧
    ∀ live fresh, Scratch debug fresh live →
      fresh.bump + recordRoom (ofView ((pooledView slab).onRecord record)) ≤ fresh.capacity →
      ∃ record' slab', decodeShardRecord debug blob fresh = .ok (record', slab') ∧
        (pooledView slab').onRecord record' = (pooledView slab).onRecord record

theorem decode_blobOf (hblob : BlobOf (ofView r) blob) (htoken : r.cursor.token ≠ some [])
    (hs : Scratch debug fresh live) (hroom : fresh.bump + recordRoom (ofView r) ≤ fresh.capacity) :
    ∃ record' slab', decodeShardRecord debug blob fresh = .ok (record', slab') ∧
      (pooledView slab').onRecord record' = r := by
  have hdecode : Costs (decodeShardRecord debug blob) fresh (recordRoom (ofView r)) :=
    costs_decodeShardRecord hblob
  have hcosts := hdecode hs.grown
  have hspec := decodeShardRecord_spec hs.owns blob
  unfold Prog.wp at hcosts hspec
  cases hrun : decodeShardRecord debug blob fresh with
  | err p =>
    rw [hrun] at hcosts
    have hlt : fresh.capacity < fresh.bump + recordRoom (ofView r) := hcosts
    omega
  | panic p =>
    rw [hrun] at hspec
    exact absurd hs.small hspec.2
  | ok p =>
    rw [hrun] at hspec
    obtain ⟨-, -, owned, hblob', hreads⟩ := hspec
    cases hblob.unique hblob'
    rw [normalize_eq_self htoken] at hreads
    exact ⟨p.1, p.2, rfl, ofView_injective hreads⟩

/-- **Round trip.** A record of a running coordinator survives encoding and decoding exactly when
portable. -/
theorem roundTrips_iff_portable (hs : Reachable env s) {tenant : TenantId} {key : ShardKey}
    {record : PooledRecord} (hget : s.tables.getShard tenant key = some record) :
    RoundTrips env.debug record s.slab ↔ Portable ((pooledView s.slab).onRecord record) := by
  have hcoherent := hs.coherent
  obtain ⟨_, htrace⟩ := hs.exists_trace
  have hview : s.view.getShard tenant key = some ((pooledView s.slab).onRecord record) := by
    rw [Coordinator.view, Tables.getShard_mapRecords, hget, Option.map_some]
  have hmade := htrace.view.wellMade hview
  have hheld : record.held ≤ s.tables.held := held_le_tables hget
  have hwf := hcoherent.spawned tenant key record hget
  constructor
  · intro h
    obtain ⟨blob, hencode, -, ⟨live, fresh, record', slab', howns, hdecode, hsame⟩, -⟩ := h.encoded
    obtain ⟨-, -, owned, hblob, hreads⟩ := Prog.wp_ok (decodeShardRecord_spec howns blob) hdecode
    rw [hsame] at hreads
    refine portable_of_valid ?_ ?_
    · rw [hreads]
      exact hblob.normalize_valid.2
    · rw [hreads]
      exact acceptable_normalize hblob.acceptable
  · intro hp
    have hblob := blobOf_of_portable hmade hp
    obtain ⟨hencode, hinto⟩ := encodeShardRecord_eq hcoherent.owns hheld hwf
      (encodable_of_valid hblob.bounded hblob.valid)
    have htoken : ((pooledView s.slab).onRecord record).cursor.token ≠ some [] :=
      fun hnil => hmade.cursor_wellFormed.token_ne_nil [] hnil rfl
    refine ⟨_, hencode, hinto, ?_, fun live fresh hscratch hroom =>
      decode_blobOf hblob htoken hscratch hroom⟩
    obtain ⟨fresh, -, hscratch, hbump, hcapacity⟩ := exists_decodeSlab env.debug 0
      (putHeader .shardRecord ++ (ofView ((pooledView s.slab).onRecord record)).wire).length
    obtain ⟨record', slab', hdecode, hsame⟩ := decode_blobOf hblob htoken hscratch (by
      rw [hbump, hcapacity, Nat.zero_add]
      exact recordRoom_le hblob)
    exact ⟨0, fresh, record', slab', hscratch.owns, hdecode, hsame⟩

/-! ### A shard checkpointed at time 10 and then at time 5 -/

def demoRoot : InitialShardInput := ⟨⟨3⟩, ⟨[1], [9], []⟩, CursorUpdate.initial⟩

def demoLease : Lease :=
  ⟨Demo.tenant, Demo.run, ⟨3⟩, Demo.worker, 2, 12, by decide, by decide⟩

def demoCursor (key : UInt8) : CursorUpdate := .new [key] (List.cons_ne_nil key [])

def backwardCalls : List Call :=
  [.createRunWithShards 1 Demo.tenant Demo.run Demo.runConfig [demoRoot] ⟨1⟩,
    .acquire 2 Demo.tenant demoLease.shardKey Demo.worker,
    .checkpoint 10 Demo.tenant demoLease (demoCursor 2) ⟨2⟩,
    .checkpoint 5 Demo.tenant demoLease (demoCursor 3) ⟨3⟩]

theorem backward_not_decoded :
    ∃ s record blob fresh e slab', Reachable Demo.env s ∧
      s.tables.getShard Demo.tenant demoLease.shardKey = some record ∧
      encodeShardRecord false record s.slab = .ok blob ∧
      (makeDecodeSlab blob.length 0 : Run Empty ByteSlab) = .ok fresh ∧
      decodeShardRecord false blob fresh = .err (e, slab') := by
  have hrun : ((execute Demo.env backwardCalls Demo.fresh).okAnd fun out =>
      (out.2.tables.getShard Demo.tenant demoLease.shardKey).any fun record =>
        (encodeShardRecord false record out.2.slab).okAnd fun blob =>
          (makeDecodeSlab blob.length 0 : Run Empty ByteSlab).okAnd fun fresh =>
            match decodeShardRecord false blob fresh with
            | .err _ => true
            | _ => false) = true := by
    decide +kernel
  obtain ⟨⟨_, s⟩, hexec, hrun⟩ := exists_of_okAnd hrun
  obtain ⟨record, hget, hrun⟩ := (Option.any_eq_true _ _).mp hrun
  obtain ⟨blob, hencode, hrun⟩ := exists_of_okAnd hrun
  obtain ⟨fresh, hfresh, hrun⟩ := exists_of_okAnd hrun
  split at hrun
  next p hdecode =>
    exact ⟨s, record, blob, fresh, p.1, p.2, Demo.reachable_fresh.execute hexec, hget, hencode,
      hfresh, hdecode⟩
  · cases hrun

theorem roundTrips_iff_portable_backward :
    ∃ (s : Coordinator) (record : PooledRecord),
      s.tables.getShard Demo.tenant demoLease.shardKey = some record ∧
      (RoundTrips Demo.env.debug record s.slab ↔
        Portable ((pooledView s.slab).onRecord record)) := by
  have hrun : ((execute Demo.env backwardCalls Demo.fresh).okAnd fun out =>
      (out.2.tables.getShard Demo.tenant demoLease.shardKey).isSome) = true := by
    decide +kernel
  obtain ⟨⟨_, s⟩, hexec, hrun⟩ := exists_of_okAnd hrun
  obtain ⟨record, hget⟩ := Option.isSome_iff_exists.mp hrun
  exact ⟨s, record, hget, roundTrips_iff_portable (Demo.reachable_fresh.execute hexec) hget⟩

end GossipRs.Etcd
