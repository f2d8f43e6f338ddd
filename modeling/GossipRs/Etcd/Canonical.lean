import GossipRs.Etcd.RunCodec
import GossipRs.Etcd.ShardCodecSpec

/-! Decoding as a whole: what is accepted is well formed and, but for one form of an
absent token, the encoding of what is returned; what is refused leaves the slab as it
was. -/

namespace GossipRs.Etcd

open Lib Stdx OwnedShardRecord List

variable {debug : Bool} {slab : ByteSlab} {live : Multiset ByteSlot} {blob : Bytes}

structure BlobOf (owned : OwnedShardRecord) (blob : Bytes) : Prop where
  bounded : owned.Bounded
  valid : owned.Valid
  acceptable : owned.Acceptable
  layout : blob = putHeader .shardRecord ++ owned.wire

theorem decodeShardRecord_spec (h : Owns debug slab live 0) (blob) :
    Prog.wp (decodeShardRecord debug blob) slab
      (fun r slab' => Placed debug slab live r.held slab' ∧ r.spawned.WellFormed ∧
        ∃ owned, BlobOf owned blob ∧ ofView ((pooledView slab').onRecord r) = owned.normalize)
      (fun e slab' => Released debug slab live slab' ∧
        ((∃ full, e = .slabFull full) ∨ ∀ owned, ¬ BlobOf owned blob))
      (MetadataExhausted slab) := by
  unfold decodeShardRecord
  cases hpa : runDecoder (decodeBlob .shardRecord OwnedShardRecord.decode) blob with
  | error e =>
    refine ⟨Released.refl h, .inr fun owned hb => ?_⟩
    rw [(runDecodeBlob_eq_ok reads_decode).mpr ⟨⟨hb.bounded, hb.valid⟩, hb.layout⟩] at hpa
    cases hpa
  | ok owned =>
    obtain ⟨⟨hbo, hv⟩, hl⟩ := (runDecodeBlob_eq_ok reads_decode).mp hpa
    refine Prog.wp_mono (intoRecord_spec h) (fun r slab' hr => ?_) (fun e slab' he => ?_)
      (fun _ hp => hp)
    · obtain ⟨-, ha, hpl, hwf, hvi⟩ := hr
      exact ⟨hpl, hwf, owned, ⟨hbo, hv, ha, hl⟩, hvi⟩
    refine ⟨he.1, he.2.imp_right fun hn owned' hb => hn ?_⟩
    -- a blob is the layout of one owned record only
    have hs := (runDecodeBlob_eq_ok reads_decode).mpr ⟨⟨hb.bounded, hb.valid⟩, hb.layout⟩
    rw [hpa] at hs
    cases hs
    exact ⟨hv, hb.acceptable⟩

/-- The form of an absent token that is read but never written. -/
def HasEmptyToken (blob : Bytes) : Prop := ∃ owned, BlobOf owned blob ∧ owned.cursorToken = some []

variable {owned : OwnedShardRecord}

theorem normalize_eq_self (h : owned.cursorToken ≠ some []) : owned.normalize = owned := by
  obtain ⟨_, _, _, _, _, _, _, _, _, tok, _, _, _, _, _, _, _⟩ := owned
  cases tok with
  | none => rfl
  | some token =>
    have hn : token ≠ [] := fun he => h (by rw [he])
    simp [OwnedShardRecord.normalize, Option.filter, hn]

theorem BlobOf.unique (h : BlobOf owned blob) (h' : BlobOf owned' blob) : owned = owned' := by
  have hr := (runDecodeBlob_eq_ok reads_decode).mpr ⟨⟨h.bounded, h.valid⟩, h.layout⟩
  have hr' := (runDecodeBlob_eq_ok reads_decode).mpr ⟨⟨h'.bounded, h'.valid⟩, h'.layout⟩
  rw [hr] at hr'
  exact Except.ok.inj hr'

theorem wire_inj (h : BlobOf owned blob) (hb : owned'.Bounded) (hv : owned'.Valid)
    (he : owned'.wire = owned.wire) : owned' = owned := by
  have hl : blob = putHeader .shardRecord ++ owned'.wire := by
    rw [he]
    exact h.layout
  have hr := (runDecodeBlob_eq_ok reads_decode).mpr ⟨⟨h.bounded, h.valid⟩, h.layout⟩
  rw [(runDecodeBlob_eq_ok reads_decode).mpr ⟨⟨hb, hv⟩, hl⟩] at hr
  exact Except.ok.inj hr

theorem BlobOf.normalize_valid (h : BlobOf owned blob) :
    owned.normalize.Bounded ∧ owned.normalize.Valid := by
  have hto : ∀ token ∈ owned.normalize.cursorToken, token ∈ owned.cursorToken :=
    fun token ht => (Option.mem_filter_iff.mp ht).1
  refine ⟨{ h.bounded with token_le := fun token ht => h.bounded.token_le token (hto token ht) },
    { h.valid with token_key := fun hs => h.valid.token_key ?_ }⟩
  obtain ⟨token, ht⟩ := Option.isSome_iff_exists.mp hs
  rw [Option.mem_def.mp (hto token ht)]
  rfl

theorem invariant_of_valid (h : (ofView r).Valid) : r.Invariant where
  parked_iff := h.parked_iff
  terminal_unleased ht := by
    have := h.terminal_unleased ht
    simpa [ofView] using this
  fence_pos := h.fence_pos
  opLog_le := by
    have := h.opLog_le
    rwa [ofView, length_map] at this
  split_spawned hs := fun hl => h.split_spawned hs (length_eq_zero_iff.mp hl)
  parent_derived hp := h.parent_iff ▸ hp
  derived_parent hd := h.parent_iff.symm ▸ hd
  spawned_derived := h.spawned_derived
  opLog_nodup := by
    have := h.opLog_valid.nodup
    rwa [ofView, map_map] at this
  spawned_le := h.spawned_le

theorem encodable_of_valid (hb : owned.Bounded) (hv : owned.Valid) : owned.Encodable := by
  have hf : maxFieldSize < 2 ^ 32 := by decide
  have hs : maxSpawnedPerShard < 2 ^ 32 := by decide
  have hl : ShardRecord.opLogCap < 2 ^ 32 := by decide
  exact {
    start_lt := hb.start_le.trans_lt hf
    end_lt := hb.end_le.trans_lt hf
    metadata_lt := hb.metadata_le.trans_lt hf
    key_lt := fun key hk => (hb.key_le key hk).trans_lt hf
    token_lt := fun token ht => (hb.token_le token ht).trans_lt hf
    spawned_lt := hv.spawned_le.trans_lt hs
    opLog_lt := hv.opLog_le.trans_lt hl
    lease_joint := hv.lease_joint }

theorem reencode {r : PooledRecord} (hp : Placed debug slab live r.held slab')
    (hwf : r.spawned.WellFormed) (hbl : BlobOf owned blob)
    (hvi : ofView ((pooledView slab').onRecord r) = owned.normalize) :
    encodeShardRecord debug r slab' = .ok (putHeader .shardRecord ++ owned.normalize.wire) := by
  obtain ⟨hb, hv⟩ := hbl.normalize_valid
  have he := (encodeShardRecord_eq hp.owns le_self_add hwf (hvi.symm ▸ encodable_of_valid hb hv)).1
  rw [he, hvi]

theorem reencode_eq_iff (hbl : BlobOf owned blob) :
    putHeader .shardRecord ++ owned.normalize.wire = blob ↔ ¬ HasEmptyToken blob := by
  obtain ⟨hb, hv⟩ := hbl.normalize_valid
  constructor
  · intro heq he
    obtain ⟨_, hb', ht⟩ := he
    cases hbl.unique hb'
    rw [hbl.layout, append_cancel_left_eq] at heq
    have hs := wire_inj hbl hb hv heq
    have := congrArg cursorToken hs
    rw [OwnedShardRecord.normalize, ht] at this
    cases this
  intro hn
  rw [normalize_eq_self fun ht => hn ⟨owned, hbl, ht⟩]
  exact hbl.layout.symm

def ShardDecoding (debug : Bool) (slab : ByteSlab) (live : Multiset ByteSlot) (blob : Bytes) :
    Outcome Panic (EtcdCodecError × ByteSlab) (PooledRecord × ByteSlab) → Prop
  | .ok (r, slab') => ByteSlab.SameReads live slab slab' ∧
      RecordView.Invariant ((pooledView slab').onRecord r) ∧
      ∃ blob', encodeShardRecord debug r slab' = .ok blob' ∧ (blob' = blob ↔ ¬ HasEmptyToken blob)
  | .err (_, slab') => Released debug slab live slab'
  | .panic _ => False

/-- **Decoding is safe and canonical** up to a present but empty cursor token, read as none. -/
theorem decoding_canonical (debug : Bool) :
    (∀ blob value, decodeOwnerValue blob = .ok value →
      FenceEpoch.initial ≤ value.fence ∧ encodeOwnerValue value.worker value.fence = blob) ∧
    (∀ blob, (∃ e, decodeRunRecord blob = .err e) ∨
      ∃ record, decodeRunRecord blob = .ok record ∧ record.Invariant ∧
        (encodeRunRecord record : Run Empty Bytes) = .ok blob) ∧
    (∀ blob slab live, Owns debug slab live 0 → SmallSlab slab.capacity →
      ShardDecoding debug slab live blob (decodeShardRecord debug blob slab)) ∧
    (∀ blob blob' slab slab' live live' r r' slab₁ slab₁',
      Owns debug slab live 0 → Owns debug slab' live' 0 →
      decodeShardRecord debug blob slab = .ok (r, slab₁) →
      decodeShardRecord debug blob' slab' = .ok (r', slab₁') →
      (pooledView slab₁).onRecord r = (pooledView slab₁').onRecord r' →
      ¬ HasEmptyToken blob → ¬ HasEmptyToken blob' → blob = blob') := by
  refine ⟨?_, decodeRunRecord_canonical, ?_, ?_⟩
  · intro blob value h
    obtain ⟨hfence, hblob⟩ := decodeOwnerValue_eq_ok.mp h
    exact ⟨hfence, hblob.symm⟩
  · intro blob slab live h hsmall
    have hwp := decodeShardRecord_spec h blob
    unfold Prog.wp at hwp
    cases hout : decodeShardRecord debug blob slab with
    | ok p =>
      obtain ⟨r, slab'⟩ := p
      rw [hout] at hwp
      obtain ⟨hplaced, hwf, owned, hblob, hview⟩ := hwp
      refine ⟨hplaced.same, ?_, _, reencode hplaced hwf hblob hview, reencode_eq_iff hblob⟩
      exact invariant_of_valid (hview.symm ▸ hblob.normalize_valid.2)
    | err p =>
      rw [hout] at hwp
      exact hwp.1
    | panic p =>
      rw [hout] at hwp
      exact hwp.2 hsmall
  · intro blob blob' slab slab' live live' r r' slab₁ slab₁' h h' hout hout' hsame hno hno'
    obtain ⟨-, -, owned, hblob, hview⟩ := Prog.wp_ok (decodeShardRecord_spec h blob) hout
    obtain ⟨-, -, _, hblob', hview'⟩ := Prog.wp_ok (decodeShardRecord_spec h' blob') hout'
    rw [hsame, hview'] at hview
    rw [← (reencode_eq_iff hblob).mpr hno, ← (reencode_eq_iff hblob').mpr hno', hview]

def emptyTokenBlob : Bytes :=
  putHeader .shardRecord ++ wire {
    tenant := ⟨1⟩, run := ⟨7⟩, shard := ⟨3⟩, status := .active, parkReason := none
    keyRangeStart := [1], keyRangeEnd := [9], metadata := []
    cursorLastKey := some [5], cursorToken := some [], cursorSemantics := .completed
    leaseOwner := none, leaseDeadline := none, fenceEpoch := 1, parent := none
    spawned := [], opLog := [] }

/-- A new slab owns nothing, and one of 1024 bytes has room for its free lists. -/
theorem decoding_canonical_fresh :
    ∃ slab p, (ByteSlab.withCapacity 1024 0 : Run Empty ByteSlab) = .ok slab ∧
      decodeShardRecord false emptyTokenBlob slab = .ok p ∧
      ShardDecoding false slab 0 emptyTokenBlob (.ok p) := by
  have hrun : ((ByteSlab.withCapacity 1024 0 : Run Empty ByteSlab).okAnd fun slab =>
      (decodeShardRecord false emptyTokenBlob slab).okAnd fun _ => true) = true := by
    decide +kernel
  obtain ⟨slab, hslab, hrun⟩ := Outcome.exists_of_okAnd hrun
  obtain ⟨p, hdecode, -⟩ := Outcome.exists_of_okAnd hrun
  have hsmall : SmallSlab slab.capacity := by
    cases hslab
    unfold SmallSlab
    decide
  refine ⟨slab, p, hslab, hdecode, ?_⟩
  rw [← hdecode]
  exact (decoding_canonical false).2.2.1 emptyTokenBlob slab 0 (Owns.fresh hslab).1 hsmall

theorem emptyToken_not_canonical :
    ∃ slab r slab' blob', (ByteSlab.withCapacity 1024 0 : Run Empty ByteSlab) = .ok slab ∧
      decodeShardRecord false emptyTokenBlob slab = .ok (r, slab') ∧
      encodeShardRecord false r slab' = .ok blob' ∧ blob' ≠ emptyTokenBlob := by
  have hrun : ((ByteSlab.withCapacity 1024 0 : Run Empty ByteSlab).okAnd fun slab =>
      (decodeShardRecord false emptyTokenBlob slab).okAnd fun p =>
        (encodeShardRecord false p.1 p.2).okAnd fun blob' => blob' != emptyTokenBlob) = true := by
    decide +kernel
  obtain ⟨slab, hslab, hrun⟩ := Outcome.exists_of_okAnd hrun
  obtain ⟨⟨r, slab'⟩, hdecode, hrun⟩ := Outcome.exists_of_okAnd hrun
  obtain ⟨blob', hencode, hne⟩ := Outcome.exists_of_okAnd hrun
  exact ⟨slab, r, slab', blob', hslab, hdecode, hencode, by simpa using hne⟩

end GossipRs.Etcd
