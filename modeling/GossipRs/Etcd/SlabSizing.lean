import GossipRs.Stdx.SlabRoom
import GossipRs.Etcd.Canonical
import GossipRs.Refinement.Records
import GossipRs.Coordination.Invariants

/-! Scratch slabs: each operation builds or decodes records in a slab of its own, sized from the
fields or the blob before anything is allocated. -/

namespace GossipRs.Etcd

open Lib Stdx OwnedShardRecord Outcome List
open ShardRecord (assertPooled logOp newPooled)
open Costs (get lift_bind of_pure seq)

variable {ε : Type} {debug : Bool} {slab : ByteSlab} {live : Multiset ByteSlot}

/-! ## Capacities -/

def minDecodeSlabCapacity : Nat := 4 * 1024

def maxDecodeSlabCapacity : Nat := 256 * 1024

def defaultBuildSlabFloor : Nat := 1024

/-- The clamp hides the saturation of the two steps before it. -/
def decodeSlabCapacity (blobLen : Nat) : Nat :=
  max minDecodeSlabCapacity (min (blobLen * 3 + 1024) maxDecodeSlabCapacity)

def makeDecodeSlab (blobLen ownerId : Nat) : Run ε ByteSlab :=
  ByteSlab.withCapacity (decodeSlabCapacity blobLen) ownerId

def buildSlabCapacityForSpecAndCursor (spec : ShardSpec) (cursor : CursorUpdate) : Nat :=
  let cursorLast := cursor.lastKey.elim 0 List.length
  let cursorToken := cursor.token.elim 0 List.length
  let needed := spec.keyRangeStart.length + spec.keyRangeEnd.length + spec.metadata.length +
    cursorLast + cursorToken + 256
  max needed defaultBuildSlabFloor

/-! ## Building blobs -/

inductive BuildBlobError where
  | resourceExhausted
  | corruption (reason : EtcdCodecError)

/-- Encode, and release the fields in any case. The `clear` that follows drops a slab that holds
nothing. -/
def encodeEphemeralShardBlob (debug : Bool) (record : PooledRecord) (slab : ByteSlab) :
    Run EtcdCodecError Bytes :=
  match encodeShardRecord debug record slab with
  | .ok blob => do
    let _ ← (ShardRecord.deallocateFields debug record slab).mapErr Prod.fst
    return blob
  | .err e => do
    let _ ← (ShardRecord.deallocateFields debug record slab).mapErr Prod.fst
    .err e
  | .panic p => .panic p

def buildRootShardBlob (debug : Bool) (ownerId : Nat) (tenant : TenantId) (run : RunId)
    (semantics : CursorSemantics) (input : InitialShardInput) : Run BuildBlobError Bytes := do
  let slab ← ByteSlab.withCapacity
    (buildSlabCapacityForSpecAndCursor input.spec input.cursor) ownerId
  let (record, slab) ← (ShardRecord.newActiveWithCursor debug tenant run input.shard input.spec
    input.cursor semantics slab).mapErr fun _ => .resourceExhausted
  ShardRecord.assertPooled debug record slab
  (encodeEphemeralShardBlob debug record slab).mapErr .corruption

/-- The blob of a child of a split, as `split_replace` and `split_residual` build it. -/
def buildChildShardBlob (debug : Bool) (ownerId : Nat) (tenant : TenantId) (run : RunId)
    (semantics : CursorSemantics) (shard parent : ShardId) (spec : ShardSpec)
    (cursor : CursorUpdate) : Run BuildBlobError Bytes := do
  let slab ← ByteSlab.withCapacity (buildSlabCapacityForSpecAndCursor spec cursor) ownerId
  let (record, slab) ← (ShardRecord.newSplitChild debug tenant run shard spec cursor semantics
    parent slab).mapErr fun _ => .resourceExhausted
  ShardRecord.assertPooled debug record slab
  let blob ← (encodeShardRecord debug record slab).mapErr .corruption
  let _ ← (ShardRecord.deallocateFields debug record slab).mapErr fun e => .corruption e.1
  return blob

/-! ## Room taken by fields -/

def specRoom (spec : ShardSpec) : Nat :=
  blockSize spec.keyRangeStart.length + blockSize spec.keyRangeEnd.length +
    blockSize spec.metadata.length

def cursorRoom (cursor : CursorValue) : Nat :=
  blockSize (cursor.lastKey.getD []).length + blockSize (cursor.token.getD []).length

def spawnedRoom (count : Nat) : Nat := blockSize (8 * count)

theorem costs_fromSpecRef (spec) :
    Costs (PooledShardSpec.fromSpecRef debug spec) slab (specRoom spec) := by
  have hs : specRoom spec = ([spec.keyRangeStart, spec.keyRangeEnd, spec.metadata].map
      fun data => blockSize data.length).sum + 0 := by
    simp only [specRoom, map_cons, map_nil, List.sum_cons, List.sum_nil]
    omega
  rw [hs]
  refine (costs_allocateFields _ []).bind fun slots slab1 _ => ?_
  split
  · exact of_pure
  · exact Costs.panic _

theorem costs_fromUpdate (update) :
    Costs (PooledCursor.fromUpdate debug update) slab (cursorRoom update.value) := by
  have hs : cursorRoom update.value = ([update.lastKey.getD [], update.token.getD []].map
      fun data => blockSize data.length).sum + 0 := by
    simp only [cursorRoom, CursorUpdate.value, map_cons, map_nil, List.sum_cons, List.sum_nil]
    omega
  rw [hs]
  refine (costs_allocateFields _ []).bind fun slots slab1 _ => ?_
  split
  · exact of_pure
  · exact Costs.panic _

theorem costs_allocateAppendedSlot (spawned : PooledSpawned) (hn : ids ≠ []) :
    Costs (spawned.allocateAppendedSlot debug ids) slab
      (spawnedRoom (spawned.len + ids.length)) := by
  unfold PooledSpawned.allocateAppendedSlot
  refine lift_bind (noErr_debugAssert _ _) fun _ _ => ?_
  rw [if_neg hn]
  refine lift_bind (noErr_assert _ _) fun _ _ => get ?_
  refine lift_bind ?_ fun current hc => ?_
  · split
    · exact noErr_ok _
    · exact .bind (.bind (noErr_get _ _) fun _ => .check fun _ =>
        noErr_ok _) fun _ => .check fun _ => noErr_ok _
  have hcu : current.length = spawned.len * 8 := by
    by_cases hz : spawned.len = 0
    · rw [if_pos hz] at hc
      cases hc
      rw [hz]
      rfl
    rw [if_neg hz] at hc
    obtain ⟨_, -, hc⟩ := bind_eq_ok.mp hc
    obtain ⟨ha, hc⟩ := check_eq_ok.mp hc
    cases hc
    exact assert_eq_ok.mp ha
  have hl : (current ++ encodeShardIds ids).length = 8 * (spawned.len + ids.length) := by
    rw [length_append, length_encodeShardIds, hcu]
    omega
  have hco : Costs (ByteSlab.allocate debug (current ++ encodeShardIds ids)) slab
      (spawnedRoom (spawned.len + ids.length)) := by
    unfold spawnedRoom
    rw [← hl]
    exact costs_allocate _
  exact hco.bind (b := 0) fun _ _ _ => of_pure

theorem costs_allocSpawned (ids) :
    Costs (allocSpawned debug ids) slab (spawnedRoom ids.length) := by
  unfold allocSpawned
  by_cases hn : ids = []
  · rw [if_pos hn, hn]
    exact of_pure
  rw [if_neg hn]
  have hc : Costs (PooledSpawned.new.allocateAppendedSlot debug ids) slab
      (spawnedRoom (PooledSpawned.new.len + ids.length)) := costs_allocateAppendedSlot _ hn
  rw [show PooledSpawned.new.len = 0 from rfl, Nat.zero_add] at hc
  -- the empty list owns no slot, so installing over it releases nothing
  exact hc.bind (b := 0) fun _ _ _ => of_pure

/-! ## Decoding -/

def recordRoom (owned : OwnedShardRecord) : Nat :=
  specRoom ⟨owned.keyRangeStart, owned.keyRangeEnd, owned.metadata⟩ +
    (cursorRoom ⟨owned.cursorLastKey, owned.cursorToken⟩ + spawnedRoom owned.spawned.length)

theorem cursorRoom_normalize (owned : OwnedShardRecord) :
    cursorRoom ⟨owned.normalize.cursorLastKey, owned.normalize.cursorToken⟩ =
      cursorRoom ⟨owned.cursorLastKey, owned.cursorToken⟩ := by
  unfold cursorRoom OwnedShardRecord.normalize
  cases owned.cursorToken with
  | none => rfl
  | some token =>
    by_cases hn : token = []
    · simp [Option.filter, hn]
    · simp [Option.filter, hn]

variable {owned : OwnedShardRecord}

theorem costs_tryMaterialize (hv : owned.Valid) (ha : owned.Acceptable) :
    Costs (owned.tryMaterialize debug) slab (recordRoom owned) := by
  obtain ⟨update, hu, hva⟩ : ∃ update, owned.cursorUpdate = .ok update ∧
      update.value = ⟨owned.normalize.cursorLastKey, owned.normalize.cursorToken⟩ := by
    rcases cursorUpdate_eq hv.token_key with ⟨update, hu, hva, -⟩ | ⟨_, -, hn⟩
    · exact ⟨update, hu, hva⟩
    · exact absurd ⟨ha.key, ha.token⟩ hn
  obtain ⟨_, hit, -⟩ := intoOpLog_eq [] hv.opLog_valid.valid (by simpa using hv.opLog_le)
  obtain ⟨_, hl, -, -⟩ := intoLease_eq hv
  unfold tryMaterialize withStaged recordRoom
  dsimp only
  rw [(ShardSpec.validateRef_eq_ok (u := ())).mpr ha.spec, ← cursorRoom_normalize, ← hva]
  refine lift_bind (noErr_ok _) fun _ _ => ?_
  refine (costs_fromSpecRef _).mapErr.bind fun spec slab1 _ => ?_
  rw [hu]
  refine lift_bind (noErr_ok _) fun _ he => ?_
  cases he
  refine (costs_fromUpdate _).mapErr.bind fun cursor slab2 _ => ?_
  refine (costs_allocSpawned _).mapErr.bind (b := 0) fun spawned slab3 _ => ?_
  rw [hit, hl]
  exact lift_bind (noErr_ok _) fun _ _ =>
    lift_bind (noErr_ok _) fun _ _ => of_pure

theorem costs_decodeShardRecord (h : BlobOf owned blob) :
    Costs (decodeShardRecord debug blob) slab (recordRoom owned) := by
  unfold decodeShardRecord
  rw [(runDecodeBlob_eq_ok reads_decode).mpr ⟨⟨h.bounded, h.valid⟩, h.layout⟩]
  unfold OwnedShardRecord.intoRecord
  dsimp only
  rw [OwnedShardRecord.validate_eq_ok.mpr h.valid]
  exact (costs_tryMaterialize h.valid h.acceptable).onErr

theorem fields_le_wire (owned : OwnedShardRecord) :
    owned.keyRangeStart.length + owned.keyRangeEnd.length + owned.metadata.length +
      (owned.cursorLastKey.getD []).length + (owned.cursorToken.getD []).length +
      8 * owned.spawned.length ≤ owned.wire.length := by
  have ho : ∀ field : Option Bytes, (field.getD []).length ≤ (wireOpt wireBytes field).length := by
    intro field
    cases field with
    | none => exact Nat.zero_le _
    | some data =>
      simp only [wireOpt, wireBytes, Option.getD_some, length_cons, length_append]
      omega
  have hid : ∀ ids : List ShardId, (ids.flatMap putShardId).length = 8 * ids.length := by
    intro ids
    induction ids with
    | nil => rfl
    | cons id rest ih =>
      rw [flatMap_cons, length_append, ih, length_cons]
      simp only [putShardId, putU64, length_leBytes]
      omega
  have hk := ho owned.cursorLastKey
  have ht := ho owned.cursorToken
  have hs := hid owned.spawned
  simp only [wire, wireBytes, wireList, length_append] at *
  omega

/-- **Decoding fits.** The capacity taken from a blob's length has room for its fields. -/
theorem recordRoom_le (h : BlobOf owned blob) :
    recordRoom owned ≤ decodeSlabCapacity blob.length := by
  have hw := fields_le_wire owned
  have hl : owned.wire.length ≤ blob.length := by
    rw [h.layout, length_append]
    omega
  have hs := h.acceptable.spec.start_le
  have he := h.acceptable.spec.end_le
  have hm := h.acceptable.spec.metadata_le
  have hke : (owned.cursorLastKey.getD []).length ≤ maxKeySize := by
    cases hk : owned.cursorLastKey with
    | none => exact Nat.zero_le _
    | some key => exact (h.acceptable.key key hk).2
  have hto : (owned.cursorToken.getD []).length ≤ maxTokenSize := by
    cases ht : owned.cursorToken with
    | none => exact Nat.zero_le _
    | some token => exact h.acceptable.token token ht
  have hsp := h.valid.spawned_le
  have hr : recordRoom owned ≤ 2 * (owned.keyRangeStart.length + owned.keyRangeEnd.length +
      owned.metadata.length + (owned.cursorLastKey.getD []).length +
      (owned.cursorToken.getD []).length + 8 * owned.spawned.length) + 96 := by
    have h1 := blockSize_le owned.keyRangeStart.length
    have h2 := blockSize_le owned.keyRangeEnd.length
    have h3 := blockSize_le owned.metadata.length
    have h4 := blockSize_le (owned.cursorLastKey.getD []).length
    have h5 := blockSize_le (owned.cursorToken.getD []).length
    have h6 := blockSize_le (8 * owned.spawned.length)
    unfold recordRoom specRoom cursorRoom spawnedRoom
    dsimp only
    omega
  have hsc : recordRoom owned ≤ blob.length * 3 + 1024 := by omega
  have hc : recordRoom owned ≤ maxDecodeSlabCapacity := by
    rw [maxKeySize] at hs he hke
    rw [maxMetadataSize] at hm
    rw [maxTokenSize] at hto
    rw [maxSpawnedPerShard] at hsp
    refine hr.trans ?_
    rw [maxDecodeSlabCapacity]
    dsimp only at hs he hm
    omega
  exact (le_min hsc hc).trans (le_max_right _ _)

/-! ## Applying operations -/

structure Scratch (debug : Bool) (slab : ByteSlab) (live : Multiset ByteSlot) : Prop where
  owns : Owns debug slab live 0
  grown : Grown slab
  small : SmallSlab slab.capacity

theorem withCapacity_grown
    (h : (ByteSlab.withCapacity capacity ownerId : Run ε ByteSlab) = .ok slab) :
    Grown slab ∧ slab.bump = 0 ∧ slab.capacity = capacity := by
  obtain ⟨hl, h⟩ := check_eq_ok.mp h
  cases h
  exact ⟨⟨rfl, Nat.zero_le _, assert_eq_ok.mp hl⟩, rfl, rfl⟩

theorem Scratch.fresh (hca : capacity ≤ u32Max) (hsm : SmallSlab capacity) :
    ∃ slab, (ByteSlab.withCapacity capacity ownerId : Run ε ByteSlab) = .ok slab ∧
      Scratch debug slab 0 ∧ slab.bump = 0 ∧ slab.capacity = capacity := by
  obtain ⟨slab, hs⟩ : ∃ slab, (ByteSlab.withCapacity capacity ownerId :
      Run ε ByteSlab) = .ok slab := by
    unfold ByteSlab.withCapacity
    rw [assert_of_true hca]
    exact ⟨_, rfl⟩
  obtain ⟨hg, hb, hc⟩ := withCapacity_grown hs
  exact ⟨slab, hs, ⟨(Owns.fresh hs).1, hg, hc ▸ hsm⟩, hb, hc⟩

theorem needs_updateCursor {cursor : PooledCursor} (h : Scratch debug slab live)
    (update : CursorUpdate) :
    Needs (cursor.updateFromRef debug update) slab (cursorRoom update.value) := by
  unfold PooledCursor.updateFromRef
  refine ((costs_fromUpdate update).needs h.grown
    (wp_of_small h.small (PooledCursor.fromUpdate_spec h.owns update))).andThen fun _ => ?_
  exact noErr_bind (noErr_deallocateAll _) fun _ _ => noErr_ok _

theorem needs_updateSpec {spec : PooledShardSpec} (h : Scratch debug slab live) (new : ShardSpec) :
    Needs (spec.updateFromRef debug new) slab (specRoom new) := by
  unfold PooledShardSpec.updateFromRef
  refine ((costs_fromSpecRef new).needs h.grown
    (wp_of_small h.small (PooledShardSpec.fromSpecRef_spec h.owns new))).andThen fun _ => ?_
  exact noErr_bind (noErr_deallocateAll _) fun _ _ => noErr_ok _

theorem noErr_assertPooled (record) (slab) :
    Outcome.NoErr (assertPooled debug record slab : Run ε Unit) := by
  unfold assertPooled ShardRecord.assertInvariants
    ShardRecord.assertLifecycleInvariants ShardRecord.assertLineageInvariants
  refine Outcome.NoErr.bind ?_ fun _ => ?_
  · exact .check fun _ => .check fun _ =>
      .check fun _ => noErr_assert _ _
  exact .check fun _ => .check fun _ =>
    .check fun _ =>
    .bind (.bind (.bind (noErr_get _ _) fun _ => .check fun _ =>
      noErr_ok _) fun _ => noErr_ok _) fun _ =>
    .check fun _ => .check fun _ =>
    noErr_assert _ _

theorem noErr_commit (env : Env) (spawned staged : PooledSpawned)
    (update : PooledSpawned → PooledRecord) (kind) (opId) (payloadHash now)
    (slab) :
    Outcome.NoErr ((do
      let spawned ← spawned.installSlot env.debug staged
      let parent ← Prog.lift (logOp (update spawned) kind opId payloadHash now)
      let slab ← Prog.get
      Prog.lift (assertPooled env.debug parent slab)
      return parent : Prog ByteSlab Panic SlabFull PooledRecord) slab) := by
  refine noErr_bind (noErr_bind (noErr_deallocate _) fun _ _ => noErr_ok _)
    (fun _ => noErr_bind (noErr_lift (ShardRecord.noErr_logOp _ _ _ _)) fun _ =>
      noErr_bind (fun _ => noErr_ok _) fun _ => noErr_bind (noErr_lift ?_) fun _ _ =>
        noErr_ok _) slab
  exact noErr_assertPooled _ _

theorem needs_splitReplace (env : Env) {parent} (h : Scratch env.debug slab live)
    (hh : parent.spawned.held ≤ live) (hwf : parent.spawned.WellFormed) {ids} (hn : ids ≠ [])
    (hc : canSpawn parent.spawned.len ids.length) (opId : OpId) (payloadHash now) :
    Needs (splitReplaceApplyParent env parent ids opId payloadHash now) slab
      (spawnedRoom (parent.spawned.len + ids.length)) := by
  unfold splitReplaceApplyParent
  refine Needs.check (assert_of_true hn) (Needs.check (debugAssert_of_true hc) ?_)
  refine ((costs_allocateAppendedSlot parent.spawned hn).needs h.grown
    (PooledSpawned.allocateAppendedSlot_spec h.owns hh hwf hn hc)).andThen fun staged => ?_
  exact noErr_bind (noErr_lift (noErr_assert _ _)) fun _ => noErr_commit env _ _
    (fun spawned => { parent with spawned, status := .split, lease := none }) _ _ _ _

theorem rollback_ok {Q : Unit → ByteSlab → Prop} (hs : SmallSlab slab.capacity)
    (h : Prog.wp m slab Q (fun _ _ => False) (MetadataExhausted slab)) (a : α) :
    ∃ p, (m >>= fun _ => pure a : Prog ByteSlab Panic ε α) slab = .ok p := by
  unfold Prog.wp at h
  rw [Prog.bind_run]
  cases hm : m slab with
  | ok p => exact ⟨_, rfl⟩
  | err p =>
    rw [hm] at h
    exact h.elim
  | panic p =>
    rw [hm] at h
    exact absurd hs h.2

theorem needs_splitResidual (env : Env) {parent}
    (h : Scratch env.debug slab (parent.spec.held + live))
    (hh : parent.spawned.held ≤ parent.spec.held + live) (hwf : parent.spawned.WellFormed)
    (hc : canSpawn parent.spawned.len 1) (residualId newParentSpec) (opId : OpId)
    (payloadHash now) :
    Needs (splitResidualApplyParent env parent residualId newParentSpec opId payloadHash now) slab
      (spawnedRoom (parent.spawned.len + 1) + specRoom newParentSpec) := by
  unfold splitResidualApplyParent
  refine Needs.check (debugAssert_of_true hc) ?_
  refine seq (costs_allocateAppendedSlot parent.spawned (cons_ne_nil residualId []))
    h.grown (PooledSpawned.allocateAppendedSlot_spec h.owns hh hwf (cons_ne_nil _ _) hc)
    fun staged slab1 hg1 h1 => ?_
  obtain ⟨hp, -, -⟩ := h1
  have hs : SmallSlab slab1.capacity := by
    rw [hp.capacity]
    exact h.small
  have ho : Owns env.debug slab1 (parent.spec.held + (staged.held + live)) 0 := by
    have := hp.owns
    rwa [add_left_comm] at this
  refine (Needs.onErr (needs_updateSpec ⟨ho, hg1, hs⟩ newParentSpec)
    (wp_of_small hs (PooledShardSpec.updateFromRef_spec ho newParentSpec))
    fun e slab2 hr => ?_).andThen fun spec => noErr_commit env _ _
      (fun spawned => { parent with spec, spawned }) _ _ _ _
  -- the staged list is still held, so giving it back succeeds
  have hb : Owns env.debug slab2 (staged.slot.held + (parent.spec.held + live)) 0 := by
    have := hr.owns
    rwa [add_left_comm] at this
  exact rollback_ok (hr.capacity ▸ hs) (deallocate_spec hb) e

structure DecodedInScratch (env : Env) (ownerId : Nat) (owned : OwnedShardRecord) (blob : Bytes)
    (record : PooledRecord) (slab : ByteSlab) : Prop where
  decodes : ∃ fresh, (makeDecodeSlab blob.length ownerId : Run EtcdCodecError ByteSlab) =
    .ok fresh ∧
    decodeShardRecord env.debug blob fresh = .ok (record, slab)
  reads : ofView ((pooledView slab).onRecord record) = owned.normalize
  cursor_full_iff : ∀ update,
    (∃ e slab', record.cursor.updateFromRef env.debug update slab = .err (e, slab')) ↔
      decodeSlabCapacity blob.length < recordRoom owned + cursorRoom update.value
  splitReplace_full_iff : ∀ ids opId payloadHash now, ids ≠ [] →
    canSpawn owned.spawned.length ids.length →
    ((∃ e slab', splitReplaceApplyParent env record ids opId payloadHash now slab =
        .err (e, slab')) ↔
      decodeSlabCapacity blob.length <
        recordRoom owned + spawnedRoom (owned.spawned.length + ids.length))
  splitResidual_full_iff : ∀ residualId newParentSpec opId payloadHash now,
    canSpawn owned.spawned.length 1 →
    ((∃ e slab', splitResidualApplyParent env record residualId newParentSpec opId payloadHash now
        slab = .err (e, slab')) ↔
      decodeSlabCapacity blob.length < recordRoom owned +
        (spawnedRoom (owned.spawned.length + 1) + specRoom newParentSpec))

theorem exists_decodeSlab (debug) (ownerId blobLen) :
    ∃ fresh, (makeDecodeSlab blobLen ownerId : Run EtcdCodecError ByteSlab) = .ok fresh ∧
      Scratch debug fresh 0 ∧ fresh.bump = 0 ∧ fresh.capacity = decodeSlabCapacity blobLen := by
  have hc : decodeSlabCapacity blobLen ≤ maxDecodeSlabCapacity := by
    unfold decodeSlabCapacity
    exact max_le (by decide) (min_le_right _ _)
  have hs : SmallSlab (decodeSlabCapacity blobLen) := by
    have hmax : SmallSlab maxDecodeSlabCapacity := by
      unfold SmallSlab
      decide
    exact (Nat.div_le_div_right (Nat.add_le_add_right (Nat.div_le_div_right hc) 1)).trans hmax
  exact Scratch.fresh (hc.trans (by decide)) hs

theorem decodedInScratch (env : Env) (ownerId : Nat) (hb : BlobOf owned blob) :
    ∃ record slab, DecodedInScratch env ownerId owned blob record slab := by
  obtain ⟨fresh, hf, hsc, hbu, hca⟩ :=
    exists_decodeSlab env.debug ownerId blob.length
  have hd : Costs (decodeShardRecord env.debug blob) fresh (recordRoom owned) :=
    costs_decodeShardRecord hb
  have hc := hd hsc.grown
  have hspe := decodeShardRecord_spec hsc.owns blob
  have hr := recordRoom_le hb
  unfold Prog.wp at hc hspe
  cases hru : decodeShardRecord env.debug blob fresh with
  | err p =>
    rw [hru] at hc
    have hlt : fresh.capacity < fresh.bump + recordRoom owned := hc
    omega
  | panic p =>
    rw [hru] at hspe
    exact absurd hsc.small hspe.2
  | ok p =>
    obtain ⟨record, slab⟩ := p
    rw [hru] at hc hspe
    obtain ⟨hg, hb', hc'⟩ := hc
    obtain ⟨hp, hwf, _, hbl', hre⟩ := hspe
    cases hb.unique hbl'
    have hr : slab.bump = recordRoom owned := by
      rw [hb', hbu, Nat.zero_add]
    have hsca : slab.capacity = decodeSlabCapacity blob.length := hc'.trans hca
    have hl : record.spawned.len = owned.spawned.length := by
      have := congrArg (fun o => o.spawned.length) hre
      rw [← PooledSpawned.length_view hwf slab]
      exact this
    have hs : Scratch env.debug slab record.held := by
      refine ⟨?_, hg, hc' ▸ hsc.small⟩
      have := hp.owns
      rwa [add_zero] at this
    have hspa : record.spawned.held ≤ record.held := le_add_self
    have hh : record.held = record.spec.held + (record.cursor.held + record.spawned.held) :=
      add_assoc _ _ _
    refine ⟨record, slab, {
      decodes := ⟨fresh, hf, hru⟩
      reads := hre
      cursor_full_iff := ?_
      splitReplace_full_iff := ?_
      splitResidual_full_iff := ?_ }⟩
    · intro update
      rw [(needs_updateCursor hs update).err_iff, hr, hsca]
    · intro ids opId payloadHash now hn hsp
      rw [← hl] at hsp ⊢
      rw [(needs_splitReplace env hs hspa hwf hn hsp opId payloadHash now).err_iff, hr, hsca]
    intro residualId newParentSpec opId payloadHash now hsp
    rw [← hl] at hsp ⊢
    rw [hh] at hs hspa
    rw [(needs_splitResidual env hs hspa hwf hsp residualId newParentSpec opId payloadHash
      now).err_iff, hr, hsca]

/-! ## Building -/

def BuildFits (spec : ShardSpec) (cursor : CursorUpdate) : Prop :=
  specRoom spec + cursorRoom cursor.value ≤ buildSlabCapacityForSpecAndCursor spec cursor

/-- Fields within the limits of the source. -/
structure InLimits (spec : ShardSpec) (cursor : CursorUpdate) : Prop where
  spec : spec.Valid
  key_le : ∀ key ∈ cursor.lastKey, key.length ≤ maxKeySize
  token_le : ∀ token ∈ cursor.token, token.length ≤ maxTokenSize

theorem elim_length_le {field : Option Bytes} (h : ∀ data ∈ field, data.length ≤ n) :
    field.elim 0 List.length ≤ n := by
  cases field with
  | none => exact Nat.zero_le _
  | some data => exact h data rfl

theorem buildSlab_fresh (h : InLimits spec cursor) (ownerId : Nat) :
    ∃ slab, (ByteSlab.withCapacity (buildSlabCapacityForSpecAndCursor spec cursor) ownerId :
      Run ε ByteSlab) = .ok slab ∧ Scratch debug slab 0 ∧ slab.bump = 0 ∧
        slab.capacity = buildSlabCapacityForSpecAndCursor spec cursor := by
  have hc : buildSlabCapacityForSpecAndCursor spec cursor ≤ maxDecodeSlabCapacity := by
    have hs := h.spec.start_le
    have he := h.spec.end_le
    have hm := h.spec.metadata_le
    have hk := elim_length_le h.key_le
    have ht := elim_length_le h.token_le
    rw [maxKeySize] at hs he hk
    rw [maxMetadataSize] at hm
    rw [maxTokenSize] at ht
    rw [buildSlabCapacityForSpecAndCursor, maxDecodeSlabCapacity, defaultBuildSlabFloor]
    omega
  have hmax : SmallSlab maxDecodeSlabCapacity := by
    unfold SmallSlab
    decide
  exact Scratch.fresh (hc.trans (by decide))
    ((Nat.div_le_div_right (Nat.add_le_add_right (Nat.div_le_div_right hc) 1)).trans hmax)

theorem needs_newPooled (h : Scratch debug slab live) (tenant run) (shard) (spec) (cursor)
    (semantics) (parent) :
    Needs (newPooled debug tenant run shard spec cursor semantics parent) slab
      (specRoom spec + cursorRoom cursor.value) := by
  unfold newPooled
  refine seq (costs_fromSpecRef spec) h.grown
    (wp_of_small h.small (PooledShardSpec.fromSpecRef_spec h.owns spec))
    fun pooled slab1 hg1 h1 => ?_
  obtain ⟨hp, -⟩ := h1
  have hs : SmallSlab slab1.capacity := hp.capacity ▸ h.small
  have hcursor := wp_of_small hs (PooledCursor.fromUpdate_spec hp.owns cursor)
  refine (Needs.onErr ((costs_fromUpdate cursor).needs hg1 hcursor) hcursor
    fun e slab2 hr => ?_).andThen fun _ => ?_
  · exact rollback_ok (hr.capacity ▸ hs) (deallocateAll_spec hr.owns) e
  · exact noErr_bind (fun _ => noErr_ok _) fun _ =>
      noErr_bind (noErr_lift (noErr_assertPooled _ _)) fun _ _ => noErr_ok _

/-- A new record passes its assertions just when its id is derived if it has a parent, and only
then. -/
theorem newRecord_ok_iff {tenant : TenantId} {run : RunId} {shard : ShardId}
    {parent : Option ShardId} :
    (∃ r, (View.newRecord tenant run shard spec cursor semantics parent : Run ε _) = .ok r) ↔
      shard.isDerived = parent.isSome := by
  constructor
  · rintro ⟨r, hr⟩
    obtain ⟨rfl, hinv⟩ := View.newRecord_eq_ok hr
    have hi := assertInvariants_eq_ok.mp hinv
    exact Bool.eq_iff_iff.mpr ⟨hi.derived_parent, hi.parent_derived⟩
  · intro h
    refine ⟨_, check_eq_ok.mpr ⟨assertInvariants_eq_ok.mpr ?_, rfl⟩⟩
    constructor <;> simp [ShardRecord.fresh, ShardStatus.isTerminal, h]

theorem encodable_fresh (h : InLimits spec cursor) (tenant run shard semantics parent) :
    (ofView (.fresh tenant run shard spec cursor.value semantics parent [])).Encodable where
  start_lt := h.spec.start_le.trans_lt (by decide)
  end_lt := h.spec.end_le.trans_lt (by decide)
  metadata_lt := h.spec.metadata_le.trans_lt (by decide)
  key_lt key hk := (h.key_le key hk).trans_lt (by decide)
  token_lt token ht := (h.token_le token ht).trans_lt (by decide)
  spawned_lt := by simp [ofView, ShardRecord.fresh]
  opLog_lt := by simp [ofView, ShardRecord.fresh]
  lease_joint := rfl

/-- A record built in its slab is checked again, encoded and released without failure. -/
structure Built (debug : Bool) (record : PooledRecord) (slab : ByteSlab) : Prop where
  checked : (assertPooled debug record slab : Run BuildBlobError Unit) = .ok ()
  encoded : ∃ blob, encodeShardRecord debug record slab = .ok blob
  released : ∀ ε : Type,
    ∃ p, (ShardRecord.deallocateFields debug record : Prog ByteSlab Panic ε Unit) slab = .ok p

/-- A record that owns all that is live in a small slab is released without failure. -/
theorem deallocateFields_ok {record : PooledRecord} (h : Owns debug slab record.held 0)
    (hs : SmallSlab slab.capacity) :
    ∃ p, (ShardRecord.deallocateFields debug record : Prog ByteSlab Panic ε Unit) slab = .ok p := by
  have hheld : Owns debug slab (record.held + 0) 0 := by simpa using h
  have hd := deallocateFields_spec (ε := ε) hheld
  unfold Prog.wp at hd
  cases hr : (ShardRecord.deallocateFields debug record : Prog ByteSlab Panic ε Unit) slab with
  | ok p => exact ⟨p, rfl⟩
  | err p =>
    rw [hr] at hd
    exact hd.elim
  | panic p =>
    rw [hr] at hd
    exact absurd hs hd.2

theorem newPooled_outcome (h : InLimits spec cursor) (hs : Scratch debug slab 0)
    (hb : slab.bump = 0) (hc : slab.capacity = buildSlabCapacityForSpecAndCursor spec cursor)
    (tenant run) (shard : ShardId) (semantics) (parent : Option ShardId) :
    Prog.wp (newPooled debug tenant run shard spec cursor semantics parent) slab
      (fun record slab' => (BuildFits spec cursor ∧ shard.isDerived = parent.isSome) ∧
        Built debug record slab')
      (fun _ _ => ¬ BuildFits spec cursor)
      (fun _ => BuildFits spec cursor ∧ shard.isDerived ≠ parent.isSome) := by
  have hneeds := needs_newPooled hs tenant run shard spec cursor semantics parent
  have hspec := newPooled_spec hs.owns tenant run shard spec cursor semantics parent
  unfold Needs at hneeds
  rw [hb, hc, Nat.zero_add] at hneeds
  unfold Prog.wp at hneeds hspec ⊢
  cases hn : newPooled debug tenant run shard spec cursor semantics parent slab with
  | err p =>
    rw [hn] at hneeds
    exact not_le.mpr hneeds
  | panic p =>
    rw [hn] at hneeds hspec
    refine ⟨hneeds, fun hd => ?_⟩
    obtain ⟨r, hr⟩ := newRecord_ok_iff.mpr hd
    rcases hspec with hp | hp
    · cases hr.symm.trans hp
    · exact hp.2 hs.small
  | ok p =>
    rw [hn] at hneeds hspec
    obtain ⟨hp, hwf, hview⟩ := hspec
    have howns : Owns debug p.2 p.1.held 0 := by simpa using hp.owns
    obtain ⟨hfresh, hinv⟩ := View.newRecord_eq_ok hview
    refine ⟨⟨hneeds, newRecord_ok_iff.mp ⟨_, hview⟩⟩, ?_, ?_, fun ε => ?_⟩
    · rw [assertPooled_eq howns le_rfl hwf]
      exact assertInvariants_eq_ok.mpr (assertInvariants_eq_ok.mp hinv)
    · have he := encodable_fresh h tenant run shard semantics parent
      rw [← hfresh] at he
      exact ⟨_, (encodeShardRecord_eq howns le_rfl hwf he).1⟩
    · exact deallocateFields_ok howns (hp.capacity ▸ hs.small)

/-- What building a blob comes to: it succeeds, runs out of slab or aborts. -/
structure BuildOutcome (result : Run BuildBlobError Bytes) (fits linked : Prop) : Prop where
  ok_iff : (∃ blob, result = .ok blob) ↔ fits ∧ linked
  full_iff : result = .err .resourceExhausted ↔ ¬ fits

theorem buildOutcome (h : InLimits spec cursor) (ownerId : Nat) (tenant run) (shard : ShardId)
    (semantics) (parent : Option ShardId) {k : PooledRecord × ByteSlab → Run BuildBlobError Bytes}
    (hk : ∀ p, Built debug p.1 p.2 → ∃ blob, k p = .ok blob) :
    BuildOutcome (do
      let slab ← ByteSlab.withCapacity (buildSlabCapacityForSpecAndCursor spec cursor) ownerId
      let p ← (newPooled debug tenant run shard spec cursor semantics parent slab).mapErr fun _ =>
        .resourceExhausted
      k p) (BuildFits spec cursor) (shard.isDerived = parent.isSome) := by
  obtain ⟨slab, hslab, hs, hb, hc⟩ :
      ∃ slab, (ByteSlab.withCapacity _ ownerId : Run BuildBlobError ByteSlab) = .ok slab ∧
        Scratch debug slab 0 ∧ slab.bump = 0 ∧ slab.capacity = _ := buildSlab_fresh h ownerId
  have hout := newPooled_outcome h hs hb hc tenant run shard semantics parent
  unfold Prog.wp at hout
  rw [hslab, ok_bind]
  cases hn : newPooled debug tenant run shard spec cursor semantics parent slab with
  | err p =>
    rw [hn] at hout
    exact ⟨⟨fun ⟨_, he⟩ => (by cases he), fun hf => absurd hf.1 hout⟩, fun _ => hout, fun _ => rfl⟩
  | panic p =>
    rw [hn] at hout
    exact ⟨⟨fun ⟨_, he⟩ => (by cases he), fun hf => absurd hf.2 hout.2⟩, fun he => (by cases he),
      fun hf => absurd hout.1 hf⟩
  | ok p =>
    rw [hn] at hout
    obtain ⟨hf, hbuilt⟩ := hout
    obtain ⟨blob, hblob⟩ := hk p hbuilt
    rw [mapErr_ok, ok_bind, hblob]
    exact ⟨⟨fun _ => hf, fun _ => ⟨blob, rfl⟩⟩, fun he => (by cases he), fun hn => absurd hf.1 hn⟩

theorem buildRootShardBlob_outcome (debug ownerId tenant run semantics)
    (input : InitialShardInput) (h : InLimits input.spec input.cursor) :
    BuildOutcome (buildRootShardBlob debug ownerId tenant run semantics input)
      (BuildFits input.spec input.cursor) (input.shard.isDerived = false) := by
  refine buildOutcome h ownerId tenant run input.shard semantics none ?_
  rintro ⟨record, slab⟩ hbuilt
  obtain ⟨blob, hblob⟩ := hbuilt.encoded
  obtain ⟨q, hq⟩ := hbuilt.released EtcdCodecError
  refine ⟨blob, ?_⟩
  dsimp only at hblob hq hbuilt ⊢
  rw [hbuilt.checked, ok_bind, encodeEphemeralShardBlob, hblob]
  dsimp only
  rw [hq]
  rfl

theorem buildChildShardBlob_outcome (debug ownerId tenant run semantics) (shard parent : ShardId)
    (h : InLimits spec cursor) (hd : shard.isDerived = true) :
    BuildOutcome (buildChildShardBlob debug ownerId tenant run semantics shard parent spec cursor)
      (BuildFits spec cursor) True := by
  have hlinked : (shard.isDerived = (some parent).isSome) = True := eq_true hd
  rw [← hlinked]
  refine buildOutcome h ownerId tenant run shard semantics (some parent) ?_
  rintro ⟨record, slab⟩ hbuilt
  obtain ⟨blob, hblob⟩ := hbuilt.encoded
  obtain ⟨q, hq⟩ := hbuilt.released EtcdCodecError
  refine ⟨blob, ?_⟩
  dsimp only at hblob hq hbuilt ⊢
  rw [hbuilt.checked, ok_bind, hblob, mapErr_ok, ok_bind, hq]
  rfl

/-- **Scratch slabs.** Decoding always fits. A root blob, the blob of a child and an operation on a
decoded record fit exactly when their blocks, rounded up to powers of two, do. -/
theorem scratch_slabs_exact (env : Env) (ownerId : Nat) :
    (∀ tenant run semantics shards, validateManifest shards = .ok () → ∀ input ∈ shards,
      (∀ token ∈ input.cursor.token, token.length ≤ maxTokenSize) →
      BuildOutcome (buildRootShardBlob env.debug ownerId tenant run semantics input)
        (BuildFits input.spec input.cursor) (input.shard.isDerived = false)) ∧
    (∀ tenant run semantics parent opId kind index spec cursor, InLimits spec cursor →
      BuildOutcome (buildChildShardBlob env.debug ownerId tenant run semantics
        (deriveSplitShardId env run parent opId kind index) parent spec cursor)
        (BuildFits spec cursor) True) ∧
    ∀ owned blob, BlobOf owned blob →
      ∃ record slab, DecodedInScratch env ownerId owned blob record slab := by
  refine ⟨fun tenant run semantics shards hm input hi htoken => ?_,
    fun tenant run semantics parent opId kind index spec cursor h => ?_,
    fun owned blob hblob => decodedInScratch env ownerId hblob⟩
  · have hvalid := validateManifest_eq_ok.mp hm
    exact buildRootShardBlob_outcome _ _ _ _ _ _
      ⟨hvalid.spec_valid input hi, hvalid.key_le input hi, htoken⟩
  · exact buildChildShardBlob_outcome _ _ _ _ _ _ _ h (isDerived_deriveSplitShardId _ _ _ _ _ _)

/-- A root shard just registered, over the keys from `[1]` to `[9]`. -/
def rootOwned : OwnedShardRecord where
  tenant := ⟨1⟩
  run := ⟨7⟩
  shard := ⟨3⟩
  status := .active
  parkReason := none
  keyRangeStart := [1]
  keyRangeEnd := [9]
  metadata := []
  cursorLastKey := none
  cursorToken := none
  cursorSemantics := .completed
  leaseOwner := none
  leaseDeadline := none
  fenceEpoch := 1
  parent := none
  spawned := []
  opLog := []

theorem rootOwned_blob : BlobOf rootOwned (putHeader .shardRecord ++ rootOwned.wire) where
  bounded := ⟨by decide, by decide, by decide, by simp [rootOwned], by simp [rootOwned]⟩
  valid := validate_eq_ok.mp (by decide)
  acceptable := ⟨⟨by decide, by decide, by decide, by decide⟩, by simp [rootOwned],
    by simp [rootOwned]⟩
  layout := rfl

/-- A root shard over the same keys, as it is registered. -/
def rootInput : InitialShardInput := ⟨⟨3⟩, ⟨[1], [9], []⟩, CursorUpdate.initial⟩

theorem scratch_slabs_exact_root :
    (∃ blob, buildRootShardBlob false 0 ⟨1⟩ ⟨7⟩ .completed rootInput = .ok blob) ∧
    (∃ blob, buildChildShardBlob false 0 ⟨1⟩ ⟨7⟩ .completed
      (deriveSplitShardId Demo.env ⟨7⟩ ⟨3⟩ ⟨5⟩ .child 0) ⟨3⟩ rootInput.spec
      CursorUpdate.initial = .ok blob) ∧
    ∃ record slab, DecodedInScratch Demo.env 0 rootOwned
      (putHeader .shardRecord ++ rootOwned.wire) record slab := by
  obtain ⟨hroot, hchild, hdecode⟩ := scratch_slabs_exact Demo.env 0
  have hlimits : InLimits rootInput.spec CursorUpdate.initial :=
    ⟨⟨by decide, by decide, by decide, by decide⟩, fun _ h => (by cases h), fun _ h => (by cases h)⟩
  have hfits : BuildFits rootInput.spec CursorUpdate.initial := by
    unfold BuildFits
    decide
  refine ⟨?_, ?_, hdecode rootOwned _ rootOwned_blob⟩
  · exact (hroot _ _ _ [rootInput] (by decide) _ (mem_singleton_self _) hlimits.token_le).ok_iff.mpr
      ⟨hfits, by decide⟩
  · exact (hchild _ _ _ _ _ _ _ _ _ hlimits).ok_iff.mpr ⟨hfits, trivial⟩

/-- A root shard with 513 bytes of metadata: they take a block of 1024, and the two bounds one block
each. -/
def wideInput : InitialShardInput := ⟨⟨3⟩, ⟨[1], [9], List.replicate 513 0⟩, CursorUpdate.initial⟩

def longUpdate : CursorUpdate where
  lastKey := some [5]
  token := some (List.replicate 2049 0)
  key_ne_nil := fun key h => by cases h; exact List.cons_ne_nil _ _
  token_ne_nil := fun token h => by
    cases h
    exact fun hnil => absurd (List.replicate_eq_nil_iff _ |>.mp hnil) (by decide)
  key_of_token := fun _ => rfl

theorem scratch_slabs_too_small :
    (validateManifest [wideInput] = .ok () ∧
      buildRootShardBlob true 0 ⟨1⟩ ⟨7⟩ .completed wideInput = .err .resourceExhausted) ∧
    (∀ token ∈ longUpdate.token, token.length ≤ maxTokenSize) ∧
    ∃ record slab,
      DecodedInScratch Demo.env 0 rootOwned (putHeader .shardRecord ++ rootOwned.wire) record slab ∧
      ∃ e slab', record.cursor.updateFromRef false longUpdate slab = .err (e, slab') := by
  refine ⟨⟨by decide +kernel, ?_⟩, ?_, ?_⟩
  · have hfull : (match buildRootShardBlob true 0 ⟨1⟩ ⟨7⟩ .completed wideInput with
        | .err .resourceExhausted => true
        | _ => false) = true := by
      decide +kernel
    generalize buildRootShardBlob true 0 ⟨1⟩ ⟨7⟩ .completed wideInput = result at hfull ⊢
    split at hfull
    · rfl
    · cases hfull
  · intro token htoken
    cases htoken
    rw [length_replicate]
    decide
  obtain ⟨record, slab, h⟩ := decodedInScratch Demo.env 0 rootOwned_blob
  refine ⟨record, slab, h, (h.cursor_full_iff longUpdate).mpr ?_⟩
  have hcap : decodeSlabCapacity (putHeader .shardRecord ++ rootOwned.wire).length = 4096 := by
    decide
  have htoken : 4096 ≤ cursorRoom longUpdate.value := by
    have hblock : blockSize 2049 = 4096 := by decide
    simp only [cursorRoom, longUpdate, CursorUpdate.value, Option.getD_some,
      length_replicate, hblock]
    omega
  have hroom : 0 < recordRoom rootOwned := by decide
  omega

end GossipRs.Etcd
