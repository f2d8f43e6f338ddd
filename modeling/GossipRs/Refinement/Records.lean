import GossipRs.Refinement.State

/-! Building, inserting and removing records. The steps of a split hold slots that no table holds
yet; `Leads` says what a step makes of the tables and of the slots held on the side. -/

namespace GossipRs

open Lib Stdx Outcome
open Coordinator (onSlab release)
open ShardRecord (assertPooled fresh logOp newPooled opLogPush)
open Prog (wp_seq wp_bind wp_mono wp_get wp_lift wp_zoom wp_set)

variable {ε ε' α : Type} {env : Env} {s s' : Coordinator}

theorem assertInvariants_mapErr (f : ε → ε') (r) :
    (viewReader.assertInvariants r).mapErr f = viewReader.assertInvariants r := by
  simp only [Reader.assertInvariants, ShardRecord.assertInvariants,
    ShardRecord.assertLifecycleInvariants, ShardRecord.assertLineageInvariants,
    mapErr_bind, mapErr_assert]
  rfl

theorem View.newRecord_mapErr (f : ε → ε') (tenant run) (shard) (spec)
    (cursor) (semantics) (parent) :
    (View.newRecord tenant run shard spec cursor semantics parent).mapErr f =
      View.newRecord tenant run shard spec cursor semantics parent := by
  simp only [View.newRecord, mapErr_bind, assertInvariants_mapErr]
  rfl

theorem logOp_mapErr (f : ε → ε') (r : RecordView) (kind) (opId : OpId) (payloadHash now) :
    (r.logOp kind opId payloadHash now).mapErr f = r.logOp kind opId payloadHash now := by
  have he : (OpLogEntry.new opId kind .completed payloadHash now).mapErr f =
      OpLogEntry.new opId kind .completed payloadHash now := by
    unfold OpLogEntry.new
    split
    · split <;> rfl
    · rfl
  simp only [logOp, opLogPush, mapErr_bind, he, mapErr_assert]
  rfl

section Slab

variable {debug : Bool} {slab slab' : ByteSlab} {live : Multiset ByteSlot} {r : PooledRecord}

theorem assertPooled_eq (h : Owns debug slab live 0) (hr : r.held ≤ live)
    (hwf : r.spawned.WellFormed) :
    (assertPooled debug r slab : Run ε Unit) =
      viewReader.assertInvariants ((pooledView slab).onRecord r) := by
  have hit : (pooledReader debug slab).spawned r.spawned = .ok (r.spawned.view slab) :=
    PooledSpawned.iter_ok h (held_spawned_le hr) hwf
  rw [(agrees_of_held h hr hwf).assertInvariants, assertPooled,
    PooledSpawned.iter_ok h (held_spawned_le hr) hwf, Reader.assertInvariants, hit]
  rfl

theorem fresh_held (tenant run) (shard) (spec) (cursor)
    (semantics) (parent) :
    (fresh tenant run shard spec cursor semantics parent PooledSpawned.new).held =
      cursor.held + spec.held := by
  have hn : PooledSpawned.new.held = 0 := rfl
  rw [ShardRecord.held, fresh, hn, add_zero, Multiset.add_comm]

theorem newPooled_spec (h : Owns debug slab live 0) (tenant run) (shard : ShardId)
    (spec : ShardSpec) (cursor : CursorUpdate) (semantics) (parent : Option ShardId) :
    Prog.wp (newPooled debug tenant run shard spec cursor semantics parent) slab
      (fun r slab' => Placed debug slab live r.held slab' ∧ r.spawned.WellFormed ∧
        (View.newRecord tenant run shard spec cursor semantics parent : Run SlabFull _) =
          .ok ((pooledView slab').onRecord r))
      (fun _ slab' => Released debug slab live slab')
      (fun p => (View.newRecord tenant run shard spec cursor semantics parent : Run SlabFull _) =
        .panic p ∨ MetadataExhausted slab p) := by
  unfold newPooled
  refine wp_seq (PooledShardSpec.fromSpecRef_spec h spec) (fun pooledSpec slab1 h1 => ?_)
    (fun _ _ hr => hr) (fun _ hp => .inr hp)
  obtain ⟨hp1, hs1⟩ := h1
  rw [wp_bind, Prog.wp_onErr]
  refine wp_mono (PooledCursor.fromUpdate_spec hp1.owns cursor)
    (fun pooledCursor slab2 h2 => ?_) (fun e slab2 hr2 => ?_)
    (fun _ hp => .inr (hp.of_capacity hp1.capacity))
  · obtain ⟨hp2, hc2⟩ := h2
    have hs2 : pooledSpec.view slab2 = spec :=
      (PooledShardSpec.view_congr hp2.same le_self_add).trans hs1
    rw [wp_bind, wp_get, wp_bind, wp_lift]
    -- the slots of the new record are those of its two fields
    generalize hre : fresh tenant run shard pooledSpec pooledCursor semantics parent
      PooledSpawned.new = r
    have hh : r.held = pooledCursor.held + pooledSpec.held := by
      rw [← hre, fresh_held]
    have hwf : r.spawned.WellFormed := by
      rw [← hre]
      exact PooledSpawned.wellFormed_new
    have hv : (pooledView slab2).onRecord r =
        fresh tenant run shard spec cursor.value semantics parent [] := by
      rw [← hre, ← hs2, ← hc2]
      rfl
    have hpl : Placed debug slab live r.held slab2 := by
      refine ⟨?_, hp1.same.trans (hp2.same.mono le_add_self), hp2.capacity.trans hp1.capacity⟩
      rw [hh, add_assoc]
      exact hp2.owns
    rw [assertPooled_eq hpl.owns le_self_add hwf, View.newRecord, ← hv]
    cases hinv : (viewReader.assertInvariants ((pooledView slab2).onRecord r) :
        Run SlabFull Unit) with
    | err e => exact absurd hinv (Reader.noErr_assertInvariants _ _ e)
    | panic p => exact .inl rfl
    | ok u => exact ⟨hpl, hwf, rfl⟩
  · refine wp_seq (deallocateAll_spec hr2.owns) (fun _ slab3 hr3 => ?_)
      (fun _ _ hf => hf.elim) (fun _ hp => .inr (hp.of_capacity (hr2.capacity.trans hp1.capacity)))
    refine ⟨hr3.owns, ?_, hr3.capacity.trans (hr2.capacity.trans hp1.capacity)⟩
    exact hp1.same.trans ((hr2.same.mono le_add_self).trans hr3.same)

end Slab

/-- `s` has the tables `t` and holds `extra` on the side; the slots of `live` read as in `slab`. -/
structure Leads (env : Env) (live extra : Multiset ByteSlot) (t : Tables PooledRecord)
    (slab : ByteSlab) (s : Coordinator) : Prop where
  tables : s.tables = t
  holding : Holding env extra s
  same : ByteSlab.SameReads live slab s.slab
  capacity : s.slab.capacity = slab.capacity

section Steps

variable {live live' extra extra' : Multiset ByteSlot} {t t' : Tables PooledRecord}
  {tenant : TenantId} {key : ShardKey} {r : PooledRecord} {slab : ByteSlab}

theorem Leads.trans (h1 : Leads env live extra t slab s)
    (h2 : Leads env live' extra' t' s.slab s') (hl : live' ≤ live) :
    Leads env live' extra' t' slab s' :=
  ⟨h2.tables, h2.holding, (h1.same.mono hl).trans h2.same, h2.capacity.trans h1.capacity⟩

theorem Leads.mono (h : Leads env live extra t slab s) (hl : live' ≤ live) :
    Leads env live' extra t slab s :=
  ⟨h.tables, h.holding, h.same.mono hl, h.capacity⟩

theorem Leads.view (h : Leads env live extra t slab s) (hl : t.held ≤ live) :
    s.view = t.mapRecords (pooledView slab).onRecord := by
  rw [Coordinator.view, h.tables]
  exact mapRecords_congr (h.same.mono hl)

theorem Holding.placed (h : Holding env extra s)
    (hp : Placed env.debug s.slab (extra + s.tables.held) new slab') :
    Leads env (extra + s.tables.held) (new + extra) s.tables s.slab { s with slab := slab' } :=
  ⟨rfl, ⟨by rw [add_assoc]; exact hp.owns, h.spawned, h.counted⟩, hp.same, hp.capacity⟩

theorem Holding.released (h : Holding env extra s)
    (hr : Released env.debug s.slab (extra' + s.tables.held) slab') :
    Leads env (extra' + s.tables.held) extra' s.tables s.slab { s with slab := slab' } :=
  ⟨rfl, ⟨hr.owns, h.spawned, h.counted⟩, hr.same, hr.capacity⟩

theorem newRecord_spec (h : Holding env extra s) (full : SlabFull → ε) (tenant run)
    (shard : ShardId) (spec : ShardSpec) (cursor : CursorUpdate) (semantics)
    (parent : Option ShardId) :
    Prog.wp (onSlab full (newPooled env.debug tenant run shard spec cursor semantics parent)) s
      (fun r s' => Leads env (extra + s.tables.held) (r.held + extra) s.tables s.slab s' ∧
        r.spawned.WellFormed ∧
        (View.newRecord tenant run shard spec cursor semantics parent : Run ε _) =
          .ok ((pooledView s'.slab).onRecord r))
      (fun e s' => Leads env (extra + s.tables.held) extra s.tables s.slab s' ∧ ∃ f, e = full f)
      (fun p => (View.newRecord tenant run shard spec cursor semantics parent : Run ε _) =
        .panic p ∨ MetadataExhausted s.slab p) := by
  rw [onSlab, wp_zoom, ← View.newRecord_mapErr full]
  refine wp_mono (newPooled_spec h.owns tenant run shard spec cursor semantics parent)
    (fun r slab' hr => ?_) (fun e slab' hr => ⟨h.released hr, e, rfl⟩) (fun p hp => ?_)
  · obtain ⟨hpl, hwf, hv⟩ := hr
    exact ⟨h.placed hpl, hwf, by rw [hv, mapErr_ok]⟩
  · exact hp.imp_left fun hp => by rw [hp, mapErr_panic]

theorem onSlab_record_spec {m : Prog ByteSlab Panic SlabFull PooledRecord}
    {v : Run SlabFull RecordView} (full : SlabFull → ε) (h : Holding env (r.held + extra) s)
    (hm : Prog.wp m s.slab
      (fun r' slab' => Placed env.debug s.slab (extra + s.tables.held) r'.held slab' ∧
        r'.spawned.WellFormed ∧ v = .ok ((pooledView slab').onRecord r'))
      (fun _ slab' => Released env.debug s.slab (r.held + (extra + s.tables.held)) slab')
      (fun p => v = .panic p ∨ MetadataExhausted s.slab p)) :
    Prog.wp (onSlab full m) s
      (fun r' s' => Leads env (extra + s.tables.held) (r'.held + extra) s.tables s.slab s' ∧
        r'.spawned.WellFormed ∧ v.mapErr full = .ok ((pooledView s'.slab).onRecord r'))
      (fun e s' => Leads env (r.held + extra + s.tables.held) (r.held + extra) s.tables s.slab s' ∧
        ∃ f, e = full f)
      (fun p => v.mapErr full = .panic p ∨ MetadataExhausted s.slab p) := by
  rw [onSlab, wp_zoom]
  refine wp_mono hm (fun r' slab' hr => ?_) (fun e slab' hr => ?_) (fun p hp => ?_)
  · obtain ⟨hpl, hwf, hv⟩ := hr
    refine ⟨⟨rfl, ⟨?_, h.spawned, h.counted⟩, hpl.same, hpl.capacity⟩, hwf, ?_⟩
    · rw [add_assoc]
      exact hpl.owns
    · rw [hv, mapErr_ok]
  · rw [← add_assoc] at hr
    exact ⟨h.released hr, e, rfl⟩
  · exact hp.imp_left fun hp => by rw [hp, mapErr_panic]

theorem release_spec (h : Holding env (r.held + extra) s) :
    Prog.wp (release (ShardRecord.deallocateFields env.debug r) : Op ε Unit) s
      (fun _ s' => Leads env (extra + s.tables.held) extra s.tables s.slab s') (fun _ _ => False)
      (MetadataExhausted s.slab) := by
  rw [release, wp_zoom]
  have ho := h.owns
  rw [add_assoc] at ho
  exact wp_mono (deallocateFields_spec ho) (fun _ _ hr => h.released hr)
    (fun _ _ hf => hf) (fun _ hp => hp)

theorem held_putShard (t : Tables PooledRecord) :
    (t.putShard tenant key r).held = r.held + t.restHeld tenant key := held_set t

theorem shardInsert_spec (h : Holding env (r.held + extra) s) (hwf : r.spawned.WellFormed) :
    Prog.wp (shardInsert env tenant key r : Op ε Unit) s
      (fun _ s' => Leads env (extra + (s.tables.putShard tenant key r).held) extra
        (s.tables.putShard tenant key r) s.slab s')
      (fun _ _ => False)
      (fun p => (s.tables.getShard tenant key).isSome ∧ MetadataExhausted s.slab p) := by
  unfold shardInsert
  rw [wp_bind, wp_get, wp_bind, wp_set]
  dsimp only
  have hc := h.counted.putShard tenant key r
  -- the new map, with whatever the replaced record held still on the side
  have hpu : ∀ old, s.tables.held = old + s.tables.restHeld tenant key →
      Holding env (old + extra) { s with tables := s.tables.putShard tenant key r } := by
    intro old ho
    refine Holding.of_set rfl hc ?_ hwf h.spawned
    have := h.owns
    rw [ho] at this
    have he : old + extra + (r.held + s.tables.restHeld tenant key) =
        r.held + extra + (old + s.tables.restHeld tenant key) := by abel
    rwa [he]
  cases hg : s.tables.getShard tenant key with
  | none =>
    have hn := hpu 0 (by rw [restHeld_of_none hg, zero_add])
    rw [zero_add] at hn
    rw [wp_bind, wp_get, wp_lift, hc.assertShardCount]
    exact ⟨rfl, hn, .refl _ _, rfl⟩
  | some old =>
    refine wp_seq (release_spec (hpu old.held (held_eq_add_rest hg)))
      (fun _ s' hs' => ?_) (fun _ _ hf => hf) (fun _ hp => ⟨rfl, hp⟩)
    rw [wp_bind, wp_get, wp_lift, hs'.tables, hc.assertShardCount]
    exact ⟨hs'.tables, hs'.holding, hs'.same, hs'.capacity⟩

theorem Holding.of_shards (h : Holding env extra s) (hs : t.shards = s.tables.shards)
    (hc : t.totalShardCount = s.tables.totalShardCount) :
    Holding env extra { s with tables := t } where
  owns := by
    rw [Tables.held, hs]
    exact h.owns
  spawned tenant key r hr := h.spawned tenant key r (by
    rw [Tables.getShard, hs] at hr
    exact hr)
  counted := by
    rw [Tables.Counted, hc, hs]
    exact h.counted

theorem Holding.dropShard (h : Holding env extra s) (hg : s.tables.getShard tenant key = some r) :
    Holding env (r.held + extra) { s with tables := s.tables.dropShard tenant key } where
  owns := by
    have he : r.held + extra + (s.tables.dropShard tenant key).held = extra + s.tables.held := by
      rw [held_eq_add_rest hg, show (s.tables.dropShard tenant key).held =
        s.tables.restHeld tenant key from rfl]
      abel
    rw [he]
    exact h.owns
  spawned tenant' key' r' hr' := by
    rw [Tables.getShard_dropShard] at hr'
    split at hr'
    · cases hr'
    · exact h.spawned tenant' key' r' hr'
  counted := h.counted.dropShard tenant key

/-- `t` is `t₀` with the shards of a list inserted, newest first, each under a new key. -/
inductive Inserted (tenant : TenantId) (run : RunId) (t₀ : Tables PooledRecord) :
    List ShardId → Tables PooledRecord → Prop
  | nil : Inserted tenant run t₀ [] t₀
  | cons {done : List ShardId} {t : Tables PooledRecord} {id : ShardId} {r : PooledRecord}
      (before : Inserted tenant run t₀ done t) (new : t.getShard tenant ⟨run, id⟩ = none) :
      Inserted tenant run t₀ (id :: done) (t.putShard tenant ⟨run, id⟩ r)

section Inserted

variable {run : RunId} {t₀ : Tables PooledRecord} {done : List ShardId}

theorem Inserted.known (h : Inserted tenant run t0 done t)
    (hk : ∃ inner, t0.shards.lookup tenant = some inner) :
    ∃ inner, t.shards.lookup tenant = some inner := by
  cases h with
  | nil => exact hk
  | cons _ _ => exact ⟨_, by rw [Tables.putShard, FMap2.set, Finmap.lookup_insert]⟩

theorem Inserted.newest {id} (h : Inserted tenant run t0 (id :: done) t) :
    ∃ t' r, Inserted tenant run t0 done t' ∧ t'.getShard tenant ⟨run, id⟩ = none ∧
      t = t'.putShard tenant ⟨run, id⟩ r := by
  cases h with
  | cons before new => exact ⟨_, _, before, new, rfl⟩

theorem Inserted.held_le (h : Inserted tenant run t0 done t) : t0.held ≤ t.held := by
  induction h with
  | nil => exact le_refl _
  | cons _ hn ih =>
    rw [held_putShard, restHeld_of_none hn]
    exact ih.trans le_add_self

theorem Inserted.present (h : Inserted tenant run t0 done t) :
    ∀ id ∈ done, (t.getShard tenant ⟨run, id⟩).isSome := by
  induction h with
  | nil => intro id hid; cases hid
  | cons _ _ ih =>
    intro id' hi'
    rw [Tables.getShard_putShard]
    split
    · rfl
    next hn =>
      rcases List.mem_cons.mp hi' with rfl | hm
      · exact absurd ⟨rfl, rfl⟩ hn
      · exact ih id' hm

theorem Inserted.indexedBut (h : Inserted tenant run t0 done t)
    (hin : t0.IndexedBut tenant key) : t.IndexedBut tenant key := by
  induction h with
  | nil => exact hin
  | cons _ _ ih => exact ih.putShard_other _ _ _

theorem rollback_spec (hk : ∃ inner, t0.shards.lookup tenant = some inner) :
    ∀ {done s}, Holding env extra s → Inserted tenant run t0 done s.tables →
      Prog.wp (splitReplaceRollbackInsertedChildren env tenant run done : Op ε Unit) s
        (fun _ s' => Leads env (extra + t0.held) extra t0 s.slab s') (fun _ _ => False)
        (MetadataExhausted s.slab) := by
  intro done
  induction done with
  | nil =>
    intro s h hins
    have ht : s.tables = t0 := by
      cases hins
      rfl
    exact ⟨ht, h, .refl _ _, rfl⟩
  | cons id rest ih =>
    intro s h hins
    obtain ⟨t, r, hr, hn, ht⟩ := hins.newest
    obtain ⟨inner, hin⟩ := hr.known hk
    have hg : s.tables.getShard tenant ⟨run, id⟩ = some r := by
      rw [ht, Tables.getShard_putShard, if_pos ⟨rfl, rfl⟩]
    have hb : s.tables.dropShard tenant ⟨run, id⟩ = t := by
      rw [ht, Tables.dropShard_putShard hin hn]
    have hd := h.dropShard hg
    rw [hb] at hd
    unfold splitReplaceRollbackInsertedChildren
    rw [wp_bind, wp_get, wp_bind, wp_lift, h.counted.shardRemove, hg, hb, post_ok, wp_bind, wp_set]
    dsimp only
    refine wp_seq (release_spec hd) (fun _ s1 h1 => ?_) (fun _ _ hf => hf) (fun _ hp => hp)
    refine wp_mono (ih h1.holding (h1.tables ▸ hr)) (fun _ s2 h2 => ?_)
      (fun _ _ hf => hf) (fun _ hp => hp.of_capacity h1.capacity)
    exact h1.trans h2 (add_le_add_right hr.held_le extra)

end Inserted

end Steps

end GossipRs
