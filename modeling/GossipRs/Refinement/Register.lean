import GossipRs.Refinement.Records

/-! Registration stages every record before it inserts the first, so a slab failure only has staged
records to release. -/

namespace GossipRs

open Lib Stdx Outcome List
open InitialShardInput (shard)
open Prog (wp_seq wp_mono wp_bind wp_get wp_lift)

variable {ε : Type} {env : Env} {s : Coordinator} {tenant : TenantId} {run : RunId}
  {extra : Multiset ByteSlot}

def heldStaged (staged : List (ShardKey × PooledRecord)) : Multiset ByteSlot :=
  (staged.map fun entry => entry.2.held).sum

def viewStaged (slab : ByteSlab) (staged : List (ShardKey × PooledRecord)) :
    List (ShardKey × RecordView) :=
  staged.map (Prod.map id (pooledView slab).onRecord)

@[simp] theorem heldStaged_cons (entry : ShardKey × PooledRecord)
    (rest : List (ShardKey × PooledRecord)) :
    heldStaged (entry :: rest) = entry.2.held + heldStaged rest := by
  simp [heldStaged]

@[simp] theorem heldStaged_append (a b : List (ShardKey × PooledRecord)) :
    heldStaged (a ++ b) = heldStaged a + heldStaged b := by
  simp [heldStaged]

variable {staged : List (ShardKey × PooledRecord)}

theorem held_le_heldStaged (h : entry ∈ staged) : entry.2.held ≤ heldStaged staged := by
  obtain ⟨_, _, rfl⟩ := append_of_mem h
  rw [heldStaged_append, heldStaged_cons]
  exact le_self_add.trans le_add_self

theorem viewStaged_congr (h : ByteSlab.SameReads live slab slab') (hl : heldStaged staged ≤ live) :
    viewStaged slab' staged = viewStaged slab staged := by
  refine map_congr_left fun entry he => ?_
  rw [Prod.map, Prod.map, onRecord_congr h ((held_le_heldStaged he).trans hl)]

theorem releaseStaged_spec : ∀ {staged s}, Holding env (heldStaged staged) s →
    Prog.wp (releaseStaged env staged : Op ε Unit) s
      (fun _ s' => Leads env s.tables.held 0 s.tables s.slab s') (fun _ _ => False)
      (MetadataExhausted s.slab) := by
  intro staged
  induction staged with
  | nil =>
    intro s h
    exact ⟨rfl, h, .refl _ _, rfl⟩
  | cons entry rest ih =>
    intro s h
    rw [heldStaged_cons] at h
    unfold releaseStaged
    refine wp_seq (release_spec h) (fun _ s1 h1 => ?_) (fun _ _ hf => hf) (fun _ hp => hp)
    refine wp_mono (ih h1.holding) (fun _ s2 h2 => ?_) (fun _ _ hf => hf)
      (fun _ hp => hp.of_capacity h1.capacity)
    rw [h1.tables] at h2
    exact h1.trans h2 le_add_self

theorem stageShards_spec :
    ∀ {inputs staged s}, Holding env (heldStaged staged) s →
      (∀ entry ∈ staged, entry.2.spawned.WellFormed) →
      Prog.wp (stageShards env tenant run semantics inputs staged) s
        (fun out s' => Leads env (heldStaged staged + s.tables.held) (heldStaged out) s.tables
            s.slab s' ∧
          (∀ entry ∈ out, entry.2.spawned.WellFormed) ∧
          out.map Prod.fst = staged.map Prod.fst ++ inputs.map (fun input => ⟨run, input.shard⟩) ∧
          ∃ views, View.stageShards tenant run semantics s.view inputs =
              (.ok views : Run RegisterShardsError _) ∧
            viewStaged s'.slab out = viewStaged s.slab staged ++ views)
        (fun e s' => Leads env s.tables.held 0 s.tables s.slab s' ∧ e = .resourceExhausted)
        (fun p => View.stageShards tenant run semantics s.view inputs =
          (.panic p : Run RegisterShardsError _) ∨ MetadataExhausted s.slab p) := by
  intro inputs
  induction inputs with
  | nil =>
    intro staged s h hwf
    exact ⟨⟨rfl, h, .refl _ _, rfl⟩, hwf, by simp, [], rfl, by simp⟩
  | cons input rest ih =>
    intro staged s h hwf
    unfold stageShards View.stageShards
    dsimp only
    have hco : s.view.shardContains tenant ⟨run, input.shard⟩ =
        s.tables.shardContains tenant ⟨run, input.shard⟩ :=
      Tables.shardContains_mapRecords _ _ _ _
    rw [wp_bind, wp_get, wp_bind, wp_lift, hco]
    cases hc : (Outcome.assert (s.tables.shardContains tenant ⟨run, input.shard⟩ = false)
        .registerKeyCollision : Run RegisterShardsError Unit) with
    | err e => exact absurd hc assert_ne_err
    | panic p => exact .inl rfl
    | ok u =>
      rw [post_ok, ok_bind, wp_bind, Prog.wp_onErr]
      refine wp_mono (newRecord_spec h (fun _ => RegisterShardsError.resourceExhausted) tenant
        run input.shard input.spec input.cursor semantics none)
        (fun r s1 h1 => ?_) (fun e s1 h1 => ?_) (fun p hp => ?_)
      · obtain ⟨hl1, hw1, hn⟩ := h1
        have ha : (pooledView s1.slab).Agrees (pooledReader env.debug s1.slab) viewReader r :=
          agrees_of_held hl1.holding.owns (le_self_add.trans le_self_add) hw1
        rw [hn, ok_bind, wp_bind, wp_get, wp_bind, wp_lift,
          ← ha.assertInvariants, (View.newRecord_eq_ok hn).2, post_ok]
        have ho : Holding env (heldStaged (staged ++ [(⟨run, input.shard⟩, r)])) s1 := by
          have := hl1.holding
          rw [Multiset.add_comm] at this
          simpa [heldStaged] using this
        have hvi : s1.view = s.view := by
          rw [hl1.view le_add_self]
          rfl
        have hs : viewStaged s1.slab staged = viewStaged s.slab staged :=
          viewStaged_congr hl1.same le_self_add
        have hih := ih ho fun entry he => by
          rcases mem_append.mp he with he | he
          · exact hwf entry he
          · rw [mem_singleton.mp he]
            exact hw1
        rw [hvi, hl1.tables] at hih
        refine wp_mono hih (fun out s2 h2 => ?_) (fun e s2 h2 => ?_) (fun p hp => ?_)
        · obtain ⟨hl2, hw2, hk, views, hv, hou⟩ := h2
          refine ⟨hl1.trans (hl2.mono ?_) le_rfl, hw2, ?_, ?_⟩
          · rw [heldStaged_append]
            exact add_le_add_left le_self_add _
          · rw [hk]
            simp
          refine ⟨(⟨run, input.shard⟩, (pooledView s1.slab).onRecord r) :: views, ?_, ?_⟩
          · rw [hv]
            rfl
          · rw [hou, ← hs]
            simp [viewStaged]
        · exact ⟨hl1.trans h2.1 le_add_self, h2.2⟩
        · exact hp.imp (fun hp => by rw [hp, panic_bind]) (fun hp => hp.of_capacity hl1.capacity)
      · obtain ⟨hl1, _, rfl⟩ := h1
        refine wp_seq (releaseStaged_spec hl1.holding) (fun _ s2 h2 => ?_)
          (fun _ _ hf => hf.elim) (fun _ hp => .inr (hp.of_capacity hl1.capacity))
        rw [hl1.tables] at h2
        exact ⟨hl1.trans h2 le_add_self, rfl⟩
      · exact hp.imp_left fun hp => by rw [hp, panic_bind]

theorem held_putShards_le {t : Tables PooledRecord} :
    (t.putShards tenant staged).held ≤ heldStaged staged + t.held := by
  induction staged generalizing t with
  | nil => exact le_add_self
  | cons entry rest ih =>
    have hr : t.restHeld tenant entry.1 ≤ t.held := by
      cases hg : t.getShard tenant entry.1 with
      | none => rw [restHeld_of_none hg]
      | some old =>
        rw [Tables.held, FMap2.sum_eq_add_remove hg]
        exact le_add_self
    have hp : (t.putShard tenant entry.1 entry.2).held ≤ entry.2.held + t.held := by
      rw [held_putShard]
      exact add_le_add_right hr _
    calc (t.putShards tenant (entry :: rest)).held
        ≤ heldStaged rest + (t.putShard tenant entry.1 entry.2).held := ih
      _ ≤ heldStaged rest + (entry.2.held + t.held) := add_le_add_right hp _
      _ = heldStaged (entry :: rest) + t.held := by
        rw [heldStaged_cons]
        abel

theorem insertStaged_spec : ∀ {staged s},
    Holding env (heldStaged staged) s → (∀ entry ∈ staged, entry.2.spawned.WellFormed) →
    Prog.wp (insertStaged env tenant staged : Op ε Unit) s
      (fun _ s' => Leads env (s.tables.putShards tenant staged).held 0
        (s.tables.putShards tenant staged) s.slab s')
      (fun _ _ => False) (MetadataExhausted s.slab) := by
  intro staged
  induction staged with
  | nil =>
    intro s h _
    exact ⟨rfl, h, .refl _ _, rfl⟩
  | cons entry rest ih =>
    intro s h hwf
    rw [heldStaged_cons] at h
    unfold insertStaged
    refine wp_seq (shardInsert_spec h (hwf entry mem_cons_self)) (fun _ s1 h1 => ?_)
      (fun _ _ hf => hf) (fun _ hp => hp.2)
    refine wp_mono (ih h1.holding fun e he => hwf e (mem_cons_of_mem _ he))
      (fun _ s2 h2 => ?_) (fun _ _ hf => hf) (fun _ hp => hp.of_capacity h1.capacity)
    rw [h1.tables] at h2
    exact h1.trans h2 held_putShards_le

theorem noErr_activateRun (record) (ids) (opId) (payloadHash now) :
    Outcome.NoErr (activateRun record ids opId payloadHash now : Run ε _) := by
  refine .check fun _ => .bind ?_ fun entry => .bind ?_ fun _ =>
    .bind (RunRecord.noErr_assertInvariants _) fun _ => noErr_ok _
  · unfold RunOpLogEntry.new
    split
    · split
      · split
        · exact noErr_ok _
        · exact noErr_panic _
      · exact noErr_panic _
    · exact noErr_panic _
  · exact .check fun _ => .check fun _ =>
      noErr_ok _

def RegisterShardsError.IsExhausted (e : RegisterShardsError) : Prop := e = .resourceExhausted

theorem registerShards_refines (h : Coherent env s) (now tenant run shards) (opId : OpId) :
    RefinesAt env s RegisterShardsError.IsExhausted
      (View.RegisterShardsFresh env tenant run shards opId s.view)
      (registerShards env now tenant run shards opId)
      (View.registerShards env now tenant run shards opId s.view) := by
  have hpr : registerShardsPrelude env tenant run shards opId s.view =
      registerShardsPrelude env tenant run shards opId s.tables :=
    registerShardsPrelude_mapRecords run shards opId
  unfold RefinesAt registerShards View.registerShards View.RegisterShardsFresh
  rw [hpr, wp_bind, wp_get, wp_bind, wp_lift]
  cases hp : registerShardsPrelude env tenant run shards opId s.tables with
  | err e => exact ⟨.refl h, .inl rfl⟩
  | panic p => exact .inl rfl
  | ok found =>
    cases found with
    | inl ids => exact ⟨h, rfl, rfl⟩
    | inr found =>
      obtain ⟨payloadHash, record⟩ := found
      have hfr : ∃ found, (Outcome.ok (Sum.inr (payloadHash, record)) :
          Run RegisterShardsError (List ShardId ⊕ UInt64 × RunRecord)) = .ok (.inr found) :=
        ⟨_, rfl⟩
      simp only [post_ok, ok_bind]
      rw [wp_bind]
      have hem : Holding env (heldStaged []) s := h.holding
      refine wp_mono (stageShards_spec hem (fun _ he => by cases he))
        (fun staged s1 h1 => ?_) (fun e s1 h1 => ?_) (fun p hp => ?_)
      · obtain ⟨hl1, hw1, hk, views, hv, hou⟩ := h1
        have ho : s.tables.mapRecords (pooledView s1.slab).onRecord = s.view :=
          mapRecords_congr (hl1.same.mono le_add_self)
        rw [hv, ok_bind]
        refine wp_seq (insertStaged_spec hl1.holding hw1) (fun _ s2 h2 => ?_)
          (fun _ _ hf => hf.elim) (fun _ hp => .inr ⟨hfr, hp.of_capacity hl1.capacity⟩)
        rw [hl1.tables] at h2
        have hv2 : s2.view = s.view.putShards tenant views := by
          rw [h2.view le_rfl, ← Tables.putShards_mapRecords, ho]
          exact congrArg _ hou
        rw [wp_bind, wp_lift]
        cases ha : (activateRun record (shards.map shard) opId payloadHash now :
            Run RegisterShardsError RunRecord) with
        | err e => exact absurd ha (noErr_activateRun _ _ _ _ _ e)
        | panic p => exact .inl rfl
        | ok record' =>
          rw [post_ok, ok_bind, wp_bind, Prog.wp_modify, wp_bind, wp_get, wp_bind, wp_lift]
          have hin : (s2.tables.indexShards tenant run (shards.map shard)).Indexed := by
            rw [h2.tables]
            refine (h.indexed.putShards staged).indexShards fun id hid => ?_
            refine Tables.isSome_putShards_of_mem ?_
            obtain ⟨input, hinp, rfl⟩ := mem_map.mp hid
            rw [hk]
            exact mem_map.mpr ⟨input, hinp, rfl⟩
          have hfi : ({ s2.tables.indexShards tenant run (shards.map shard) with
              runs := s2.tables.runs.insert (tenant, run) record' } :
                Tables PooledRecord).Indexed := hin
          rw [hfi.debugAssertRunShardsConsistent]
          refine ⟨(h2.holding.of_shards ?_ ?_).coherent hfi, h2.capacity.trans hl1.capacity, ?_⟩
          · rw [Tables.indexShards_eq]
          · rw [Tables.indexShards_eq]
          rw [← hv2, Coordinator.view, Tables.indexShards_mapRecords]
          have hr : ((s2.tables.indexShards tenant run
              (shards.map shard)).mapRecords (pooledView s2.slab).onRecord).runs =
              s2.tables.runs := by
            rw [Tables.indexShards_eq]
            rfl
          dsimp only
          rw [hr]
          rfl
      · obtain ⟨hl1, rfl⟩ := h1
        refine ⟨⟨hl1.tables, hl1.holding.coherent ?_, hl1.same, hl1.capacity⟩, .inr ⟨hfr, rfl⟩⟩
        rw [hl1.tables]
        exact h.indexed
      · exact hp.imp (fun hp => by rw [hp, panic_bind]) fun hp => ⟨hfr, hp⟩

end GossipRs
