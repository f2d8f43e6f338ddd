import GossipRs.Refinement.Records

/-! The two splits. Between taking the parent out and putting it back, its slots and those of a
record under construction are held on the side; a failed allocation leads back to the tables with
the parent out, and from there to where the call began. -/

namespace GossipRs

open Lib Stdx Outcome List
open Prog (get lift wp)
open Coordinator (view)
open Prog (wp_bind wp_lift wp_get wp_seq wp_mono wp_onErr)

variable {ε α : Type} {env : Env} {s : Coordinator}

section Parent

variable {slab slab' : ByteSlab} {live : Multiset ByteSlot} {parent r : PooledRecord}
  (opId : OpId) (payloadHash : UInt64) (now : LogicalTime)

theorem logChecked_spec {v : RecordView} (h : Placed env.debug slab live r.held slab')
    (hwf : r.spawned.WellFormed) (hv : (pooledView slab').onRecord r = v) (kind) :
    wp (do
        let parent ← lift (r.logOp kind opId payloadHash now)
        let slab ← get
        lift (ShardRecord.assertPooled env.debug parent slab)
        return parent : Prog ByteSlab Panic SlabFull PooledRecord) slab'
      (fun parent' slab'' => Placed env.debug slab live parent'.held slab'' ∧
        parent'.spawned.WellFormed ∧
        (do
          let v ← v.logOp kind opId payloadHash now
          viewReader.assertInvariants v
          return v : Run SlabFull RecordView) = .ok ((pooledView slab'').onRecord parent'))
      (fun _ _ => False)
      (fun p => (do
          let v ← v.logOp kind opId payloadHash now
          viewReader.assertInvariants v
          return v : Run SlabFull RecordView) = .panic p) := by
  rw [← hv, logOp_onRecord, wp_bind, wp_lift]
  cases hl : (r.logOp kind opId payloadHash now : Run SlabFull _) with
  | err e => exact absurd hl (ShardRecord.noErr_logOp _ _ _ _ e)
  | panic p => rfl
  | ok r' =>
    have hs := sameStored_logOp hl
    have hh : r'.held = r.held := by
      simp [ShardRecord.held, hs.spec, hs.cursor, hs.spawned]
    have hw' : r'.spawned.WellFormed := hs.spawned ▸ hwf
    have hp : Placed env.debug slab live r'.held slab' := hh ▸ h
    rw [post_ok, wp_bind, wp_get, wp_bind, wp_lift, assertPooled_eq hp.owns le_self_add hw', map_ok,
      ok_bind]
    cases hinv : (viewReader.assertInvariants ((pooledView slab').onRecord r') :
        Run SlabFull Unit) with
    | err e => exact absurd hinv (Reader.noErr_assertInvariants _ _ e)
    | panic p => rfl
    | ok u => exact ⟨hp, hw', rfl⟩

theorem splitReplaceApplyParent_spec (h : Owns env.debug slab (parent.held + live) 0)
    (hwf : parent.spawned.WellFormed) (hn : ids ≠ [])
    (hc : canSpawn parent.spawned.len ids.length) :
    wp (splitReplaceApplyParent env parent ids opId payloadHash now) slab
      (fun parent' slab' => Placed env.debug slab live parent'.held slab' ∧
        parent'.spawned.WellFormed ∧
        (View.splitReplaceApplyParent ((pooledView slab).onRecord parent) ids opId payloadHash now :
          Run SlabFull _) = .ok ((pooledView slab').onRecord parent'))
      (fun _ slab' => Released env.debug slab (parent.held + live) slab')
      (fun p => (View.splitReplaceApplyParent ((pooledView slab).onRecord parent) ids opId
          payloadHash now : Run SlabFull _) = .panic p ∨ MetadataExhausted slab p) := by
  unfold splitReplaceApplyParent View.splitReplaceApplyParent
  rw [wp_bind, wp_lift, assert_of_true hn, post_ok, wp_bind,
    wp_lift, debugAssert_of_true hc, post_ok]
  refine wp_seq (PooledSpawned.allocateAppendedSlot_spec h
    (held_spawned_le le_self_add) hwf hn hc) (fun staged slab1 h1 => ?_)
    (fun _ slab1 he => by rw [he]; exact Released.refl h) (fun _ hp => hp.elim)
  obtain ⟨hp1, hv1, hw1⟩ := h1
  rw [wp_bind, wp_lift,
    show ((pooledView slab).onRecord parent).assertTransitionLegal .split =
      (parent.assertTransitionLegal .split : Run SlabFull Unit) from rfl]
  cases hl : (parent.assertTransitionLegal .split : Run SlabFull Unit) with
  | err e => exact absurd hl assert_ne_err
  | panic p => exact .inl rfl
  | ok u =>
    rw [post_ok, ok_bind, wp_bind]
    have ho : Owns env.debug slab1 (parent.spawned.held +
        (parent.spec.held + (parent.cursor.held + (staged.held + live)))) 0 := by
      refine hp1.owns.regroup ?_
      rw [ShardRecord.held]
      abel
    refine wp_mono (PooledSpawned.installSlot_spec staged ho) (fun spawned slab2 h2 => ?_)
      (fun _ _ hf => hf.elim) (fun _ hp => .inr (hp.of_capacity hp1.capacity))
    obtain ⟨rfl, hr⟩ := h2
    have hs : ByteSlab.SameReads (parent.spec.held + (parent.cursor.held + live)) slab slab2 :=
      (hp1.same.mono (by
        rw [ShardRecord.held, add_assoc, add_assoc]
        exact add_le_add_right (add_le_add_right le_add_self _) _)).trans
      (hr.same.mono (add_le_add_right (add_le_add_right le_add_self _) _))
    have hst : spawned.view slab2 = parent.spawned.view slab ++ ids :=
      (PooledSpawned.view_congr hr.same (le_self_add.trans
        (le_add_self.trans le_add_self))).trans hv1
    refine wp_mono (logChecked_spec opId payloadHash now
      (r := { parent with spawned, status := .split, lease := none }) ⟨?_, ?_, ?_⟩ hw1 ?_ _)
      (fun _ _ hq => hq) (fun _ _ hf => hf.elim) (fun _ hp => .inl hp)
    · refine hr.owns.regroup ?_
      rw [ShardRecord.held]
      abel
    · exact hs.mono (le_add_self.trans le_add_self)
    · exact hr.capacity.trans hp1.capacity
    · simp [FieldMap.onRecord, pooledView, hst, PooledShardSpec.view_congr hs le_self_add,
        PooledCursor.view_congr hs (le_self_add.trans le_add_self)]

theorem splitResidualApplyParent_spec (residualId newParentSpec)
    (h : Owns env.debug slab (parent.held + live) 0) (hwf : parent.spawned.WellFormed)
    (hc : canSpawn parent.spawned.len 1) :
    wp (splitResidualApplyParent env parent residualId newParentSpec opId payloadHash now) slab
      (fun parent' slab' => Placed env.debug slab live parent'.held slab' ∧
        parent'.spawned.WellFormed ∧
        (View.splitResidualApplyParent ((pooledView slab).onRecord parent) residualId newParentSpec
          opId payloadHash now : Run SlabFull _) = .ok ((pooledView slab').onRecord parent'))
      (fun _ slab' => Released env.debug slab (parent.held + live) slab')
      (fun p => (View.splitResidualApplyParent ((pooledView slab).onRecord parent) residualId
          newParentSpec opId payloadHash now : Run SlabFull _) = .panic p ∨
        MetadataExhausted slab p) := by
  unfold splitResidualApplyParent View.splitResidualApplyParent
  rw [wp_bind, wp_lift, debugAssert_of_true hc, post_ok]
  refine wp_seq (PooledSpawned.allocateAppendedSlot_spec h
    (held_spawned_le le_self_add) hwf (cons_ne_nil _ _) hc)
    (fun staged slab1 h1 => ?_) (fun _ slab1 he => by rw [he]; exact Released.refl h)
    (fun _ hp => hp.elim)
  obtain ⟨hp1, hv1, hw1⟩ := h1
  rw [wp_bind, wp_onErr]
  have hh : parent.spec.held + (parent.spawned.held + (parent.cursor.held +
      (staged.held + live))) = staged.held + (parent.held + live) := by
    rw [ShardRecord.held]
    abel
  refine wp_mono (PooledShardSpec.updateFromRef_spec (hp1.owns.regroup hh)
    newParentSpec) (fun spec slab2 h2 => ?_) (fun e slab2 hr2 => ?_)
    (fun _ hp => .inr (hp.of_capacity hp1.capacity))
  · obtain ⟨hp2, hsp2⟩ := h2
    have hc2 := hp2.capacity.trans hp1.capacity
    have ho2 : Owns env.debug slab2 (parent.spawned.held +
        (spec.held + (parent.cursor.held + (staged.held + live)))) 0 :=
      hp2.owns.regroup (by abel)
    refine wp_seq (PooledSpawned.installSlot_spec staged ho2) (fun spawned slab3 h3 => ?_)
      (fun _ _ hf => hf.elim) (fun _ hp => .inr (hp.of_capacity hc2))
    obtain ⟨rfl, hr⟩ := h3
    -- what survives: the cursor, the staged list and everything outside the record
    have hs2 : ByteSlab.SameReads (parent.cursor.held + (spawned.held + live)) slab1 slab3 :=
      (hp2.same.mono le_add_self).trans (hr.same.mono le_add_self)
    have hs : ByteSlab.SameReads (parent.cursor.held + live) slab slab3 :=
      (hp1.same.mono (by
        rw [ShardRecord.held]
        exact add_le_add_left (le_add_self.trans le_self_add) _)).trans
      (hs2.mono (add_le_add_right le_add_self _))
    have hst : spawned.view slab3 = parent.spawned.view slab ++ [residualId] :=
      (PooledSpawned.view_congr hs2 (le_self_add.trans le_add_self)).trans hv1
    have hsp : spec.view slab3 = newParentSpec :=
      (PooledShardSpec.view_congr hr.same le_self_add).trans hsp2
    refine wp_mono (logChecked_spec opId payloadHash now (r := { parent with spec, spawned })
      ⟨?_, ?_, ?_⟩ hw1 ?_ _) (fun _ _ hq => hq) (fun _ _ hf => hf.elim) (fun _ hp => .inl hp)
    · refine hr.owns.regroup ?_
      rw [ShardRecord.held]
      abel
    · exact hs.mono le_add_self
    · exact hr.capacity.trans hc2
    · simp [FieldMap.onRecord, pooledView, hst, hsp, PooledCursor.view_congr hs le_self_add]
  · rw [wp_bind]
    have hs2 : ByteSlab.SameReads (parent.held + live) slab1 slab2 :=
      hr2.same.mono (hh ▸ le_add_self)
    have hc2 := hr2.capacity.trans hp1.capacity
    refine wp_mono (deallocate_spec (hr2.owns.regroup hh.symm)) (fun _ slab3 hr3 => ?_)
      (fun _ _ hf => hf.elim) (fun _ hp => .inr (hp.of_capacity hc2))
    exact ⟨hr3.owns, hp1.same.trans (hs2.trans hr3.same), hr3.capacity.trans hc2⟩

theorem View.splitReplaceApplyParent_mapErr (f : ε → ε') (v) (ids) :
    (View.splitReplaceApplyParent v ids opId payloadHash now).mapErr f =
      View.splitReplaceApplyParent v ids opId payloadHash now := by
  simp only [View.splitReplaceApplyParent, ShardRecord.assertTransitionLegal, mapErr_bind,
    mapErr_assert, logOp_mapErr, assertInvariants_mapErr]
  rfl

theorem View.splitResidualApplyParent_mapErr (f : ε → ε') (v)
    (residualId newParentSpec) :
    (View.splitResidualApplyParent v residualId newParentSpec opId payloadHash now).mapErr f =
      View.splitResidualApplyParent v residualId newParentSpec opId payloadHash now := by
  simp only [View.splitResidualApplyParent, mapErr_bind, logOp_mapErr, assertInvariants_mapErr]
  rfl

end Parent

section Removed

variable {tenant : TenantId} {key : ShardKey} {r : PooledRecord}

theorem putBack_spec (h : Holding env r.held s) (hwf : r.spawned.WellFormed)
    (hin : s.tables.IndexedBut tenant key) :
    wp (do
        shardInsert env tenant key r
        let s ← get
        lift (s.tables.debugAssertRunShardsConsistent env.debug tenant r.run) : Op ε Unit) s
      (fun _ s' => Leads env (s.tables.putShard tenant key r).held 0
          (s.tables.putShard tenant key r) s.slab s' ∧ Coherent env s')
      (fun _ _ => False)
      (fun p => (s.tables.getShard tenant key).isSome ∧ MetadataExhausted s.slab p) := by
  rw [← add_zero r.held] at h
  refine wp_seq (shardInsert_spec h hwf) (fun _ s' hs' => ?_) (fun _ _ hf => hf) (fun _ hp => hp)
  rw [zero_add] at hs'
  have ha : s'.tables.Indexed := by
    rw [hs'.tables]
    exact hin.putShard r
  rw [wp_bind, wp_get, wp_lift, ha.debugAssertRunShardsConsistent]
  exact ⟨hs', hs'.holding.coherent ha⟩

theorem withRemovedParent_spec (h : Coherent env s) {Q : α → Coordinator → Prop} {E : ε → Prop}
    (hn : s.tables.getShard tenant key = none → E notFound)
    (hb : ∀ parent, s.tables.getShard tenant key = some parent →
      wp (body parent) { s with tables := s.tables.dropShard tenant key }
        (fun x s1 => Holding env x.2.held s1 ∧ x.2.spawned.WellFormed ∧
          s1.tables.IndexedBut tenant key ∧
          (∀ p, (s1.tables.getShard tenant key).isSome → MetadataExhausted s1.slab p → P p) ∧
          ∀ s', Leads env (s1.tables.putShard tenant key x.2).held 0
            (s1.tables.putShard tenant key x.2) s1.slab s' → Coherent env s' → Q x.1 s')
        (fun e s1 => Leads env (parent.held + (s.tables.dropShard tenant key).held) parent.held
          (s.tables.dropShard tenant key) s.slab s1 ∧ E e)
        P) :
    wp (withRemovedParent env tenant key notFound body) s Q
      (fun e s' => Unchanged env s s' ∧ E e) P := by
  unfold withRemovedParent
  rw [wp_bind, wp_get, wp_bind, wp_lift, h.counted.shardRemove, post_ok, wp_bind, Prog.wp_set]
  cases hge : s.tables.getShard tenant key with
  | none =>
    rw [Tables.dropShard_of_none hge, Prog.wp_throw]
    exact ⟨.refl h, hn hge⟩
  | some parent =>
    rw [wp_bind, wp_onErr]
    refine wp_mono (hb parent hge) (fun x s1 hx => ?_) (fun e s1 he => ?_) (fun _ hp => hp)
    · obtain ⟨hh, hwf, hin, hm, hq⟩ := hx
      rw [wp_bind]
      exact wp_mono (putBack_spec hh hwf hin) (fun _ s' hs' => hq s' hs'.1 hs'.2)
        (fun _ _ hf => hf.elim) (fun p hp => hm p hp.1 hp.2)
    obtain ⟨hl, he⟩ := he
    have hin : s1.tables.IndexedBut tenant key := by
      rw [hl.tables]
      exact h.indexed.dropShard tenant key
    have hg : s1.tables.getShard tenant key = none := by
      rw [hl.tables, Tables.getShard_dropShard, if_pos ⟨rfl, rfl⟩]
    have hba : s1.tables.putShard tenant key parent = s.tables := by
      rw [hl.tables, h.counted.putShard_dropShard hge, Tables.setShard_self hge]
    refine wp_seq (putBack_spec hl.holding (h.spawned tenant key parent hge) hin)
      (fun _ s' hs' => ?_) (fun _ _ hf => hf.elim) (fun p hp => ?_)
    · rw [hba] at hs'
      have hli : parent.held + (s.tables.dropShard tenant key).held = s.tables.held :=
        (held_eq_add_rest hge).symm
      rw [hli] at hl
      exact ⟨⟨hs'.1.tables, hs'.2, hl.same.trans hs'.1.same,
        hs'.1.capacity.trans hl.capacity⟩, he⟩
    · rw [hg] at hp
      cases hp.1

theorem view_putBack (h : Coherent env s) (hg : s.tables.getShard tenant key = some r)
    (hs' : Leads env ((s.tables.dropShard tenant key).putShard tenant key r).held 0
      ((s.tables.dropShard tenant key).putShard tenant key r) s.slab s') : s'.view = s.view := by
  rw [h.counted.putShard_dropShard hg, Tables.setShard_self hg] at hs'
  exact hs'.view le_rfl

/-- What the mutating phase of a split leaves behind for its parent to be put back. -/
def SplitBody (env : Env) (s : Coordinator) (tenant : TenantId) (key : ShardKey)
    (parent : PooledRecord) (m : Op SplitError (α × PooledRecord))
    (a : Run SplitError (α × View)) : Prop :=
  Prog.wp m { s with tables := s.tables.dropShard tenant key }
    (fun x s₁ => Holding env x.2.held s₁ ∧ x.2.spawned.WellFormed ∧
      s₁.tables.IndexedBut tenant key ∧ s₁.slab.capacity = s.slab.capacity ∧
      a = .ok (x.1, (s₁.tables.putShard tenant key x.2).mapRecords (pooledView s₁.slab).onRecord))
    (fun e s₁ => Leads env (parent.held + (s.tables.dropShard tenant key).held) parent.held
      (s.tables.dropShard tenant key) s.slab s₁ ∧ (a = .err e ∨ e.IsExhausted))
    (fun p => a = .panic p ∨ MetadataExhausted s.slab p)

theorem split_refines (h : Coherent env s) (pre : ByteSlab → PooledRecord → Run SplitError (β ⊕ γ))
    (preView : RecordView → Run SplitError (β ⊕ γ))
    (cont : PooledRecord → β ⊕ γ → Op SplitError (α × PooledRecord))
    (contView : RecordView → β ⊕ γ → Run SplitError (α × View)) {replay : β → α}
    (hpr : ∀ parent, s.tables.getShard tenant key = some parent →
      preView ((pooledView s.slab).onRecord parent) = pre s.slab parent)
    (hr : ∀ parent b, cont parent (.inl b) = pure (replay b, parent))
    (hrv : ∀ parent b, contView parent (.inl b) = .ok (replay b, s.view))
    (hb : ∀ parent found, s.tables.getShard tenant key = some parent →
      pre s.slab parent = .ok (.inr found) →
      SplitBody env s tenant key parent (cont parent (.inr found))
        (contView ((pooledView s.slab).onRecord parent) (.inr found))) :
    RefinesAt env s ShardOpError.IsExhausted
      (∃ parent found, s.view.getShard tenant key = some parent ∧ preView parent = .ok (.inr found))
      (withRemovedParent env tenant key (.coord (.shardNotFound key)) fun parent => do
        let s ← get
        let found ← lift (pre s.slab parent)
        cont parent found)
      (do
        let parent ← Outcome.okOr (s.view.getShard tenant key) (.coord (.shardNotFound key))
        let found ← preView parent
        contView parent found) := by
  unfold RefinesAt
  refine withRemovedParent_spec h (fun hge => ?_) (fun parent hge => ?_)
  · left
    rw [view, Tables.getShard_mapRecords, hge]
    rfl
  have hg : s.view.getShard tenant key = some ((pooledView s.slab).onRecord parent) := by
    rw [view, Tables.getShard_mapRecords, hge, Option.map_some]
  have ho := h.holding.dropShard hge
  rw [add_zero] at ho
  rw [hg, okOr_some, ok_bind, hpr parent hge, wp_bind, wp_get, wp_bind, wp_lift]
  dsimp only
  cases hp : pre s.slab parent with
  | err e => exact ⟨⟨rfl, ho, .refl _ _, rfl⟩, .inl rfl⟩
  | panic p => exact .inl rfl
  | ok found =>
    rw [post_ok, ok_bind]
    cases found with
    | inl b =>
      rw [hr, hrv]
      refine ⟨ho, h.spawned tenant key parent hge, h.indexed.dropShard tenant key,
        fun p hp => ?_, fun s' hs' hc => ⟨hc, hs'.capacity, ?_⟩⟩
      · rw [Tables.getShard_dropShard, if_pos ⟨rfl, rfl⟩] at hp
        cases hp
      · rw [view_putBack h hge hs']
    | inr found =>
      have hf : ∃ parent' found, some ((pooledView s.slab).onRecord parent) = some parent' ∧
          preView parent' = .ok (.inr found) := ⟨_, _, rfl, (hpr parent hge).trans hp⟩
      refine wp_mono (hb parent found hge hp) (fun x s1 hx => ?_)
        (fun e s1 he => ⟨he.1, he.2.imp_right fun he => ⟨hf, he⟩⟩)
        (fun p hp => hp.imp_right fun hp => ⟨hf, hp⟩)
      obtain ⟨hh, hw', hin, hca, ha⟩ := hx
      refine ⟨hh, hw', hin, fun p _ hp => .inr ⟨hf, hp.of_capacity hca⟩,
        fun s' hs' hc => ⟨hc, hs'.capacity.trans hca, ?_⟩⟩
      rw [hs'.view le_rfl]
      exact ha

end Removed

section Replace

variable {tenant : TenantId} {opId : OpId} {parent : PooledRecord} {v : RecordView}
  {extra : Multiset ByteSlot} {t₀ : Tables PooledRecord}

structure SameLineage (parent : PooledRecord) (v : RecordView) : Prop where
  run : v.run = parent.run
  shard : v.shard = parent.shard
  spawned : v.spawned.length = parent.spawned.len
  semantics : v.cursorSemantics = parent.cursorSemantics

theorem sameLineage_onRecord (hwf : parent.spawned.WellFormed) (slab) :
    SameLineage parent ((pooledView slab).onRecord parent) :=
  ⟨rfl, rfl, PooledSpawned.length_view hwf slab, rfl⟩

theorem insertChildren_spec (hv : SameLineage parent v)
    (hk : ∃ inner, t0.shards.lookup tenant = some inner) :
    ∀ {children done s}, Holding env extra s → Inserted tenant parent.run t0 done s.tables →
      wp (splitReplaceInsertChildren env parent tenant opId children done) s
        (fun ids s' => Inserted tenant parent.run t0 ids.reverse s'.tables ∧
          ids.length = done.length + children.length ∧
          Leads env (extra + s.tables.held) extra s'.tables s.slab s' ∧
          View.insertChildren env v tenant opId children done s.view = .ok (ids, s'.view))
        (fun e s' => Leads env (extra + t0.held) extra t0 s.slab s' ∧
          (View.insertChildren env v tenant opId children done s.view = .err e ∨ e.IsExhausted))
        (fun p => View.insertChildren env v tenant opId children done s.view = .panic p ∨
          MetadataExhausted s.slab p) := by
  intro children
  induction children with
  | nil =>
    intro done s h hin
    exact ⟨by rwa [reverse_reverse], by simp, ⟨rfl, h, .refl _ _, rfl⟩, rfl⟩
  | cons child rest ih =>
    intro done s h hin
    unfold splitReplaceInsertChildren View.insertChildren
    rw [hv.run, hv.shard, hv.spawned, hv.semantics]
    dsimp only
    generalize deriveSplitShardId env parent.run parent.shard opId .child
      (parent.spawned.len + done.length) = childId
    rw [wp_bind, wp_get]
    have hco : s.view.shardContains tenant ⟨parent.run, childId⟩ =
        s.tables.shardContains tenant ⟨parent.run, childId⟩ :=
      Tables.shardContains_mapRecords _ _ _ _
    rw [hco]
    cases hc : s.tables.shardContains tenant ⟨parent.run, childId⟩ with
    | true =>
      rw [if_pos rfl]
      refine wp_seq (rollback_spec hk h hin) (fun _ s' hs' => ?_)
        (fun _ _ hf => hf.elim) (fun _ hp => .inr hp)
      exact ⟨hs', .inl rfl⟩
    | false =>
      rw [if_neg Bool.false_ne_true, ensure_of_true rfl, ok_bind, wp_bind, wp_onErr]
      refine wp_mono (newRecord_spec h ShardOpError.resourceExhausted tenant parent.run childId
        child.spec child.cursor parent.cursorSemantics (some parent.shard))
        (fun r s1 h1 => ?_) (fun e s1 h1 => ?_) (fun p hp => ?_)
      · obtain ⟨hl1, hwf, hn⟩ := h1
        have ha : s.tables.getShard tenant ⟨parent.run, childId⟩ = none :=
          Option.not_isSome_iff_eq_none.mp (by rw [← Tables.shardContains, hc]; simp)
        rw [hn, ok_bind]
        refine wp_seq (shardInsert_spec hl1.holding hwf) (fun _ s2 h2 => ?_)
          (fun _ _ hf => hf.elim) (fun _ hp => .inr (hp.2.of_capacity hl1.capacity))
        rw [hl1.tables] at h2
        have hvi : s.view.putShard tenant ⟨parent.run, childId⟩
            ((pooledView s1.slab).onRecord r) = s2.view := by
          rw [h2.view le_add_self, ← Tables.putShard_mapRecords]
          congr 1
          exact (mapRecords_congr (hl1.same.mono le_add_self)).symm
        have hh : extra + s.tables.held ≤
            extra + (s.tables.putShard tenant ⟨parent.run, childId⟩ r).held := by
          rw [held_putShard, restHeld_of_none ha]
          exact add_le_add_right le_add_self _
        have hl2 := hl1.trans (h2.mono hh) le_rfl
        have hi2 : Inserted tenant parent.run t0 (childId :: done) s2.tables := by
          rw [h2.tables]
          exact .cons hin ha
        rw [hvi]
        refine wp_mono (ih h2.holding hi2) (fun ids s' hs' => ?_) (fun e s' hs' => ?_)
          (fun _ hp => hp.imp_right fun hp => hp.of_capacity hl2.capacity)
        · obtain ⟨hi', hle, hl, he⟩ := hs'
          rw [h2.tables] at hl
          refine ⟨hi', ?_, hl2.trans (hl.mono hh) le_rfl, he⟩
          rw [hle, length_cons, length_cons]
          omega
        · exact ⟨hl2.trans hs'.1 (add_le_add_right hin.held_le _), hs'.2⟩
      · obtain ⟨hl1, _, rfl⟩ := h1
        refine wp_seq (rollback_spec hk hl1.holding (hl1.tables ▸ hin))
          (fun _ s' hs' => ?_) (fun _ _ hf => hf.elim)
          (fun _ hp => .inr (hp.of_capacity hl1.capacity))
        exact ⟨hl1.trans hs' (add_le_add_right hin.held_le _), .inr trivial⟩
      · exact hp.imp_left fun hp => by rw [hp, panic_bind]

theorem splitReplace_body (h : Coherent env s) (hg : s.tables.getShard tenant key = some parent)
    (hne : sorted ≠ []) (hc : canSpawn parent.spawned.len sorted.length) :
    SplitBody env s tenant key parent
      (splitReplaceExecute env now tenant parent payloadHash sorted opId)
      (View.executeSplitReplace env now tenant key ((pooledView s.slab).onRecord parent) payloadHash
        sorted opId s.view) := by
  have hwf := h.spawned tenant key parent hg
  have hk := Tables.known_dropShard hg
  have ho := h.holding.dropShard hg
  rw [add_zero] at ho
  have hd : s.view.dropShard tenant key = view { s with tables := s.tables.dropShard tenant key } :=
    Tables.dropShard_mapRecords _ _ _ _
  unfold SplitBody splitReplaceExecute View.executeSplitReplace
  dsimp only
  rw [hd, show Tables.checkShardLimits (view _) _ _ _ = _ from
    Tables.checkShardLimits_mapRecords _ _ _ _ _, wp_bind, wp_get, wp_bind, wp_lift]
  cases (s.tables.dropShard tenant key).checkShardLimits tenant sorted.length 1 with
  | err e => exact ⟨⟨rfl, ho, .refl _ _, rfl⟩, .inl rfl⟩
  | panic p => exact .inl rfl
  | ok u =>
    rw [mapErr_ok, post_ok, ok_bind, wp_bind]
    refine wp_mono (insertChildren_spec (sameLineage_onRecord hwf s.slab) hk ho .nil)
      (fun ids s1 h1 => ?_) (fun e s1 h1 => ?_) (fun p hp => ?_)
    · obtain ⟨hin, hle, hl, hv⟩ := h1
      have hs : ids.length = sorted.length := hle.trans (Nat.zero_add _)
      have hpa : (pooledView s1.slab).onRecord parent = (pooledView s.slab).onRecord parent :=
        onRecord_congr hl.same le_self_add
      have hn' : ids ≠ [] := by
        intro hn
        rw [hn] at hs
        exact hne (length_eq_zero_iff.mp hs.symm)
      rw [hv, ok_bind, wp_bind, wp_lift, assert_of_true hs, post_ok, wp_bind, wp_onErr]
      have ho1 : Holding env (parent.held + 0) s1 := by
        rw [add_zero]
        exact hl.holding
      have ha := onSlab_record_spec ShardOpError.resourceExhausted ho1
        (splitReplaceApplyParent_spec opId payloadHash now
          (by rw [zero_add]; exact hl.holding.owns) hwf hn' (hs ▸ hc))
      rw [hpa, View.splitReplaceApplyParent_mapErr] at ha
      refine wp_mono ha (fun parent' s2 h2 => ?_) (fun e s2 h2 => ?_) (fun p hp => ?_)
      · obtain ⟨hl2, hw2, hv2⟩ := h2
        have hr : parent'.run = parent.run := by
          obtain ⟨_, _, -, heq, -⟩ := View.splitReplaceApplyParent_eq_ok hv2
          have := congrArg ShardRecord.run heq
          exact this
        rw [hv2, ok_bind, wp_bind, Prog.wp_modify]
        refine ⟨?_, hw2, ?_, hl2.capacity.trans hl.capacity, ?_⟩
        · have := hl2.holding.of_shards (t := s2.tables.indexShards tenant parent'.run ids)
            (by rw [Tables.indexShards_eq]) (by rw [Tables.indexShards_eq])
          rwa [add_zero] at this
        · dsimp only
          rw [hl2.tables]
          refine (hin.indexedBut (h.indexed.dropShard tenant key)).indexShards fun id hid => ?_
          rw [hr]
          exact hin.present id (mem_reverse.mpr hid)
        have hsa : s1.view = s2.view := by
          rw [hl2.view le_add_self]
          rfl
        rw [hsa, view]
        dsimp only
        rw [← Tables.putShard_mapRecords, ← Tables.indexShards_mapRecords]
        rfl
      · obtain ⟨hl2, _, rfl⟩ := h2
        rw [add_zero] at hl2
        refine wp_seq (rollback_spec hk hl2.holding (hl2.tables ▸ hin))
          (fun _ s3 h3 => ?_) (fun _ _ hf => hf.elim)
          (fun _ hp => .inr (hp.of_capacity (hl2.capacity.trans hl.capacity)))
        refine ⟨hl.trans (hl2.trans h3 (add_le_add_right hin.held_le _)) ?_, .inr trivial⟩
        exact add_le_add_right le_rfl _
      · exact hp.imp (fun hp => by rw [hp, panic_bind]) (fun hp => hp.of_capacity hl.capacity)
    · refine ⟨h1.1, h1.2.imp_left fun he => ?_⟩
      rw [he]
      rfl
    · refine hp.imp_left fun hp => ?_
      rw [hp]
      rfl

theorem splitReplace_refines (h : Coherent env s) (now tenant lease) (plan : SplitReplacePlan)
    (opId : OpId) :
    RefinesAt env s ShardOpError.IsExhausted
      (View.SplitReplaceFresh env now tenant lease plan opId s.view)
      (splitReplace env now tenant lease plan opId)
      (View.splitReplace env now tenant lease plan opId s.view) := by
  refine split_refines h
    (fun slab => splitReplacePrelude env now tenant lease plan opId (pooledReader env.debug slab))
    _ _ _ (fun parent hg => splitReplacePrelude_onRecord
      (h.agreesOn tenant lease.shardKey parent hg) lease plan opId)
    (fun _ _ => rfl) (fun _ _ => rfl) (fun parent found hg hp => ?_)
  obtain ⟨_, -, ⟨_, _, _, _, hc⟩ | ⟨-, hr, hc⟩⟩ := splitReplacePrelude_eq_ok hp
  · cases hc
  cases hc
  have hne : splitChildOrder plan ≠ [] := by
    intro hn
    have := hr.two_le
    rw [← length_splitChildOrder, hn] at this
    cases this
  exact splitReplace_body h hg hne hr.canSpawn

end Replace

section Residual

variable {tenant : TenantId} {opId : OpId} {parent : PooledRecord}

theorem splitResidual_body (h : Coherent env s) (hg : s.tables.getShard tenant key = some parent)
    (hca : canSpawn parent.spawned.len 1) :
    SplitBody env s tenant key parent
      (splitResidualExecute env now tenant parent payloadHash plan opId)
      (View.executeSplitResidual env now tenant key ((pooledView s.slab).onRecord parent)
        payloadHash plan opId s.view) := by
  have hwf := h.spawned tenant key parent hg
  have hl := sameLineage_onRecord hwf s.slab
  have hol := h.holding.dropShard hg
  rw [add_zero] at hol
  have hd : s.view.dropShard tenant key =
      (s.tables.dropShard tenant key).mapRecords (pooledView s.slab).onRecord :=
    Tables.dropShard_mapRecords _ _ _ _
  have hin := h.indexed.dropShard tenant key
  unfold SplitBody splitResidualExecute View.executeSplitResidual
  dsimp only
  rw [hd, hl.run, hl.shard, hl.spawned, hl.semantics,
    Tables.checkShardLimits_mapRecords, Tables.shardContains_mapRecords]
  generalize s.tables.dropShard tenant key = t0 at *
  generalize deriveSplitShardId env parent.run parent.shard opId .residual parent.spawned.len =
    residualId
  rw [wp_bind, wp_get, wp_bind, wp_lift]
  cases t0.checkShardLimits tenant 1 1 with
  | err e => exact ⟨⟨rfl, hol, .refl _ _, rfl⟩, .inl rfl⟩
  | panic p => exact .inl rfl
  | ok u =>
    rw [mapErr_ok, post_ok, ok_bind]
    refine wp_seq (newRecord_spec hol ShardOpError.resourceExhausted tenant parent.run
      residualId plan.residualSpec CursorUpdate.initial parent.cursorSemantics (some parent.shard))
      (fun r s1 h1 => ?_) (fun e s1 h1 => ?_) (fun p hp => ?_)
    · obtain ⟨hl1, hw1, hn⟩ := h1
      rw [hn, ok_bind]
      cases hc : t0.shardContains tenant ⟨parent.run, residualId⟩ with
      | true =>
        rw [if_pos rfl]
        refine wp_seq (release_spec hl1.holding) (fun _ s2 h2 => ?_)
          (fun _ _ hf => hf.elim) (fun _ hp => .inr (hp.of_capacity hl1.capacity))
        rw [hl1.tables] at h2
        exact ⟨hl1.trans h2 le_rfl, .inl rfl⟩
      | false =>
        rw [if_neg Bool.false_ne_true, ensure_of_true rfl, ok_bind, wp_bind, wp_onErr]
        have hpa : (pooledView s1.slab).onRecord parent = (pooledView s.slab).onRecord parent :=
          onRecord_congr hl1.same le_self_add
        have ho1 : Holding env (parent.held + r.held) s1 := by
          rw [Multiset.add_comm]
          exact hl1.holding
        have ha := onSlab_record_spec ShardOpError.resourceExhausted ho1
          (splitResidualApplyParent_spec opId payloadHash now residualId plan.parentNewSpec
            (by rw [← add_assoc]; exact ho1.owns) hwf hca)
        rw [hpa, View.splitResidualApplyParent_mapErr, hl1.tables] at ha
        refine wp_mono ha (fun parent' s2 h2 => ?_) (fun e s2 h2 => ?_) (fun p hp => ?_)
        · obtain ⟨hl2, hw2, hv2⟩ := h2
          have hru : parent'.run = parent.run := by
            obtain ⟨_, _, -, he, -⟩ := View.splitResidualApplyParent_eq_ok hv2
            have := congrArg ShardRecord.run he
            exact this
          have ho2 : Holding env (r.held + parent'.held) s2 := by
            rw [Multiset.add_comm]
            exact hl2.holding
          have hc2 := hl2.capacity.trans hl1.capacity
          rw [hv2, ok_bind]
          refine wp_seq (shardInsert_spec ho2 hw1) (fun _ s3 h3 => ?_)
            (fun _ _ hf => hf.elim) (fun _ hp => .inr (hp.2.of_capacity hc2))
          rw [hl2.tables] at h3
          rw [wp_bind, Prog.wp_modify]
          refine ⟨h3.holding.of_shards rfl rfl, hw2, ?_, h3.capacity.trans hc2, ?_⟩
          · dsimp only
            rw [h3.tables]
            refine (hin.putShard_other _ _ _).indexShard ?_
            rw [Tables.getShard_putShard, hru, if_pos ⟨rfl, rfl⟩]
            rfl
          -- each record reads as when it was last written
          have hp' : (pooledView s3.slab).onRecord parent' =
              (pooledView s2.slab).onRecord parent' :=
            onRecord_congr h3.same le_self_add
          have hr : (pooledView s2.slab).onRecord r = (pooledView s1.slab).onRecord r :=
            onRecord_congr hl2.same le_self_add
          have ho : t0.mapRecords (pooledView s2.slab).onRecord =
              t0.mapRecords (pooledView s.slab).onRecord :=
            mapRecords_congr ((hl1.same.mono le_add_self).trans (hl2.same.mono le_add_self))
          have hv3 := h3.view le_add_self
          rw [← Tables.putShard_mapRecords, ho, hr] at hv3
          rw [← hv3, view]
          dsimp only
          rw [← Tables.putShard_mapRecords, hp', ← Tables.indexShard_mapRecords]
          rfl
        · obtain ⟨hl2, f, rfl⟩ := h2
          rw [Multiset.add_comm parent.held] at hl2
          refine wp_seq (release_spec hl2.holding) (fun _ s3 h3 => ?_) (fun _ _ hf => hf.elim)
            (fun _ hp => .inr (hp.of_capacity (hl2.capacity.trans hl1.capacity)))
          rw [hl2.tables] at h3
          refine ⟨hl1.trans (hl2.trans h3 ?_) le_rfl, .inr trivial⟩
          exact add_le_add_left le_add_self _
        · exact hp.imp (fun hp => by rw [hp, panic_bind]) (fun hp => hp.of_capacity hl1.capacity)
    · obtain ⟨hl1, f, rfl⟩ := h1
      exact ⟨hl1, .inr trivial⟩
    · exact hp.imp_left fun hp => by rw [hp, panic_bind]

theorem splitResidual_refines (h : Coherent env s) (now tenant lease) (plan : SplitResidualPlan)
    (opId : OpId) :
    RefinesAt env s ShardOpError.IsExhausted
      (View.SplitResidualFresh env now tenant lease plan opId s.view)
      (splitResidual env now tenant lease plan opId)
      (View.splitResidual env now tenant lease plan opId s.view) := by
  refine split_refines h
    (fun slab => splitResidualPrelude env now tenant lease plan opId (pooledReader env.debug slab))
    _ _ _ (fun parent hg => splitResidualPrelude_onRecord
      (h.agreesOn tenant lease.shardKey parent hg) lease plan opId)
    (fun _ _ => rfl) (fun _ _ => rfl) (fun parent found hg hp => ?_)
  obtain ⟨_, _, -, -, ⟨_, _, _, hc⟩ | ⟨-, -, hr, hc⟩⟩ :=
    splitResidualPrelude_eq_ok hp
  · cases hc
  exact splitResidual_body h hg hr.canSpawn

end Residual

end GossipRs
