import GossipRs.Refinement.State

/-! Checkpoint and complete: the new cursor is stored before the old one is released, and all that
can fail comes before the record changes. -/

namespace GossipRs

open Lib Stdx Outcome

variable {env : Env} {s : Coordinator}

theorem onRecord_withCursor {r : PooledRecord} (hsp : r.spec.view slab' = r.spec.view slab)
    (hs : r.spawned.view slab' = r.spawned.view slab) (hc : cursor.view slab' = value) :
    (pooledView slab').onRecord { r with cursor } =
      { (pooledView slab).onRecord r with cursor := value } := by
  simp [FieldMap.onRecord, pooledView, hsp, hs, hc]

theorem cursorOp_refines (h : Coherent env s) (payload : Payload)
    (finish : PooledRecord → UInt64 → Run CheckpointError PooledRecord)
    (finishView : RecordView → UInt64 → Run CheckpointError RecordView)
    (hna : ∀ slab r hash, finishView ((pooledView slab).onRecord r) hash =
      (pooledView slab).onRecord <$> finish r hash)
    (hst : ∀ r hash r', finish r hash = .ok r' → r.SameStored r')
    (hne : ∀ r hash e, finish r hash ≠ .err e) (now tenant lease newCursor) (opId : OpId) :
    RefinesAt env s ShardOpError.IsExhausted
      (View.CursorOpFresh env payload now tenant lease newCursor opId s.view)
      (cursorOp env payload finish now tenant lease newCursor opId)
      (View.cursorOp env payload finishView now tenant lease newCursor opId s.view) := by
  have hpr : cursorOpPrelude env payload now tenant lease newCursor opId viewReader
      (s.tables.mapRecords (pooledView s.slab).onRecord) = _ :=
    cursorOpPrelude_mapRecords h.agreesOn payload lease newCursor opId
  unfold RefinesAt cursorOp View.cursorOp View.CursorOpFresh
  rw [show s.view = s.tables.mapRecords (pooledView s.slab).onRecord from rfl, hpr]
  rw [Prog.wp_bind, Prog.wp_get, Prog.wp_bind, Prog.wp_lift]
  cases hp : cursorOpPrelude env payload now tenant lease newCursor opId
      (pooledReader env.debug s.slab) s.tables with
  | err e => exact ⟨.refl h, .inl rfl⟩
  | panic p => exact .inl rfl
  | ok found =>
    cases found with
    | none => exact ⟨h, rfl, rfl⟩
    | some found =>
      obtain ⟨hash, r⟩ := found
      obtain ⟨_, _, hg, -, hca⟩ := cursorOpPrelude_eq_ok hp
      rcases hca with ⟨_, _, _, hn⟩ | ⟨-, -, -, hso⟩
      · cases hn
      cases hso
      have hfr : ∃ found, (Outcome.ok ((some (hash, r)).map
          (Prod.map id (pooledView s.slab).onRecord)) : Run CheckpointError _) =
          .ok (some found) := ⟨_, rfl⟩
      simp only [post_ok, map_ok, Option.map_some, Prod.map, id, ok_bind]
        at hfr ⊢
      -- the cursor's slots next to those of the rest of the record and of the other records
      have ho := h.owns
      rw [held_eq_add_rest hg, ShardRecord.held, Multiset.add_comm r.spec.held,
        add_assoc, add_assoc] at ho
      rw [Prog.wp_bind, Coordinator.onSlab, Prog.wp_zoom]
      refine Prog.wp_mono (PooledCursor.updateFromRef_spec ho newCursor)
        (fun cursor slab' hc => ?_) (fun e slab' hr => ?_) (fun p hp => .inr ⟨hfr, hp⟩)
      · obtain ⟨hpl, hv⟩ := hc
        have hwf := h.spawned tenant lease.shardKey r hg
        have hre : (pooledView slab').onRecord { r with cursor } =
            { (pooledView s.slab).onRecord r with cursor := newCursor.value } :=
          onRecord_withCursor (PooledShardSpec.view_congr hpl.same le_self_add)
            (PooledSpawned.view_congr hpl.same (le_self_add.trans le_add_self)) hv
        rw [← hre, hna, Prog.wp_bind, Prog.wp_lift]
        cases hf : finish { r with cursor } hash with
        | err e => exact absurd hf (hne _ _ e)
        | panic p => exact .inl rfl
        | ok r' =>
          have hs := hst _ _ _ hf
          have hh : r'.held = r.spec.held + cursor.held + r.spawned.held := by
            simp [ShardRecord.held, hs.spec, hs.cursor, hs.spawned]
          have ho' : Owns env.debug slab'
              (0 + (r'.held + s.tables.restHeld tenant lease.shardKey)) 0 := by
            have := hpl.owns
            rw [zero_add, hh, Multiset.add_comm r.spec.held, add_assoc, add_assoc]
            exact this
          have hw' : r'.spawned.WellFormed := hs.spawned ▸ hwf
          have hres := hpl.same.mono ((Multiset.le_add_left
            (s.tables.restHeld tenant lease.shardKey) r.spawned.held).trans le_add_self)
          have ha : (pooledView slab').Agrees (pooledReader env.debug slab') viewReader r' :=
            agrees_of_held ho' (le_self_add.trans le_add_self) hw'
          simp only [post_ok, map_ok, ok_bind, Prog.wp_bind, Prog.wp_get,
            Prog.wp_lift, ha.assertInvariants]
          cases hinv : (pooledReader env.debug slab').assertInvariants r' with
          | err e => exact absurd hinv (Reader.noErr_assertInvariants _ r' e)
          | panic p => exact .inl rfl
          | ok u =>
            refine ⟨(Holding.of_set rfl (h.counted.setShard hg) ho' hw' h.spawned).coherent
              (h.indexed.setShard _ _ _), hpl.capacity, ?_⟩
            simp only [ok_bind, pure_eq, Outcome.ok.injEq, Prod.mk.injEq, true_and]
            simp only [Tables.setShard, Coordinator.view, Tables.mapRecords]
            rw [mapVals_set_rest hres]
      · have he : r.cursor.held + (r.spec.held + (r.spawned.held +
            s.tables.restHeld tenant lease.shardKey)) = s.tables.held := by
          rw [held_eq_add_rest hg, ShardRecord.held]
          abel
        rw [he] at hr
        exact ⟨.of_released h hr, .inr ⟨hfr, trivial⟩⟩

theorem checkpoint_refines (h : Coherent env s) (now tenant lease newCursor) (opId : OpId) :
    RefinesAt env s ShardOpError.IsExhausted
      (View.CursorOpFresh env (.checkpoint newCursor) now tenant lease newCursor opId s.view)
      (checkpoint env now tenant lease newCursor opId)
      (View.checkpoint env now tenant lease newCursor opId s.view) :=
  cursorOp_refines h _ _ _ (fun _ r hash => logOp_onRecord r .checkpoint opId hash now)
    (fun _ _ _ hf => sameStored_logOp hf) (fun _ _ => ShardRecord.noErr_logOp _ _ _ _)
    now tenant lease newCursor opId

theorem complete_refines (h : Coherent env s) (now tenant lease finalCursor) (opId : OpId) :
    RefinesAt env s ShardOpError.IsExhausted
      (View.CursorOpFresh env (.complete finalCursor) now tenant lease finalCursor opId s.view)
      (complete env now tenant lease finalCursor opId)
      (View.complete env now tenant lease finalCursor opId s.view) :=
  cursorOp_refines h _ _ _ (fun _ r hash => markDone_onRecord r opId hash now)
    (fun _ _ _ hf => sameStored_markDone hf)
    (fun _ _ => Outcome.NoErr.check fun _ =>
      ShardRecord.noErr_logOp _ _ _ _)
    now tenant lease finalCursor opId

end GossipRs
