import GossipRs.Properties.Histories

/-! Cursors move forward and stay in range. A checkpoint and a completion may not go back, nothing
else moves a cursor, and a residual split keeps the parent's cursor inside its range. -/

namespace GossipRs

open Lib Stdx Outcome List

variable {env : Env} {s s' : Coordinator}

/-- Progress between two cursors; an initial cursor is below every key. -/
def KeyLe (a b : Option Bytes) : Prop := ∀ key ∈ a, ∃ key' ∈ b, key ≤ key'

theorem KeyLe.refl (a) : KeyLe a a := fun key hk => ⟨key, hk, le_refl key⟩

theorem KeyLe.trans (ha : KeyLe a b) (hb : KeyLe b c) : KeyLe a c := by
  intro key hk
  obtain ⟨key1, hk1, hl1⟩ := ha key hk
  obtain ⟨key2, hk2, hl2⟩ := hb key1 hk1
  exact ⟨key2, hk2, le_trans hl1 hl2⟩

def RecordView.CursorInside (r : RecordView) : Prop :=
  ∀ key ∈ r.cursor.lastKey, r.spec.containsKey key

variable {r : RecordView}

theorem validateCursor_eq_ok (h : viewReader.validateCursor r cursor = .ok u) :
    KeyLe r.cursor.lastKey cursor.lastKey ∧ ∀ key ∈ cursor.lastKey, r.spec.containsKey key := by
  have hp : validateCursorUpdatePooled cursor r.cursor.lastKey r.spec.keyRangeStart
      r.spec.keyRangeEnd = .ok u := h
  obtain ⟨newKey, hn, h⟩ := bind_eq_ok.mp hp
  obtain ⟨-, h⟩ := check_eq_ok.mp h
  obtain ⟨-, h⟩ := check_eq_ok.mp h
  obtain ⟨hf, hin⟩ := check_eq_ok.mp h
  rw [okOr_eq_ok] at hn
  rw [ensure_eq_ok] at hf hin
  refine ⟨fun key hk => ⟨newKey, hn, hf key hk⟩, fun key hk => ?_⟩
  rw [hn] at hk
  cases hk
  exact hin

variable {tenant : TenantId} {key : ShardKey} {event : ShardEvent}

theorem RecordStep.keyLe (h : RecordStep env tenant key r event r') :
    KeyLe r.cursor.lastKey r'.cursor.lastKey := by
  cases h with
  | granted | renewed => exact .refl _
  | checkpointed _ hcursor hlog | completed _ hcursor hlog =>
    obtain ⟨entry, rfl⟩ := hlog.eq
    exact (validateCursor_eq_ok hcursor).1
  | parked _ hlog | unparked _ _ _ hlog | splitReplaced _ hlog | splitResidual _ _ hlog =>
    obtain ⟨entry, rfl⟩ := hlog.eq
    exact .refl _

theorem RecordStep.cursorInside (h : RecordStep env tenant key r event r') (hr : r.CursorInside) :
    r'.CursorInside := by
  cases h with
  | granted | renewed => exact hr
  | checkpointed _ hcursor hlog | completed _ hcursor hlog =>
    obtain ⟨entry, rfl⟩ := hlog.eq
    exact (validateCursor_eq_ok hcursor).2
  | parked _ hlog | unparked _ _ _ hlog | splitReplaced _ hlog =>
    obtain ⟨entry, rfl⟩ := hlog.eq
    exact hr
  | splitResidual hready _ hlog =>
    obtain ⟨entry, rfl⟩ := hlog.eq
    obtain ⟨_, hl, hin⟩ := hready.cursor
    cases hl
    exact hin

/-- The child cursors a call supplies are initial or lie in the child's range. -/
def Call.ChildCursorsInside : Call → Prop
  | .splitReplace _ _ _ plan _ =>
    ∀ child ∈ plan.children, ∀ key ∈ child.cursor.lastKey, child.spec.containsKey key
  | _ => True

theorem label_splitReplaced {call : Call}
    (h : call.label response = .shard tenant key (.splitReplaced now lease plan opId)) :
    call = .splitReplace now tenant lease plan opId := by
  unfold Call.label at h
  split at h
  all_goals first | cases h; rfl | cases h

theorem children_cursorInside {call : Call} (hc : call.ChildCursorsInside)
    (hl : call.label response = .shard tenant key event)
    (hs : RecordStep env tenant key r event r') (hm : new ∈ event.children env r) :
    (r.child tenant new).2.CursorInside := by
  cases hs with
  | splitReplaced hready hlog =>
    rw [label_splitReplaced hl] at hc
    exact hc new.2 ((mem_insertionSort _).mp (of_mem_zip hm).2)
  | splitResidual hready hscan hlog =>
    rw [mem_singleton.mp hm]
    exact fun key hk => absurd hk (Option.not_mem_none _)
  | granted | renewed | checkpointed | completed | parked | unparked => cases hm

theorem View.Trace.cursorInside (h : View.Trace env trace t)
    (hc : ∀ e ∈ trace, e.1.ChildCursorsInside) (hg : t.getShard tenant key = some r) :
    r.CursorInside := by
  induction h generalizing tenant key r with
  | init config => cases hg
  | @step trace t t' call response ht hstep ih =>
    have hb : ∀ {tenant key r}, t.getShard tenant key = some r → r.CursorInside :=
      ih fun e he => hc e (mem_append_left _ he)
    have hca : call.ChildCursorsInside :=
      hc (call, response) (mem_append_right _ (mem_singleton_self _))
    obtain ⟨_, ho, hef⟩ := Steps.effect hstep
    generalize hl : call.label response = label at hef
    cases hef.origin hg with
    | kept hkept hother => exact hb ((ho.getShard _ _).symm.trans hkept)
    | stepped hstepped hrecord =>
      exact hrecord.cursorInside (hb ((ho.getShard _ _).symm.trans hstepped))
    | root hrun hmanifest hmem hinv hkey hnew => exact hmanifest.cursor_in _ hmem
    | child hparent hrecord hmem hinv hkey hne hnew =>
      exact children_cursorInside hca hl hrecord hmem

/-- **Cursors never move back**, and stay in the range of their shard if the children of every
split were given cursors in theirs. -/
theorem cursor_progress {trace : List (Call × Response)} (h : Trace env trace s) :
    (∀ calls responses s', execute env calls s = .ok (responses, s') →
      ∀ tenant key r, s.view.getShard tenant key = some r →
        ∃ r', s'.view.getShard tenant key = some r' ∧ KeyLe r.cursor.lastKey r'.cursor.lastKey) ∧
    ((∀ e ∈ trace, e.1.ChildCursorsInside) →
      ∀ tenant key r, s.view.getShard tenant key = some r → r.CursorInside) := by
  constructor
  · intro calls responses s' hrun tenant key r hget
    exact execute_successor (R := fun r r' => KeyLe r.cursor.lastKey r'.cursor.lastKey)
      (fun r => .refl _) KeyLe.trans tenant key RecordStep.keyLe h.reachable hrun hget
  · intro hcalls tenant key r hget
    exact h.view.cursorInside hcalls hget

/-- A checkpoint at key 4, in the range from 1 to 9. -/
theorem cursor_progress_checkpoint : ∃ responses s r,
    execute Demo.env (Demo.leased ++ [.checkpoint 3 Demo.tenant Demo.rootLease
      (CursorUpdate.new [4] (by decide)) ⟨2⟩]) Demo.fresh = .ok (responses, s) ∧
    s.view.getShard Demo.tenant Demo.rootKey = some r ∧ r.cursor.lastKey = some [4] ∧
    r.CursorInside := by
  have hrun : (execute Demo.env (Demo.leased ++ [.checkpoint 3 Demo.tenant Demo.rootLease
      (CursorUpdate.new [4] (by decide)) ⟨2⟩]) Demo.fresh).okAnd (fun r => decide
        ((r.2.view.getShard Demo.tenant Demo.rootKey).map (fun r => r.cursor.lastKey) =
          some (some [4]))) = true := by decide +kernel
  obtain ⟨⟨responses, s⟩, hrun, hkey⟩ := exists_of_okAnd hrun
  obtain ⟨r, hget, hlast⟩ := Option.map_eq_some_iff.mp (of_decide_eq_true hkey)
  refine ⟨responses, s, r, hrun, hget, hlast, ?_⟩
  refine (cursor_progress (trace_execute (.init Demo.fresh_eq) hrun)).2 (fun e he => ?_) _ _ r hget
  obtain ⟨_, _⟩ := e
  have hcall := (of_mem_zip he).1
  simp only [Demo.leased, cons_append, nil_append, mem_cons, not_mem_nil,
    or_false] at hcall
  rcases hcall with rfl | rfl | rfl <;> trivial

end GossipRs
