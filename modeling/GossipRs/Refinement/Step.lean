import GossipRs.Refinement.Cursor
import GossipRs.Refinement.Splits
import GossipRs.Refinement.Register

/-! Every step of the coordinator is a step of its view, with two exceptions: a call that got past
its checks may find the slab full, and releasing may run out of free-list metadata on a slab larger
than the index can describe. -/

namespace GossipRs

open Lib Stdx Outcome
open View (op)
open Prog (bind_run get_run wp wp_bind wp_get wp_lift)

variable {ε α : Type} {env : Env} {s : Coordinator}

def StepRefines (env : Env) (s : Coordinator) (call : Call) : Prop :=
  (step env call s).Post
    (fun r => Coherent env r.2 ∧ r.2.slab.capacity = s.slab.capacity ∧
      View.Steps env s.view call r.1 r.2.view)
    (fun _ => False)
    (fun p => View.step env call s.view = .panic p ∨
      call.Fresh env s.view ∧ MetadataExhausted s.slab p)

def AtomicRefines (env : Env) (s : Coordinator) (fresh : Prop)
    (out : Outcome Panic Empty (Response × Coordinator))
    (a : Outcome Panic Empty (Response × View)) : Prop :=
  out.Post
    (fun r => Coherent env r.2 ∧ r.2.slab.capacity = s.slab.capacity ∧
      (r.1.isError = true → Unchanged env s r.2) ∧
      (a = .ok (r.1, r.2.view) ∨ fresh ∧ r.1.isExhausted = true ∧ r.2.view = s.view))
    (fun _ => False)
    (fun p => a = .panic p ∨ fresh ∧ MetadataExhausted s.slab p)

theorem RefinesAt.respond {f : Except ε α → Response} (h : RefinesAt env s full fresh m (a s.view))
    (ho : ∀ x, (f (.ok x)).isError = false)
    (hfu : ∀ e, full e → (f (.error e)).isExhausted = true) :
    AtomicRefines env s fresh (Prog.respond f m s) (Prog.respond f (op a) s.view) := by
  unfold RefinesAt wp at h
  unfold AtomicRefines Prog.respond op
  cases hm : m s with
  | ok r =>
    rw [hm] at h
    obtain ⟨hc, hca, ha⟩ := h
    refine ⟨hc, hca, fun herr => ?_, .inl (by rw [ha])⟩
    rw [ho] at herr
    cases herr
  | err r =>
    rw [hm] at h
    obtain ⟨hs, ha⟩ := h
    refine ⟨hs.coherent, hs.capacity, fun _ => hs, ?_⟩
    rcases ha with ha | ⟨hf, he⟩
    · left
      rw [ha, hs.view]
    · exact .inr ⟨hf, hfu _ he, hs.view⟩
  | panic p =>
    rw [hm] at h
    exact h.imp_left fun ha => by rw [ha]

variable {outcome : IdempotentOutcome Unit}

section Tables

variable {f : Reader PooledShardSpec PooledCursor PooledSpawned → Tables PooledRecord →
    Run ε (α × Tables PooledRecord)} {g : View → Run ε (α × View)}
  {respond : Except ε α → Response}

theorem onTables_step (h : Coherent env s)
    (hn : g s.view = (pooledView s.slab).onResult <$> f (pooledReader env.debug s.slab) s.tables)
    (hc : ∀ a t, f (pooledReader env.debug s.slab) s.tables = .ok (a, t) →
      Coherent env { s with tables := t })
    (ho : ∀ x, (respond (.ok x)).isError = false) :
    AtomicRefines env s False (Prog.respond respond (Coordinator.onTables env.debug f) s)
      (Prog.respond respond (op g) s.view) :=
  (onTables_refines h f g hn hc).respond ho fun _ hf => hf.elim

end Tables

section Calls

variable {debug : Bool} {now : LogicalTime} {tenant : TenantId} {run : RunId} {opId : OpId}
  {rd : Reader PooledShardSpec PooledCursor PooledSpawned} {t : Tables PooledRecord}

section

variable (h : Coherent env s)

include h

theorem Coherent.acquire
    (hf : acquireAndRestoreInto debug now tenant key worker rd s.tables = .ok (result, t)) :
    Coherent env { s with tables := t } := by
  obtain ⟨_, _, hge, hg, -, rfl⟩ := acquire_eq_ok hf
  exact h.setShard hge (sameStored_grantLease hg)

theorem Coherent.renew (hf : renew debug now tenant lease rd s.tables = .ok (result, t)) :
    Coherent env { s with tables := t } := by
  obtain ⟨_, _, hg, he, -, rfl⟩ := renew_eq_ok hf
  exact h.setShard hg (sameStored_extendLease he)

theorem Coherent.parkShard
    (hf : parkShard env now tenant lease reason opId rd s.tables = .ok (outcome, t)) :
    Coherent env { s with tables := t } := by
  obtain ⟨_, _, hg, -, ⟨_, _, _, _, rfl⟩ | ⟨-, -, _, hm, -, -, rfl⟩⟩ := parkShard_eq_ok hf
  · exact h
  · exact h.setShard hg (sameStored_markParked hm)

theorem Coherent.unparkShard
    (hf : unparkShard env now tenant key opId rd s.tables = .ok (outcome, t)) :
    Coherent env { s with tables := t } := by
  obtain ⟨_, _, _, hg, -, -, -, -,
    ⟨_, _, _, _, rfl⟩ | ⟨-, -, _, hm, -, -, rfl⟩⟩ := unparkShard_eq_ok hf
  · exact h
  · exact h.setShard hg (sameStored_markUnparked hm)

theorem Coherent.claimNextAvailable
    (hf : claimNextAvailable debug now tenant run worker rd s.tables = .ok (result, t)) :
    Coherent env { s with tables := t } := by
  obtain ⟨_, _, _, ha, rfl⟩ := claimNextAvailable_eq_ok hf
  exact (h.acquire ha).of_shards rfl rfl rfl

theorem Coherent.createRun (hf : createRun now tenant run config s.tables = .ok (record, t)) :
    Coherent env { s with tables := t } := by
  obtain ⟨-, -, -, rfl⟩ := createRun_eq_ok hf
  exact h.of_shards rfl rfl rfl

theorem Coherent.finishRun
    (hf : finishRun env payload target kind requireActive now tenant run opId s.tables =
      .ok (outcome, t)) : Coherent env { s with tables := t } := by
  obtain ⟨_, _, -, -, -, ⟨_, _, _, _, _, rfl⟩ |
    ⟨-, -, -, _, _, -, -, -, -, -, -, -, -, -, rfl⟩⟩ := finishRun_eq_ok hf
  · exact h
  · exact h.of_shards rfl rfl rfl

end

theorem query_eq_ok {R} {q : Tables R → Run ε α} {t t'} (h : query q t = .ok (a, t')) :
    q t = .ok a ∧ t' = t := by
  obtain ⟨_, hq, h⟩ := bind_eq_ok.mp h
  cases h
  exact ⟨hq, rfl⟩

theorem query_step (h : Coherent env s)
    {q : Reader PooledShardSpec PooledCursor PooledSpawned → Tables PooledRecord → Run ε α}
    {qView : View → Run ε α} (hn : qView s.view = q (pooledReader env.debug s.slab) s.tables)
    (ho : ∀ x, (respond (.ok x)).isError = false) :
    AtomicRefines env s False
      (Prog.respond respond (Coordinator.onTables env.debug fun rd => query (q rd)) s)
      (Prog.respond respond (op (query qView)) s.view) := by
  refine onTables_step h ?_ (fun a t hf => ?_) ho
  · unfold query
    rw [hn, map_bind]
    rfl
  · rw [(query_eq_ok hf).2]
    exact h

end Calls

/-- The combined call is the only one that is not atomic. -/
def Call.isCombined : Call → Bool
  | .createRunWithShards .. => true
  | _ => false

theorem step_atomic (h : Coherent env s) (call : Call) (hc : call.isCombined = false) :
    AtomicRefines env s (call.Fresh env s.view) (step env call s) (View.step env call s.view) := by
  cases call with
  | acquire now tenant key worker =>
    exact onTables_step h (acquire_mapRecords h.agreesOn key worker) (fun _ _ hf => h.acquire hf)
      fun _ => rfl
  | renew now tenant lease =>
    exact onTables_step h (renew_mapRecords h.agreesOn lease) (fun _ _ hf => h.renew hf)
      fun _ => rfl
  | checkpoint now tenant lease newCursor opId =>
    exact (checkpoint_refines h now tenant lease newCursor opId).respond (fun _ => rfl)
      fun e he => by cases e <;> first | rfl | cases he
  | complete now tenant lease finalCursor opId =>
    exact (complete_refines h now tenant lease finalCursor opId).respond (fun _ => rfl)
      fun e he => by cases e <;> first | rfl | cases he
  | parkShard now tenant lease reason opId =>
    exact onTables_step h (parkShard_mapRecords h.agreesOn lease reason opId)
      (fun _ _ hf => h.parkShard hf) fun _ => rfl
  | splitReplace now tenant lease plan opId =>
    exact (splitReplace_refines h now tenant lease plan opId).respond (fun _ => rfl)
      fun e he => by cases e <;> first | rfl | cases he
  | splitResidual now tenant lease plan opId =>
    exact (splitResidual_refines h now tenant lease plan opId).respond (fun _ => rfl)
      fun e he => by cases e <;> first | rfl | cases he
  | createRun now tenant run config =>
    exact onTables_step h (createRun_mapRecords run config) (fun _ _ hf => h.createRun hf)
      fun _ => rfl
  | registerShards now tenant run shards opId =>
    exact (registerShards_refines h now tenant run shards opId).respond (fun _ => rfl)
      fun e he => by cases he; rfl
  | createRunWithShards now tenant run config shards opId => cases hc
  | getRun tenant run => exact query_step h rfl fun _ => rfl
  | getRunProgress now tenant run =>
    exact query_step h (getRunProgress_mapRecords h.agreesOn run) fun _ => rfl
  | listShards now tenant run filter =>
    exact query_step h (listShards_mapRecords h.agreesOn run filter) fun _ => rfl
  | collectClaimCandidates now tenant run =>
    exact query_step h (collectClaimCandidates_mapRecords run) fun _ => rfl
  | completeRun now tenant run opId | failRun now tenant run opId | cancelRun now tenant run opId =>
    exact onTables_step h (finishRun_mapRecords _ _ _ _ run opId) (fun _ _ hf => h.finishRun hf)
      fun _ => rfl
  | unparkShard now tenant key opId =>
    exact onTables_step h (unparkShard_mapRecords h.agreesOn key opId)
      (fun _ _ hf => h.unparkShard hf) fun _ => rfl
  | claimNextAvailable now tenant run worker =>
    exact onTables_step h (claimNextAvailable_mapRecords h.agreesOn run worker)
      (fun _ _ hf => h.claimNextAvailable hf) fun _ => rfl

section Combined

def CombinedRefines (env : Env) (s : Coordinator) (tenant : TenantId) (run : RunId)
    (shards : List InitialShardInput) (opId : OpId) (t₁ : View)
    (m : Op CreateRunError α) (a : Outcome Panic (CreateRunError × View) (α × View)) : Prop :=
  Prog.wp m s
    (fun x s' => Coherent env s' ∧ s'.slab.capacity = s.slab.capacity ∧ a = .ok (x, s'.view))
    (fun e s' => Coherent env s' ∧ s'.slab.capacity = s.slab.capacity ∧
      (a = .err (e, s'.view) ∨ View.RegisterShardsFresh env tenant run shards opId t₁ ∧
        e = .registerShardsFailed .resourceExhausted ∧ s'.view = t₁))
    (fun p => a = .panic p ∨ View.RegisterShardsFresh env tenant run shards opId t₁ ∧
      MetadataExhausted s.slab p)

theorem getRun_view (s : Coordinator) (tenant run) :
    getRun tenant run s.view = getRun tenant run s.tables := rfl

theorem registerCreated_refines (h : Coherent env s) (now tenant run shards) (opId : OpId) :
    CombinedRefines env s tenant run shards opId s.view
      (registerCreated env now tenant run shards opId)
      (View.registerCreated env now tenant run shards opId s.view) := by
  unfold CombinedRefines registerCreated View.registerCreated
  rw [wp_bind, Prog.wp_mapErr, bind_run]
  refine Prog.wp_mono (registerShards_refines h now tenant run shards opId)
    (fun outcome s1 h1 => ?_) (fun e s1 h1 => ?_) (fun p hp => ?_)
  · obtain ⟨hc, hca, ha⟩ := h1
    have ho : Prog.mapErr CreateRunError.registerShardsFailed
        (op (View.registerShards env now tenant run shards opId)) s.view =
          .ok (outcome, s1.view) := by
      unfold Prog.mapErr op
      rw [ha]
      rfl
    rw [ho, wp_bind, wp_get, wp_bind, wp_lift]
    simp only [ok_bind, bind_run, get_run, getRun_view, Prog.lift]
    cases (getRun tenant run s1.tables).mapErr CreateRunError.getRunFailed with
    | ok record => exact ⟨hc, hca, rfl⟩
    | err e => exact ⟨hc, hca, .inl rfl⟩
    | panic p => exact .inl rfl
  · obtain ⟨hs, ha⟩ := h1
    refine ⟨hs.coherent, hs.capacity, ?_⟩
    rcases ha with ha | ⟨hf, rfl⟩
    · left
      unfold Prog.mapErr op
      rw [ha, hs.view]
      rfl
    · exact .inr ⟨hf, rfl, hs.view⟩
  · refine hp.imp_left fun ha => ?_
    unfold Prog.mapErr op
    rw [ha]
    rfl

theorem createRunWithShards_refines (h : Coherent env s) (now tenant run) (config : RunConfig)
    (shards) (opId : OpId) :
    CombinedRefines env s tenant run shards opId (s.view.created now tenant run config)
      (createRunWithShards env now tenant run config shards opId)
      (View.createRunWithShards env now tenant run config shards opId s.view) := by
  have hcr : createRun now tenant run config s.view = _ :=
    createRun_mapRecords (m := pooledView s.slab) run config
  unfold CombinedRefines createRunWithShards View.createRunWithShards View.created
  rw [wp_bind, wp_get, bind_run, get_run, ok_bind]
  dsimp only
  rw [hcr]
  cases hc : createRun now tenant run config s.tables with
  | ok r =>
    obtain ⟨_, _⟩ := r
    have hco := h.createRun hc
    simp only [map_ok, FieldMap.onResult]
    rw [wp_bind, Prog.wp_set]
    exact registerCreated_refines hco now tenant run shards opId
  | panic p => exact .inl rfl
  | err e =>
    simp only [map_err]
    cases e with
    | runAlreadyExists run' =>
      dsimp only
      rw [wp_bind, wp_lift, bind_run, getRun_view]
      cases (getRun tenant run s.tables).mapErr CreateRunError.getRunFailed with
      | err e => exact ⟨h, rfl, .inl rfl⟩
      | panic p => exact .inl rfl
      | ok existing =>
        rw [post_ok, wp_bind, wp_lift, Prog.lift_ok, ok_bind, bind_run]
        cases (Outcome.ensure (existing.config = config) (.configMismatch run) :
            Run CreateRunError Unit) with
        | err e => exact ⟨h, rfl, .inl rfl⟩
        | panic p => exact .inl rfl
        | ok u => exact registerCreated_refines h now tenant run shards opId
    | registerShardsFailed e | getRunFailed e | configMismatch run' => exact ⟨h, rfl, .inl rfl⟩

end Combined

/-- **One step of the coordinator is a step of its view**, up to memory. -/
theorem step_refines (h : Coherent env s) (call : Call) : StepRefines env s call := by
  unfold StepRefines
  cases hc : call.isCombined with
  | false =>
    have hex : ∀ t, call.afterExhaustion t = t := by
      intro t
      cases call <;> first | rfl | cases hc
    refine (step_atomic h call hc).mono (fun r _ hr => ⟨hr.1, hr.2.1, hr.2.2.2.imp_right ?_⟩)
      (fun _ _ hf => hf) (fun _ _ hp => hp)
    rintro ⟨hfr, hfu, hv⟩
    exact ⟨hfr, hfu, hv.trans (hex s.view).symm⟩
  | true =>
    cases call with
    | createRunWithShards now tenant run config shards opId =>
      have hre := createRunWithShards_refines h now tenant run config shards opId
      unfold CombinedRefines wp at hre
      simp only [step, View.Steps, View.step, Prog.respond, Call.Fresh, Call.afterExhaustion]
      cases hm : createRunWithShards env now tenant run config shards opId s with
      | ok r =>
        rw [hm] at hre
        obtain ⟨hco, hca, ha⟩ := hre
        exact ⟨hco, hca, .inl (by rw [ha])⟩
      | err r =>
        rw [hm] at hre
        obtain ⟨hco, hca, ha | ⟨hfr, he, hv⟩⟩ := hre
        · exact ⟨hco, hca, .inl (by rw [ha])⟩
        refine ⟨hco, hca, .inr ⟨hfr, ?_, hv⟩⟩
        rw [he]
        rfl
      | panic p =>
        rw [hm] at hre
        exact hre.imp_left fun ha => by rw [ha]
    | _ => cases hc

theorem coherent_init (h : (Coordinator.withRuntimeConfig env config ownerId : Run ε _) = .ok s) :
    Coherent env s ∧ s.slab.capacity = config.effectiveSlabCapacity ∧
      s.view = ⟨config, ∅, 0, ∅, ∅, ∅⟩ := by
  obtain ⟨-, h⟩ := check_eq_ok.mp h
  obtain ⟨slab, hs, h⟩ := bind_eq_ok.mp h
  cases h
  obtain ⟨ho, hc⟩ : Owns env.debug slab 0 0 ∧ _ := Owns.fresh hs
  refine ⟨⟨ho, fun _ _ _ hg => ?_, rfl, fun _ _ _ hid => ?_⟩, hc, rfl⟩
  · cases hg
  · cases hid

theorem step_ok (h : Coherent env s) (hs : step env call s = .ok (response, s')) :
    Coherent env s' ∧ s'.slab.capacity = s.slab.capacity ∧
      View.Steps env s.view call response s'.view := by
  have := step_refines h call
  rw [StepRefines, hs] at this
  exact this

/-- **Every reachable coordinator is coherent**: its records own the live slots, count and index fit
its map. -/
theorem Reachable.coherent (h : Reachable env s) : Coherent env s := by
  induction h with
  | init hinit => exact (coherent_init hinit).1
  | step _ hstep ih => exact (step_ok ih hstep).1

/-- **A run of the coordinator is a run of its view**, with the same calls and responses. -/
theorem Trace.view (h : Trace env trace s) : View.Trace env trace s.view := by
  induction h with
  | @init config ownerId s hinit =>
    rw [(coherent_init hinit).2.2]
    exact .init config
  | step ht hstep ih => exact .step ih (step_ok ht.reachable.coherent hstep).2.2

theorem Reachable.exists_trace (h : Reachable env s) : ∃ trace, Trace env trace s := by
  induction h with
  | init hinit => exact ⟨[], .init hinit⟩
  | step _ hstep ih =>
    obtain ⟨trace, htrace⟩ := ih
    exact ⟨_, htrace.step hstep⟩

end GossipRs
