import GossipRs.Properties.Histories

/-! Failed calls. An operation that returns an error leaves the maps, what the records read through
the slab, and the amount of free memory as they were. Only the combined create-and-register call
keeps the run it created when the registration fails. -/

namespace GossipRs

open Lib Stdx Outcome
open Prog (wp wp_bind wp_get wp_lift wp_mono)

variable {env : Env} {s s' : Coordinator}

/-- What a caller can observe is the same: maps, records as read through the slab, and free memory.
-/
structure Indistinct (s s' : Coordinator) : Prop where
  tables : s'.tables = s.tables
  view : s'.view = s.view
  available : s'.slab.availableBytes = s.slab.availableBytes

theorem Unchanged.indistinct (h : Unchanged env s s') (hs : Coherent env s) : Indistinct s s' :=
  ⟨h.tables, h.view, h.availableBytes hs⟩

theorem View.registerShards_getRun
    (h : View.registerShards env now tenant run shards opId t = .ok (outcome, t')) :
    ∃ record, getRun tenant run t' = .ok record := by
  have found : ∀ {t : View} {record : RunRecord}, t.runs.lookup (tenant, run) = some record →
      record.tenant = tenant → getRun tenant run t = .ok record := by
    intro t record hg ht
    unfold getRun lookupRun
    rw [hg, okOr_some, ok_bind, ensure_of_true ht]
    rfl
  obtain ⟨found?, hp, h⟩ := bind_eq_ok.mp h
  obtain ⟨record, _, hg, ht, -, ⟨_, _, -, -, -, -, rfl⟩ | ⟨-, -, -, -, rfl⟩⟩ :=
    registerShardsPrelude_eq_ok hp
  · cases h
    exact ⟨record, found hg ht⟩
  obtain ⟨_, -, h⟩ := bind_eq_ok.mp h
  obtain ⟨_, ha, h⟩ := bind_eq_ok.mp h
  cases h
  obtain ⟨_, -, -, -, -, -, -, rfl, -⟩ := activateRun_eq_ok ha
  exact ⟨_, found (Finmap.lookup_insert _) ht⟩

theorem registerCreated_failed (h : Coherent env s) (now tenant run shards) (opId : OpId) :
    wp (registerCreated env now tenant run shards opId) s (fun _ _ => True)
      (fun _ s' => Unchanged env s s') (fun _ => True) := by
  unfold registerCreated
  rw [wp_bind, Prog.wp_mapErr]
  refine wp_mono (registerShards_refines h now tenant run shards opId)
    (fun outcome s1 h1 => ?_) (fun e s1 h1 => h1.1) (fun _ _ => trivial)
  obtain ⟨-, -, ha⟩ := h1
  obtain ⟨_, hr⟩ := View.registerShards_getRun ha
  rw [getRun_view] at hr
  rw [wp_bind, wp_get, wp_bind, wp_lift, hr]
  trivial

def Coordinator.withRun (s : Coordinator) (now : LogicalTime) (tenant : TenantId) (run : RunId)
    (config : RunConfig) : Coordinator :=
  { s with tables := { s.tables with
      runs := s.tables.runs.insert (tenant, run) (.initial tenant run config now) } }

/-- What the combined call leaves when it fails: the state with its run created, or as it was if the
run existed. -/
theorem createRunWithShards_failed (h : Coherent env s) (now tenant run) (config : RunConfig)
    (shards) (opId : OpId) :
    wp (createRunWithShards env now tenant run config shards opId) s (fun _ _ => True)
      (fun _ s' => ∃ s1, Coherent env s1 ∧ Unchanged env s1 s' ∧
        (s1 = s ∨ s.tables.runs.lookup (tenant, run) = none ∧ s1 = s.withRun now tenant run config))
      (fun _ => True) := by
  unfold createRunWithShards
  rw [wp_bind, wp_get]
  cases hc : createRun now tenant run config s.tables with
  | ok r =>
    obtain ⟨_, _⟩ := r
    have hco := h.createRun hc
    obtain ⟨hn, rfl, -, rfl⟩ := createRun_eq_ok hc
    rw [wp_bind, Prog.wp_set]
    exact wp_mono (registerCreated_failed hco now tenant run shards opId)
      (fun _ _ _ => trivial) (fun _ s' hs' => ⟨_, hco, hs', .inr ⟨hn, rfl⟩⟩)
      (fun _ _ => trivial)
  | panic p => trivial
  | err e =>
    cases e with
    | runAlreadyExists run' =>
      rw [wp_bind, wp_lift]
      cases (getRun tenant run s.tables).mapErr CreateRunError.getRunFailed with
      | err e => exact ⟨s, h, .refl h, .inl rfl⟩
      | panic p => trivial
      | ok existing =>
        rw [post_ok, wp_bind, wp_lift]
        cases (Outcome.ensure (existing.config = config) (.configMismatch run) :
            Run CreateRunError Unit) with
        | err e => exact ⟨s, h, .refl h, .inl rfl⟩
        | panic p => trivial
        | ok u =>
          rw [post_ok]
          exact wp_mono (registerCreated_failed h now tenant run shards opId)
            (fun _ _ _ => trivial) (fun _ s' hs' => ⟨s, h, hs', .inl rfl⟩) (fun _ _ => trivial)
    | registerShardsFailed e | getRunFailed e | configMismatch run' =>
      exact ⟨s, h, .refl h, .inl rfl⟩

/-- **A failed call leaves the coordinator as it was**, but for the run a combined call created
before its registration failed. -/
theorem failed_call_unchanged {call : Call} {response : Response} (hs : Reachable env s)
    (hstep : step env call s = .ok (response, s')) (herr : response.isError = true) :
    Indistinct s s' ∨ ∃ now tenant run config shards opId,
        call = .createRunWithShards now tenant run config shards opId ∧
        s.tables.runs.lookup (tenant, run) = none ∧
        Indistinct (s.withRun now tenant run config) s' := by
  have hcoherent := hs.coherent
  cases hc : call.isCombined with
  | false =>
    have hatomic := step_atomic hcoherent call hc
    rw [AtomicRefines, hstep] at hatomic
    exact .inl ((hatomic.2.2.1 herr).indistinct hcoherent)
  | true =>
    cases call with
    | createRunWithShards now tenant run config shards opId =>
      have hfailed := createRunWithShards_failed hcoherent now tenant run config shards opId
      unfold Prog.wp at hfailed
      simp only [step, Prog.respond] at hstep
      cases hm : createRunWithShards env now tenant run config shards opId s with
      | ok r =>
        rw [hm] at hstep
        cases hstep
        cases herr
      | panic p =>
        rw [hm] at hstep
        cases hstep
      | err r =>
        rw [hm] at hstep hfailed
        cases hstep
        obtain ⟨_, h₁, hsame, rfl | ⟨hnew, rfl⟩⟩ := hfailed
        · exact .inl (hsame.indistinct h₁)
        · exact .inr ⟨now, tenant, run, config, shards, opId, rfl, hnew, hsame.indistinct h₁⟩
    | _ => cases hc

/-! ### A split that runs out of memory at its second child -/

namespace Demo

/-- Room for five key blocks: the root, one child and the start key of another. -/
def tightConfig : CoordinatorConfig := { config with slabCapacity := 80 }

def tight : Coordinator :=
  ⟨⟨tightConfig, ∅, 0, ∅, ∅, ∅⟩,
    ⟨fun _ => 0, 0, 80, [], freeListMetadataCapacity 80, 0, 0, 0, 3⟩⟩

theorem tight_eq :
    (Coordinator.withRuntimeConfig Demo.env tightConfig 3 : Run Empty _) = .ok tight :=
  rfl

def replacement : SplitReplacePlan :=
  ⟨[⟨⟨[1], [5], []⟩, .initial⟩, ⟨⟨[5], [9], []⟩, .initial⟩], by decide, by decide⟩

def splitInTwo : Call := .splitReplace 3 Demo.tenant rootLease replacement ⟨2⟩

def isSlabFull : Response → Bool
  | .splitReplace (.error (.resourceExhausted _)) => true
  | _ => false

end Demo

/-- The second child's start key is still in the buffer, so the first child was in the maps when the
slab ran out; nothing a caller can observe shows it. -/
theorem failed_split_unchanged : ∃ s response s', Reachable Demo.env s ∧
    step Demo.env Demo.splitInTwo s = .ok (response, s') ∧ Demo.isSlabFull response = true ∧
    (s.slab.buf 64 = 0 ∧ s'.slab.buf 64 = 5) ∧ Indistinct s s' := by
  have hrun : (execute Demo.env Demo.leased Demo.tight).okAnd (fun r =>
      (step Demo.env Demo.splitInTwo r.2).okAnd fun r₁ => (Demo.isSlabFull r₁.1 &&
        r₁.1.isError) && decide (r.2.slab.buf 64 = 0 ∧ r₁.2.slab.buf 64 = 5)) = true := by
    decide +kernel
  obtain ⟨⟨_, s⟩, hleased, hrun⟩ := exists_of_okAnd hrun
  obtain ⟨⟨response, s'⟩, hstep, hrun⟩ := exists_of_okAnd hrun
  obtain ⟨hresponse, hbuilt⟩ := Bool.and_eq_true_iff.mp hrun
  obtain ⟨hfull, herr⟩ := Bool.and_eq_true_iff.mp hresponse
  have hreach : Reachable Demo.env s := (Reachable.init Demo.tight_eq).execute hleased
  refine ⟨s, response, s', hreach, hstep, hfull, of_decide_eq_true hbuilt, ?_⟩
  rcases failed_call_unchanged hreach hstep herr with h | ⟨_, _, _, _, _, _, h, -⟩
  · exact h
  · cases h

/-- A combined call with an empty manifest fails and leaves its run behind. -/
theorem createRunWithShards_leaves_run : ∃ response s',
    step Demo.env (.createRunWithShards 1 Demo.tenant Demo.run Demo.runConfig [] ⟨1⟩) Demo.fresh =
      .ok (response, s') ∧ response.isError = true ∧ Reachable Demo.env Demo.fresh ∧
    Demo.fresh.tables.runs.lookup (Demo.tenant, Demo.run) = none ∧
    (s'.tables.runs.lookup (Demo.tenant, Demo.run)).isSome = true := by
  have hrun : (step Demo.env
      (.createRunWithShards 1 Demo.tenant Demo.run Demo.runConfig [] ⟨1⟩) Demo.fresh).okAnd
      (fun r => r.1.isError && (r.2.tables.runs.lookup (Demo.tenant, Demo.run)).isSome) = true := by
    decide +kernel
  obtain ⟨⟨response, s'⟩, hstep, h⟩ := exists_of_okAnd hrun
  obtain ⟨herr, hsome⟩ := Bool.and_eq_true_iff.mp h
  exact ⟨response, s', hstep, herr, Demo.reachable_fresh, rfl, hsome⟩

end GossipRs
