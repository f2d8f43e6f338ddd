import GossipRs.Properties.Lineage

/-! What holds along every history of the coordinator: tenants stay apart, a run moves forward, the
slab is not seen and does not leak, a registration is executed once, a lease is left alone. -/

namespace GossipRs

open Lib Stdx Outcome List

def Call.tenant : Call → TenantId
  | .getRun tenant _ | .acquire _ tenant _ _ | .renew _ tenant _ | .checkpoint _ tenant _ _ _
  | .complete _ tenant _ _ _ | .parkShard _ tenant _ _ _ | .splitReplace _ tenant _ _ _
  | .splitResidual _ tenant _ _ _ | .createRun _ tenant _ _ | .registerShards _ tenant _ _ _
  | .createRunWithShards _ tenant _ _ _ _ | .getRunProgress _ tenant _ | .listShards _ tenant _ _
  | .collectClaimCandidates _ tenant _ | .completeRun _ tenant _ _ | .failRun _ tenant _ _
  | .cancelRun _ tenant _ _ | .unparkShard _ tenant _ _ | .claimNextAvailable _ tenant _ _ => tenant

variable {env : Env} {s s' : Coordinator} {t t' : View} {tenant : TenantId} {run : RunId}
  {r r' : RunRecord} {label : Label} {call : Call} {calls : List Call}

theorem execute_view {R : View → View → Prop} {P : Call → Prop} (hr : ∀ t, R t t)
    (ht : ∀ {a b c}, R a b → R b c → R a c)
    (hst : ∀ {s call response s'}, P call → Reachable env s →
      step env call s = .ok (response, s') → R s.view s'.view)
    (hs : Reachable env s) (hru : execute env calls s = .ok (responses, s'))
    (hP : ∀ call ∈ calls, P call) : R s.view s'.view := by
  induction calls generalizing s responses with
  | nil =>
    cases hru
    exact hr _
  | cons call rest ih =>
    obtain ⟨⟨_, _⟩, h1, hru⟩ := bind_eq_ok.mp hru
    obtain ⟨⟨_, _⟩, h2, hru⟩ := bind_eq_ok.mp hru
    cases hru
    exact ht (hst (hP call mem_cons_self) hs h1)
      (ih (hs.step h1) h2 fun c hc => hP c (mem_cons_of_mem _ hc))

/-! ## Tenants -/

def Label.Of (tenant : TenantId) : Label → Prop
  | .quiet => False
  | .shard tenant' _ _ | .run tenant' _ _ => tenant' = tenant

theorem Call.label_of (h : (call.label response).Of tenant) : call.tenant = tenant := by
  unfold Call.label at h
  split at h <;> first | exact h | exact h.elim

/-- What a tenant has stored is the same in both. -/
structure View.SameFor (tenant : TenantId) (t t' : View) : Prop where
  shards : ∀ key, t'.getShard tenant key = t.getShard tenant key
  runs : ∀ run, t'.runs.lookup (tenant, run) = t.runs.lookup (tenant, run)

theorem View.SameFor.trans {a b c : View} (hab : a.SameFor tenant b) (hbc : b.SameFor tenant c) :
    a.SameFor tenant c :=
  ⟨fun key => (hbc.shards key).trans (hab.shards key),
    fun run => (hbc.runs run).trans (hab.runs run)⟩

theorem View.Effect.sameFor (h : Effect env t label t') (hl : ¬ label.Of tenant) :
    t.SameFor tenant t' := by
  constructor
  · intro key
    cases hg : t.getShard tenant key with
    | some r =>
      obtain ⟨r', hg', ⟨rfl, -⟩ | ⟨event, rfl, -⟩⟩ := h.successor hg
      · exact hg'
      · exact absurd rfl hl
    | none =>
      refine Option.eq_none_iff_forall_ne_some.mpr fun r hr => ?_
      cases h.origin hr with
      | kept hk => simp [hg] at hk
      | stepped | root | child => exact hl rfl
  · have other : ∀ {tenant' run' r'}, tenant' ≠ tenant → ∀ run,
        (t.runs.insert (tenant', run') r').lookup (tenant, run) = t.runs.lookup (tenant, run) :=
      fun hne run => Finmap.lookup_insert_of_ne _ fun he => hne (congrArg Prod.fst he).symm
    intro run
    cases h with
    | quiet | inPlace => rfl
    | split _ _ hsp => rw [hsp.runs]
    | created | registered | finished => exact other hl run

theorem step_sameFor (ht : call.tenant ≠ tenant) (hs : Reachable env s)
    (hst : step env call s = .ok (response, s')) : s.view.SameFor tenant s'.view := by
  obtain ⟨t1, ho, he⟩ := View.Steps.effect (step_ok hs.coherent hst).2.2
  have h1 : s.view.SameFor tenant t1 := by
    rcases ho with rfl | ⟨_, _, _, _, _, _, rfl, hc⟩
    · exact ⟨fun _ => rfl, fun _ => rfl⟩
    · exact hc.sameFor ht
  exact h1.trans (he.sameFor fun h => ht (Call.label_of h))

/-- **Tenants are isolated.** Calls that name other tenants, whatever run and shard ids they use,
leave every shard record and every run of this tenant as it was. -/
theorem tenant_isolation (hs : Reachable env s) (hru : execute env calls s = .ok (responses, s'))
    (hother : ∀ call ∈ calls, call.tenant ≠ tenant) :
    (∀ key, s'.view.getShard tenant key = s.view.getShard tenant key) ∧
      ∀ run, s'.tables.runs.lookup (tenant, run) = s.tables.runs.lookup (tenant, run) := by
  have h := execute_view (R := View.SameFor tenant) (fun t => ⟨fun _ => rfl, fun _ => rfl⟩)
    .trans step_sameFor hs hru hother
  exact ⟨h.shards, h.runs⟩

/-- Another tenant uses the run, the shard and the op id of a leased shard. -/
def Demo.intruding : List Call :=
  [.createRunWithShards 3 ⟨2⟩ Demo.run Demo.runConfig [Demo.root] ⟨1⟩,
    .acquire 4 ⟨2⟩ Demo.rootKey Demo.worker, .cancelRun 5 ⟨2⟩ Demo.run ⟨2⟩]

theorem tenant_isolation_leased : ∃ s responses s', Reachable Demo.env s ∧
    execute Demo.env Demo.intruding s = .ok (responses, s') ∧
    (s.view.getShard Demo.tenant Demo.rootKey).isSome = true ∧
    (s'.view.getShard ⟨2⟩ Demo.rootKey).isSome = true ∧
    s'.view.getShard Demo.tenant Demo.rootKey = s.view.getShard Demo.tenant Demo.rootKey ∧
    s'.tables.runs.lookup (Demo.tenant, Demo.run) =
      s.tables.runs.lookup (Demo.tenant, Demo.run) := by
  have hrun : (execute Demo.env Demo.leased Demo.fresh).okAnd (fun r =>
      (r.2.view.getShard Demo.tenant Demo.rootKey).isSome &&
        (execute Demo.env Demo.intruding r.2).okAnd fun r' =>
          (r'.2.view.getShard ⟨2⟩ Demo.rootKey).isSome) = true := by decide +kernel
  obtain ⟨⟨_, s⟩, hleased, hrun⟩ := exists_of_okAnd hrun
  obtain ⟨hmine, hrun⟩ := Bool.and_eq_true_iff.mp hrun
  obtain ⟨⟨responses, s'⟩, hothers, htheirs⟩ := exists_of_okAnd hrun
  have hreach : Reachable Demo.env s := Demo.reachable_fresh.execute hleased
  have hother : ∀ call ∈ Demo.intruding, call.tenant ≠ Demo.tenant := by decide
  obtain ⟨hshards, hruns⟩ := tenant_isolation hreach hothers hother
  exact ⟨s, responses, s', hreach, hothers, hmine, htheirs, hshards _, hruns _⟩

/-! ## Runs -/

/-- What a registration or a terminal transition does to its run. -/
structure RunMove (r r' : RunRecord) : Prop where
  forward : r.status = .initializing ∧ r'.status = .active ∨
    r.status.isTerminal = false ∧ r'.status.isTerminal = true ∧ r'.rootShards = r.rootShards
  same : r'.tenant = r.tenant ∧ r'.run = r.run ∧ r'.config = r.config ∧ r'.createdAt = r.createdAt
  log : ∃ entry, r'.opLog = pushOverwrite RunRecord.opLogCap r.opLog entry
  invariant : r'.Invariant

theorem View.Effect.runMove (h : Effect env t label t')
    (hg : t'.runs.lookup (tenant, run) = some r') :
    (t.runs.lookup (tenant, run) = none ∧ ∃ config now, r' = .initial tenant run config now ∧
        r'.Invariant) ∨
      ∃ r, t.runs.lookup (tenant, run) = some r ∧ (r' = r ∨ RunMove r r') := by
  -- what an insertion leaves is the new record or one that was there
  have inserted : ∀ {at1 r1}, (t.runs.insert at1 r1).lookup (tenant, run) = some r' →
      (tenant, run) = at1 ∧ r1 = r' ∨ t.runs.lookup (tenant, run) = some r' := by
    intro at1 r1 hi
    rw [FMap.lookup_insert_eq] at hi
    split_ifs at hi with he
    · exact .inl ⟨he, Option.some.inj hi⟩
    · exact .inr hi
  cases h with
  | quiet | inPlace => exact .inr ⟨r', hg, .inl rfl⟩
  | split _ _ hsp => exact .inr ⟨r', hsp.runs ▸ hg, .inl rfl⟩
  | created hn hinv =>
    rcases inserted hg with ⟨he, rfl⟩ | hg
    · cases he
      exact .inl ⟨hn, _, _, rfl, hinv⟩
    · exact .inr ⟨r', hg, .inl rfl⟩
  | registered hr _ hin _ _ _ _ hlog =>
    rcases inserted hg with ⟨he, rfl⟩ | hg
    · cases he
      obtain ⟨entry, -, -, -, -, -, rfl⟩ := hlog.entry
      exact .inr ⟨_, hr, .inr ⟨.inl ⟨hin, rfl⟩, ⟨rfl, rfl, rfl, rfl⟩, ⟨entry, rfl⟩, hlog.invariant⟩⟩
    · exact .inr ⟨r', hg, .inl rfl⟩
  | @finished _ _ _ kind _ status _ _ _ hk hr _ hrunning hlog =>
    rcases inserted hg with ⟨he, rfl⟩ | hg
    · cases he
      obtain ⟨entry, -, -, -, -, -, rfl⟩ := hlog.entry
      have ht : status.isTerminal = true := by
        cases kind <;> cases hk <;> rfl
      exact .inr ⟨_, hr, .inr ⟨.inr ⟨hrunning, ht, rfl⟩, ⟨rfl, rfl, rfl, rfl⟩, ⟨entry, rfl⟩,
        hlog.invariant⟩⟩
    · exact .inr ⟨r', hg, .inl rfl⟩

/-- A run logs its registration and its end, so that its op log never overflows. -/
def RunStatus.maxOps : RunStatus → Nat
  | .initializing => 0
  | .active => 1
  | _ => 2

structure RunRecord.WellMade (tenant : TenantId) (run : RunId) (r : RunRecord) : Prop where
  invariant : r.Invariant
  tenant_eq : r.tenant = tenant
  run_eq : r.run = run
  maxOps : r.opLog.length ≤ r.status.maxOps

theorem RunRecord.WellMade.opLog_eq (h : r.WellMade tenant run) (hm : RunMove r r') :
    ∃ entry, r'.opLog = r.opLog ++ [entry] := by
  obtain ⟨entry, he⟩ := hm.log
  refine ⟨entry, he.trans (if_pos (h.maxOps.trans_lt ?_))⟩
  cases r.status <;> decide

theorem RunRecord.WellMade.move (h : r.WellMade tenant run) (hm : RunMove r r') :
    r'.WellMade tenant run := by
  refine ⟨hm.invariant, hm.same.1.trans h.tenant_eq, hm.same.2.1.trans h.run_eq, ?_⟩
  obtain ⟨entry, he⟩ := h.opLog_eq hm
  have hl := h.maxOps
  rw [he, length_append, length_singleton]
  rcases hm.forward with ⟨hi, ha⟩ | ⟨hr, ht, -⟩
  · simp only [hi, ha, RunStatus.maxOps] at hl ⊢
    omega
  · cases hs : r.status <;> cases hs' : r'.status <;>
      simp only [hs, hs', RunStatus.maxOps, RunStatus.isTerminal, reduceCtorEq] at hl hr ht ⊢ <;>
      omega

theorem Reachable.run_wellMade (hs : Reachable env s)
    (hg : s.view.runs.lookup (tenant, run) = some r) : r.WellMade tenant run := by
  obtain ⟨trace, ht⟩ := hs.exists_trace
  refine View.Trace.invariant (P := fun t => ∀ tenant run r,
    t.runs.lookup (tenant, run) = some r → r.WellMade tenant run) (fun _ _ _ _ hn => by cases hn)
    (fun t label t' ha he tenant run r' hg => ?_) ht.view tenant run r hg
  rcases he.runMove hg with ⟨-, config, now, rfl, hinv⟩ | ⟨r, hr, rfl | hm⟩
  · exact ⟨hinv, rfl, rfl, le_rfl⟩
  · exact ha _ _ _ hr
  · exact (ha _ _ _ hr).move hm

/-- A run keeps its identity and its operations, its roots once it has them, and everything once it
has ended. -/
structure RunKept (r r' : RunRecord) : Prop where
  same : r'.tenant = r.tenant ∧ r'.run = r.run ∧ r'.config = r.config ∧ r'.createdAt = r.createdAt
  log : r.opLog <+: r'.opLog
  started : r.status ≠ .initializing → r'.status ≠ .initializing ∧ r'.rootShards = r.rootShards
  ended : r.status.isTerminal = true → r' = r

theorem RunKept.refl (r : RunRecord) : RunKept r r :=
  ⟨⟨rfl, rfl, rfl, rfl⟩, prefix_refl _, fun h => ⟨h, rfl⟩, fun _ => rfl⟩

theorem RunKept.trans {a b c : RunRecord} (hab : RunKept a b) (hbc : RunKept b c) :
    RunKept a c where
  same := by simp [hab.same, hbc.same]
  log := hab.log.trans hbc.log
  started h :=
    have ⟨hb, hr⟩ := hab.started h
    have ⟨hc, hr'⟩ := hbc.started hb
    ⟨hc, hr'.trans hr⟩
  ended h := by
    obtain rfl := hab.ended h
    exact hbc.ended h

theorem RunRecord.WellMade.kept (h : r.WellMade tenant run) (hm : RunMove r r') : RunKept r r' := by
  obtain ⟨entry, he⟩ := h.opLog_eq hm
  refine ⟨hm.same, he ▸ prefix_append _ _, fun hs => ?_, fun ht => ?_⟩
  · rcases hm.forward with ⟨hi, -⟩ | ⟨-, ht, hr⟩
    · exact absurd hi hs
    · exact ⟨fun hn => by simp [hn, RunStatus.isTerminal] at ht, hr⟩
  · rcases hm.forward with ⟨hi, -⟩ | ⟨hr, -⟩
    · simp [hi, RunStatus.isTerminal] at ht
    · simp [hr] at ht

theorem View.Effect.runKept (h : Effect env t label t') (hw : r.WellMade tenant run)
    (hg : t.runs.lookup (tenant, run) = some r) :
    ∃ r', t'.runs.lookup (tenant, run) = some r' ∧ r'.WellMade tenant run ∧ RunKept r r' := by
  obtain ⟨r', hg', -⟩ := h.run_successor hg
  refine ⟨r', hg', ?_⟩
  rcases h.runMove hg' with ⟨hn, -⟩ | ⟨r₀, hr, hm⟩
  · simp [hg] at hn
  obtain rfl : r = r₀ := Option.some.inj (hg.symm.trans hr)
  rcases hm with rfl | hm
  · exact ⟨hw, .refl _⟩
  · exact ⟨hw.move hm, hw.kept hm⟩

theorem execute_runKept (hs : Reachable env s) (hru : execute env calls s = .ok (responses, s'))
    (hg : s.tables.runs.lookup (tenant, run) = some r) :
    ∃ r', s'.tables.runs.lookup (tenant, run) = some r' ∧ RunKept r r' := by
  refine execute_view (R := fun t t' => ∀ r, t.runs.lookup (tenant, run) = some r →
    ∃ r', t'.runs.lookup (tenant, run) = some r' ∧ RunKept r r') (P := fun _ => True)
    (fun _ r hg => ⟨r, hg, .refl r⟩) (fun hab hbc r hg => ?_)
    (fun {s call response s'} _ hs hst r hg => ?_) hs hru (fun _ _ => trivial) r hg
  · obtain ⟨r₁, hg₁, h₁⟩ := hab r hg
    obtain ⟨r₂, hg₂, h₂⟩ := hbc r₁ hg₁
    exact ⟨r₂, hg₂, h₁.trans h₂⟩
  obtain ⟨t₁, ho, he⟩ := View.Steps.effect (step_ok hs.coherent hst).2.2
  have h₁ : ∃ r₁, t₁.runs.lookup (tenant, run) = some r₁ ∧ r₁.WellMade tenant run ∧
      RunKept r r₁ := by
    rcases ho with rfl | ⟨_, _, _, _, _, _, rfl, hc⟩
    · exact ⟨r, hg, hs.run_wellMade hg, .refl r⟩
    · exact hc.runKept (hs.run_wellMade hg) hg
  obtain ⟨r₁, hg₁, hw₁, hk₁⟩ := h₁
  obtain ⟨r', hg', -, hk⟩ := he.runKept hw₁ hg₁
  exact ⟨r', hg', hk₁.trans hk⟩

/-- **The life of a run.** It passes its checks, logs no operation that is evicted later, and is
frozen once it has ended. -/
theorem run_lifecycle (hs : Reachable env s)
    (hg : s.tables.runs.lookup (tenant, run) = some r) :
    r.WellMade tenant run ∧ ∀ calls responses s', execute env calls s = .ok (responses, s') →
      ∃ r', s'.tables.runs.lookup (tenant, run) = some r' ∧ RunKept r r' :=
  ⟨hs.run_wellMade hg, fun _ _ _ hru => execute_runKept hs hru hg⟩

namespace Demo

theorem eight_ne_nil : ([8] : Bytes) ≠ [] := cons_ne_nil _ _

/-- The leased shard is completed, then its run, and a cancellation comes too late. -/
def finishing : List Call :=
  [.complete 3 Demo.tenant rootLease (.new [8] eight_ne_nil) ⟨5⟩,
    .completeRun 4 Demo.tenant Demo.run ⟨6⟩, .cancelRun 5 Demo.tenant Demo.run ⟨7⟩]

def runStatus (s : Coordinator) : Option RunStatus :=
  (s.tables.runs.lookup (Demo.tenant, Demo.run)).map RunRecord.status

theorem runStatus_eq_some {status : RunStatus} (h : runStatus s = some status) :
    ∃ r, s.tables.runs.lookup (Demo.tenant, Demo.run) = some r ∧ r.status = status :=
  Option.map_eq_some_iff.mp h

end Demo

/-- A run through its registration and its completion. -/
theorem run_lifecycle_completed : ∃ s r s' r', Reachable Demo.env s ∧
    s.tables.runs.lookup (Demo.tenant, Demo.run) = some r ∧ r.status = .active ∧
    r.WellMade Demo.tenant Demo.run ∧
    (∃ responses, execute Demo.env Demo.finishing s = .ok (responses, s')) ∧
    s'.tables.runs.lookup (Demo.tenant, Demo.run) = some r' ∧ r'.status = .done ∧
    r'.WellMade Demo.tenant Demo.run ∧ RunKept r r' := by
  have hrun : (execute Demo.env Demo.leased Demo.fresh).okAnd (fun r =>
      decide (Demo.runStatus r.2 = some .active) &&
        (execute Demo.env Demo.finishing r.2).okAnd fun r' =>
          decide (Demo.runStatus r'.2 = some .done)) = true := by decide +kernel
  obtain ⟨⟨_, s⟩, hleased, hrun⟩ := exists_of_okAnd hrun
  obtain ⟨hactive, hrun⟩ := Bool.and_eq_true_iff.mp hrun
  obtain ⟨⟨responses, s'⟩, hfinishing, hdone⟩ := exists_of_okAnd hrun
  obtain ⟨r, hget, hstatus⟩ := Demo.runStatus_eq_some (of_decide_eq_true hactive)
  obtain ⟨r₁, hget₁, hstatus₁⟩ := Demo.runStatus_eq_some (of_decide_eq_true hdone)
  have hreach : Reachable Demo.env s := Demo.reachable_fresh.execute hleased
  obtain ⟨hmade, hlater⟩ := run_lifecycle hreach hget
  obtain ⟨r', hget', hkept⟩ := hlater _ _ _ hfinishing
  obtain rfl : r₁ = r' := Option.some.inj (hget₁.symm.trans hget')
  exact ⟨s, r, s', r₁, hreach, hget, hstatus, hmade, ⟨responses, hfinishing⟩, hget₁, hstatus₁,
    (run_lifecycle (hreach.execute hfinishing) hget₁).1, hkept⟩

/-! ## The slab -/

/-- **The slab is not seen.** A history of the slab-backed coordinator is one of the coordinator
with plain records, each stored record reads as its plain one, and a call aborts only where the
plain one does or where a slab too large for its free list runs out of metadata. -/
theorem slab_transparent {trace : List (Call × Response)} (h : Trace env trace s) :
    View.Trace env trace s.view ∧
    (pooledView s.slab).AgreesOn (pooledReader env.debug s.slab) viewReader s.tables ∧
    ∀ call p, step env call s = .panic p → View.step env call s.view = .panic p ∨
      call.Fresh env s.view ∧ MetadataExhausted s.slab p := by
  have hc := h.reachable.coherent
  refine ⟨h.view, hc.agreesOn, fun call p hp => ?_⟩
  have hre := step_refines hc call
  unfold StepRefines at hre
  rwa [hp] at hre

/-- A run whose shard was split off: the records hold their keys in the slab. -/
theorem slab_transparent_halved : ∃ responses s,
    execute Demo.nextEnv Demo.halved Demo.fresh = .ok (responses, s) ∧ s.slab.liveCount = 5 ∧
    View.Trace Demo.nextEnv (Demo.halved.zip responses) s.view ∧
    (pooledView s.slab).AgreesOn (pooledReader Demo.nextEnv.debug s.slab) viewReader
      s.tables := by
  have hrun : (execute Demo.nextEnv Demo.halved Demo.fresh).okAnd (fun r =>
      decide (r.2.slab.liveCount = 5)) = true := by decide +kernel
  obtain ⟨⟨responses, s⟩, h, hlive⟩ := exists_of_okAnd hrun
  obtain ⟨htrace, hagree, -⟩ := slab_transparent (trace_execute (.init Demo.fresh_nextEnv) h)
  exact ⟨responses, s, h, of_decide_eq_true hlive, htrace, hagree⟩

/-- **The slab does not leak.** After any calls, failed ones included, the slots of the stored
records and the free blocks cover what was carved out, each byte once, and the counters agree. -/
theorem slab_exact (hs : Reachable env s) :
    Tiles (s.tables.held.map ByteSlot.span + (s.slab.freeList : Multiset Block).map Block.span)
      s.slab.bump ∧
    s.slab.liveCount = s.tables.held.card ∧
    s.slab.liveBytes = (s.tables.held.map ByteSlot.allocSize).sum ∧
    s.slab.freeBytes = (s.slab.freeList.map Block.size).sum := by
  have h := hs.coherent.owns
  exact ⟨by simpa using h.tiles, h.liveCount_eq.symm, h.liveBytes_eq.symm, h.freeBytes_eq.symm⟩

theorem slab_exact_leased : ∃ responses s,
    execute Demo.env Demo.leased Demo.fresh = .ok (responses, s) ∧ s.tables.held.card = 2 := by
  have hrun : (execute Demo.env Demo.leased Demo.fresh).okAnd (fun r =>
      decide (r.2.slab.liveCount = 2)) = true := by decide +kernel
  obtain ⟨⟨responses, s⟩, h, hlive⟩ := exists_of_okAnd hrun
  have hcount := (slab_exact (Demo.reachable_fresh.execute h)).2.1
  exact ⟨responses, s, h, hcount.symm.trans (of_decide_eq_true hlive)⟩

/-! ## Registration -/

theorem step_of_view (hs : Reachable env s) (hv : View.step env call s.view = .ok (response, t))
    (hf : ¬ call.Fresh env s.view) : ∃ s', step env call s = .ok (response, s') ∧ s'.view = t := by
  have hre := step_refines hs.coherent call
  unfold StepRefines at hre
  cases hst : step env call s with
  | ok result =>
    rw [hst] at hre
    obtain ⟨-, -, hsa | ⟨hfr, -⟩⟩ := hre
    · cases hv.symm.trans hsa
      exact ⟨_, rfl, rfl⟩
    · exact absurd hfr hf
  | err e =>
    rw [hst] at hre
    exact hre.elim
  | panic p =>
    rw [hst] at hre
    rcases hre with hpa | ⟨hfr, -⟩
    · cases hv.symm.trans hpa
    · exact absurd hfr hf

theorem RunRecord.WellMade.opLogLookup (h : r.WellMade tenant run) (he : entry ∈ r.opLog) :
    r.opLogLookup entry.opId = some entry := by
  have hn := h.invariant.opLog_nodup
  cases hl : r.opLogLookup entry.opId with
  | none => simpa using find?_eq_none.mp hl entry (mem_reverse.mpr he)
  | some e =>
    obtain ⟨hm, ho⟩ := lookupLast_eq_some hl
    rw [inj_on_of_nodup_map hn hm he ho]

/-- The run has registered this manifest under this op id. -/
def RunRecord.Registered (env : Env) (shards : List InitialShardInput) (opId : OpId)
    (r : RunRecord) : Prop :=
  ∃ entry ∈ r.opLog, entry.opId = opId ∧ entry.kind = .registerShards ∧
    entry.result = .registeredShards (shards.map InitialShardInput.shard) ∧
    (Payload.ofManifest shards).HashIs env entry.payloadHash

theorem step_registered (hs : Reachable env s)
    (hst : step env (.registerShards now tenant run shards opId) s =
      .ok (.registerShards (.ok (.executed ids)), s')) :
    ids = shards.map InitialShardInput.shard ∧
      ∃ r, s'.tables.runs.lookup (tenant, run) = some r ∧ r.Registered env shards opId := by
  rcases (step_ok hs.coherent hst).2.2 with hv | ⟨-, hx, -⟩
  · rcases View.respond_op_eq_ok hv with ⟨a, ha, he⟩ | ⟨e, -, he, -⟩
    · cases he
      have ⟨hids, heff⟩ : _ ∧ View.Effect env _ _ _ := View.registerShards_effect ha
      cases hids
      refine ⟨rfl, ?_⟩
      have hruns : s'.view.runs = s'.tables.runs := rfl
      rw [← hruns]
      generalize s'.view = t' at heff
      cases heff with
      | @registered _ _ _ _ _ _ r' _ _ _ _ _ _ _ hlog =>
        obtain ⟨entry, ho, hk, hr, -, hh, rfl⟩ := hlog.entry
        refine ⟨_, Finmap.lookup_insert _, entry, ?_, ho, hk, hr, hh⟩
        simp only [RunRecord.withEntry, pushOverwrite]
        split_ifs <;> simp
    · cases he
  · cases hx

/-- **A registration is executed once.** However much happens in between, it is answered from the
op log when it is sent again. -/
theorem registration_once (hs : Reachable env s)
    (hst : step env (.registerShards now tenant run shards opId) s =
      .ok (.registerShards (.ok (.executed ids)), s₁))
    (hru : execute env calls s₁ = .ok (responses, s₂)) (now' : LogicalTime) :
    ∃ s', step env (.registerShards now' tenant run shards opId) s₂ =
        .ok (.registerShards (.ok (.replayed ids)), s') ∧ s'.view = s₂.view := by
  obtain ⟨rfl, r₁, hg₁, entry, hm, rfl, hk, hr, hh⟩ := step_registered hs hst
  have hs₁ := hs.step hst
  obtain ⟨r, hg, hkept⟩ := execute_runKept hs₁ hru hg₁
  have hs₂ := hs₁.execute hru
  have hw := hs₂.run_wellMade hg
  have hl := hw.opLogLookup (hkept.log.subset hm)
  have hp : registerShardsPrelude env tenant run shards entry.opId s₂.view =
      .ok (.inl (shards.map InitialShardInput.shard)) := by
    have hg' : s₂.view.runs.lookup (tenant, run) = some r := hg
    have hc := runCheckOpIdempotency_eq_ok.mpr ⟨entry.payloadHash_ne, hl, by simp⟩
    simp [registerShardsPrelude, Payload.hash_eq_ok.mpr hh, hg', hw.tenant_eq, hc, hk, hr]
  refine step_of_view hs₂ ?_ ?_
  · simp [View.step, Prog.respond, View.op, View.registerShards, hp]
  · rintro ⟨found, hf⟩
    cases hp.symm.trans hf

/-- A registration sent again after its run has been completed. -/
theorem registration_once_twice : ∃ s s', Demo.runStatus s = some .done ∧
    step Demo.env (.registerShards 6 Demo.tenant Demo.run [Demo.root] ⟨1⟩) s =
      .ok (.registerShards (.ok (.replayed [⟨3⟩])), s') ∧ s'.view = s.view := by
  have hrun : (execute Demo.env [.createRun 1 Demo.tenant Demo.run Demo.runConfig] Demo.fresh).okAnd
      (fun r => (step Demo.env (.registerShards 1 Demo.tenant Demo.run [Demo.root] ⟨1⟩) r.2).okAnd
        fun r₁ => decide (r₁.1 = .registerShards (.ok (.executed [⟨3⟩]))) &&
          (execute Demo.env (.acquire 2 Demo.tenant Demo.rootKey Demo.worker :: Demo.finishing)
            r₁.2).okAnd fun r₂ => decide (Demo.runStatus r₂.2 = some .done)) = true := by
    decide +kernel
  obtain ⟨⟨_, s⟩, h, hrun⟩ := exists_of_okAnd hrun
  obtain ⟨⟨_, s₁⟩, h₁, hrun⟩ := exists_of_okAnd hrun
  obtain ⟨hresponse, hrun⟩ := Bool.and_eq_true_iff.mp hrun
  obtain ⟨⟨_, s₂⟩, h₂, hdone⟩ := exists_of_okAnd hrun
  cases of_decide_eq_true hresponse
  obtain ⟨s', hagain, hview⟩ := registration_once (Demo.reachable_fresh.execute h) h₁ h₂ 6
  exact ⟨s₂, s', of_decide_eq_true hdone, hagain, hview⟩

/-! ## Leases -/

/-- What leaves a lease alone: a grant before its deadline, and a renewal or an end of the shard
under any other lease. -/
def ShardEvent.Spares (holder : LeaseHolder) (fence : FenceEpoch) : ShardEvent → Prop
  | .granted now _ _ => now < holder.deadline
  | .renewed _ lease | .completed _ lease _ _ | .parked _ lease _ _ | .splitReplaced _ lease _ _ =>
    ¬ (lease.owner = holder.owner ∧ lease.fence = fence)
  | .checkpointed .. | .splitResidual .. | .unparked .. => True

variable {key : ShardKey} {holder : LeaseHolder} {fence : FenceEpoch}

/-- The shard is leased to this holder under this fence. -/
structure ShardRecord.HeldBy (holder : LeaseHolder) (fence : FenceEpoch) (r : RecordView) :
    Prop where
  invariant : r.Invariant
  lease_eq : r.lease = some holder
  fence_eq : r.fenceEpoch = fence

theorem LeaseValid.heldBy {r : RecordView} (h : LeaseValid now tenant lease r)
    (hr : r.HeldBy holder fence) : lease.owner = holder.owner ∧ lease.fence = fence := by
  obtain ⟨holder', hl, -, ho⟩ := h.held
  cases hl.symm.trans hr.lease_eq
  exact ⟨ho.symm, h.fence_eq.trans hr.fence_eq⟩

theorem RecordStep.heldBy {r r' : RecordView} (h : RecordStep env tenant key r event r')
    (he : event.Spares holder fence) (hr : r.HeldBy holder fence) : r'.HeldBy holder fence := by
  have hi := h.invariant hr.invariant
  cases h with
  | granted _ _ _ hfree => exact absurd he (hfree holder hr.lease_eq)
  | renewed _ hv | completed hv | parked hv => exact absurd (hv.heldBy hr) he
  | splitReplaced hs => exact absurd (hs.lease.heldBy hr) he
  | checkpointed _ _ hlog | splitResidual _ _ hlog =>
    obtain ⟨entry, rfl⟩ := hlog.eq
    exact ⟨hi, hr.lease_eq, hr.fence_eq⟩
  | unparked _ hp =>
    -- a parked shard has no lease
    have hn := hr.invariant.terminal_unleased (by rw [hp]; rfl)
    simp [hr.lease_eq] at hn

/-- **A lease is safe until its deadline.** Whatever the others call, only the holder under the
fence of the lease can change it or end it. -/
theorem lease_kept (hs : Reachable env s) {r : RecordView}
    (hg : s.view.getShard tenant key = some r) (hl : r.lease = some holder)
    (hru : execute env calls s = .ok (responses, s'))
    (hsp : ∀ e ∈ calls.zip responses, ∀ event, e.1.label e.2 = .shard tenant key event →
      event.Spares holder r.fenceEpoch) :
    ∃ r', s'.view.getShard tenant key = some r' ∧ r'.lease = some holder ∧
      r'.fenceEpoch = r.fenceEpoch := by
  obtain ⟨_, ht⟩ := hs.exists_trace
  obtain ⟨r', hg', hr'⟩ := execute_allowed (P := ShardEvent.Spares holder r.fenceEpoch)
    (R := fun r₁ r₂ => r₁.HeldBy holder r.fenceEpoch → r₂.HeldBy holder r.fenceEpoch)
    (fun _ h => h) (fun hab hbc h => hbc (hab h)) (fun he h => h.heldBy he) hs hru hsp hg
  have hr := hr' ⟨(ht.view.wellMade hg).invariant, hl, rfl⟩
  exact ⟨r', hg', hr.lease_eq, hr.fence_eq⟩

/-- Another worker asks for the leased shard before the deadline. -/
theorem lease_kept_contended : ∃ responses s s' r',
    execute Demo.env Demo.leased Demo.fresh = .ok (responses, s) ∧
    (∃ response, execute Demo.env [.acquire 11 Demo.tenant Demo.rootKey ⟨6⟩] s =
      .ok (response, s')) ∧
    s'.view.getShard Demo.tenant Demo.rootKey = some r' ∧
    r'.lease = some ⟨Demo.worker, 12, Demo.twelve_pos⟩ := by
  have hrun : (execute Demo.env Demo.leased Demo.fresh).okAnd (fun r =>
      decide ((r.2.view.getShard Demo.tenant Demo.rootKey).map (fun r => r.lease) =
        some (some ⟨Demo.worker, 12, Demo.twelve_pos⟩)) &&
      (execute Demo.env [.acquire 11 Demo.tenant Demo.rootKey ⟨6⟩] r.2).okAnd fun _ => true) =
    true := by decide +kernel
  obtain ⟨⟨responses, s⟩, h, hrun⟩ := exists_of_okAnd hrun
  rw [Bool.and_eq_true, decide_eq_true_eq, Option.map_eq_some_iff] at hrun
  obtain ⟨⟨r, hg, hl⟩, hrun⟩ := hrun
  obtain ⟨⟨response, s'⟩, h', -⟩ := exists_of_okAnd hrun
  have hsp : ∀ e ∈ [Call.acquire 11 Demo.tenant Demo.rootKey ⟨6⟩].zip response, ∀ event,
      e.1.label e.2 = .shard Demo.tenant Demo.rootKey event →
      event.Spares ⟨Demo.worker, 12, Demo.twelve_pos⟩ r.fenceEpoch := by
    rintro ⟨call, answer⟩ he event hlabel
    cases mem_singleton.mp (of_mem_zip he).1
    unfold Call.label at hlabel
    split at hlabel <;> grind [ShardEvent.Spares]
  obtain ⟨r', hg', hl', -⟩ := lease_kept (Demo.reachable_fresh.execute h) hg hl h' hsp
  exact ⟨responses, s, s', r', h, ⟨response, h'⟩, hg', hl'⟩

end GossipRs
