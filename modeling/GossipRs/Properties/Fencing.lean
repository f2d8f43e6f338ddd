import GossipRs.Properties.Histories

/-! Fencing. Whoever changes a shard presents the worker and the fence of its last acquire, and
nothing has taken the lease away since. -/

namespace GossipRs

open Lib Stdx

variable {env : Env} {s s' : Coordinator}

def ShardEvent.lease : ShardEvent → Option Lease
  | .granted .. | .unparked .. => none
  | .renewed _ lease => some lease
  | .checkpointed _ lease _ _ => some lease
  | .completed _ lease _ _ => some lease
  | .parked _ lease _ _ => some lease
  | .splitReplaced _ lease _ _ => some lease
  | .splitResidual _ lease _ _ => some lease

/-- The change takes away every earlier lease: an acquire, an unpark, or a change to a terminal
status. -/
def ShardEvent.revokes : ShardEvent → Bool
  | .granted .. | .unparked .. | .completed .. | .parked .. | .splitReplaced .. => true
  | .renewed .. | .checkpointed .. | .splitResidual .. => false

def ShardEvent.raisesFence : ShardEvent → Bool
  | .granted .. | .unparked .. => true
  | _ => false

def HandsOut (tenant : TenantId) (key : ShardKey) (lease : Lease) (e : Call × Response) : Prop :=
  lease.tenant = tenant ∧ lease.shardKey = key ∧ ∃ result : AcquireResult, result.lease = lease ∧
    ((∃ now, e = (.acquire now tenant key lease.owner, .acquire (.ok result))) ∨
      ∃ now, e = (.claimNextAvailable now tenant key.run lease.owner,
        .claimNextAvailable (.ok result)))

def LastGranted (trace : List (Call × Response)) (tenant : TenantId) (key : ShardKey)
    (worker : WorkerId) (fence : FenceEpoch) : Prop :=
  ∃ earlier grant later, trace = earlier ++ grant :: later ∧
    (∃ lease, HandsOut tenant key lease grant ∧ lease.owner = worker ∧ lease.fence = fence) ∧
    ∀ e ∈ later, ∀ event, e.1.label e.2 = .shard tenant key event → event.revokes = false

variable {tenant : TenantId} {key : ShardKey}

theorem LastGranted.append (h : LastGranted trace tenant key worker fence)
    (he : ∀ event, e.1.label e.2 = .shard tenant key event → event.revokes = false) :
    LastGranted (trace ++ [e]) tenant key worker fence := by
  obtain ⟨earlier, grant, later, rfl, hg, hl⟩ := h
  refine ⟨earlier, grant, later ++ [e], by simp, hg, fun e' he' => ?_⟩
  rcases List.mem_append.mp he' with hm | hm
  · exact hl e' hm
  · rw [List.mem_singleton.mp hm]
    exact he

theorem View.Steps.handsOut (h : View.Steps env t call response t')
    (hl : call.label response = .shard tenant key (.granted now worker fence)) :
    ∃ lease, HandsOut tenant key lease (call, response) ∧ lease.owner = worker ∧
      lease.fence = fence := by
  have he : response.isExhausted ≠ true := by
    intro hf
    rw [View.label_of_isExhausted hf] at hl
    cases hl
  have hs := h.resolve_right fun hf => he hf.2.1
  unfold Call.label at hl
  split at hl
  next now' tenant' key' worker' result =>
    cases hl
    rcases View.respond_op_eq_ok hs with ⟨result', hg, heq⟩ | ⟨e, -, heq, -⟩
    · cases heq
      obtain ⟨r, r', -, hgr, -, -⟩ := acquire_eq_ok hg
      obtain ⟨-, -, -, -, ht, hk, ho, -⟩ := grantLease_eq_ok hgr
      exact ⟨result.lease, ⟨ht, hk, result, rfl, .inl ⟨now, by rw [ho]⟩⟩, ho, rfl⟩
    · cases heq
  next now' tenant' run worker' result =>
    cases hl
    rcases View.respond_op_eq_ok hs with ⟨result', hg, heq⟩ | ⟨e, -, heq, -⟩
    · cases heq
      obtain ⟨_, _, _, ha, -⟩ := claimNextAvailable_eq_ok hg
      obtain ⟨r, r', -, hgr, -, -⟩ := acquire_eq_ok ha
      obtain ⟨-, -, -, -, ht, hk, ho, -⟩ := grantLease_eq_ok hgr
      have hr : result.lease.shardKey.run = run := by rw [hk]
      exact ⟨result.lease, ⟨ht, rfl, result, rfl, .inr ⟨now, by rw [ho, hr]⟩⟩, ho, rfl⟩
    · cases heq
  all_goals cases hl

variable {r : RecordView}

/-- **Whoever holds a shard was granted it last**, under the fence it now has. -/
theorem View.Trace.lastGranted (h : View.Trace env trace t) (hg : t.getShard tenant key = some r)
    (hl : r.lease = some ho) : LastGranted trace tenant key ho.owner r.fenceEpoch := by
  induction h generalizing r ho with
  | init config => cases hg
  | @step trace t t' call response ht hs ih =>
    obtain ⟨_, hop, hef⟩ := Steps.effect hs
    generalize hla : call.label response = label at hef
    cases hef.origin hg with
    | kept hbefore hot =>
      rw [hop.getShard tenant key] at hbefore
      exact (ih hbefore hl).append fun event hev =>
        absurd (hla.symm.trans hev) (hot event)
    | root | child => cases hl
    | @stepped event r0 _ hbefore hre =>
      rw [hop.getShard tenant key] at hbefore
      -- Changes that keep the holder and do not revoke its lease.
      have keep : ∀ ho0, r0.lease = some ho0 → ho0.owner = ho.owner →
          r.fenceEpoch = r0.fenceEpoch → event.revokes = false →
          LastGranted (trace ++ [(call, response)]) tenant key ho.owner r.fenceEpoch := by
        intro ho0 hh how hf hr
        rw [hf, ← how]
        refine (ih hbefore hh).append fun event' hev => ?_
        cases hla.symm.trans hev
        exact hr
      cases hre with
      | granted hd htenant hactive hfree hf =>
        cases hl
        exact ⟨trace, (call, response), [], rfl, hs.handsOut hla,
          fun e he => absurd he List.not_mem_nil⟩
      | renewed hd hvalid =>
        cases hl
        obtain ⟨ho0, hh, -, how⟩ := hvalid.held
        exact keep ho0 hh how rfl rfl
      | checkpointed hvalid hcursor hlog | splitResidual hready hscan hlog =>
        obtain ⟨entry, rfl⟩ := hlog.eq
        exact keep ho hl rfl rfl rfl
      | completed _ _ hlog | parked _ hlog | unparked _ _ _ hlog | splitReplaced _ hlog =>
        obtain ⟨entry, rfl⟩ := hlog.eq
        cases hl

variable {event : ShardEvent}

theorem RecordStep.leaseValid (h : RecordStep env tenant key r event r')
    (hl : event.lease = some lease) : ∃ now, LeaseValid now tenant lease r := by
  cases h with
  | granted | unparked => cases hl
  | renewed _ hv | checkpointed hv _ _ | completed hv _ _ | parked hv _ =>
    cases hl
    exact ⟨_, hv⟩
  | splitReplaced hr _ | splitResidual hr _ _ =>
    cases hl
    exact ⟨_, hr.lease⟩

theorem RecordStep.fence (h : RecordStep env tenant key r event r') :
    if event.raisesFence then r.fenceEpoch < r'.fenceEpoch else r'.fenceEpoch = r.fenceEpoch := by
  cases h with
  | granted hd htenant hactive hfree hfence => exact UInt64_lt_succ hfence
  | renewed => rfl
  | unparked htenant hparked hfence hlog =>
    obtain ⟨entry, rfl⟩ := hlog.eq
    exact UInt64_lt_succ hfence
  | checkpointed _ _ hlog | completed _ _ hlog | parked _ hlog | splitReplaced _ hlog
  | splitResidual _ _ hlog =>
    obtain ⟨entry, rfl⟩ := hlog.eq
    rfl

theorem RecordStep.fence_le (h : RecordStep env tenant key r event r') :
    r.fenceEpoch ≤ r'.fenceEpoch := by
  have hf := h.fence
  split at hf
  · exact UInt64.le_of_lt hf
  · exact UInt64.le_of_eq hf.symm

def Coordinator.fenceOf (s : Coordinator) (tenant : TenantId) (key : ShardKey) :
    Option FenceEpoch :=
  (s.tables.getShard tenant key).map ShardRecord.fenceEpoch

theorem fenceOf_eq :
    s.fenceOf tenant key = (s.view.getShard tenant key).map ShardRecord.fenceEpoch := by
  unfold Coordinator.fenceOf Coordinator.view
  rw [Tables.getShard_mapRecords, Option.map_map]
  rfl

def Uses (tenant : TenantId) (key : ShardKey) (lease : Lease) (e : Call × Response) : Prop :=
  ∃ event, e.1.label e.2 = .shard tenant key event ∧ event.lease = some lease

def Refences (tenant : TenantId) (key : ShardKey) (e : Call × Response) : Prop :=
  ∃ event, e.1.label e.2 = .shard tenant key event ∧ event.raisesFence = true

/-- **Fencing.** A lease that a call uses is the one granted last, fences never fall and rise with
every grant and unparking, and in one state no two different leases are usable. -/
theorem fencing {trace : List (Call × Response)} (h : Trace env trace s) :
    (∀ before e after, trace = before ++ e :: after → ∀ tenant key lease,
      Uses tenant key lease e → LastGranted before tenant key lease.owner lease.fence) ∧
    (∀ calls responses s', execute env calls s = .ok (responses, s') →
      ∀ tenant key fence, s.fenceOf tenant key = some fence →
        ∃ fence', s'.fenceOf tenant key = some fence' ∧ fence ≤ fence') ∧
    (∀ call response s', step env call s = .ok (response, s') →
      ∀ tenant key, Refences tenant key (call, response) →
        ∃ fence fence', s.fenceOf tenant key = some fence ∧
          s'.fenceOf tenant key = some fence' ∧ fence < fence') ∧
    (∀ call₁ response₁ s₁ call₂ response₂ s₂, step env call₁ s = .ok (response₁, s₁) →
      step env call₂ s = .ok (response₂, s₂) → ∀ tenant key lease₁ lease₂,
        Uses tenant key lease₁ (call₁, response₁) → Uses tenant key lease₂ (call₂, response₂) →
          lease₁.owner = lease₂.owner ∧ lease₁.fence = lease₂.fence) := by
  -- A used lease is the one in the record.
  have used : ∀ {s : Coordinator}, Reachable env s → ∀ {call response s'},
      step env call s = .ok (response, s') → ∀ {tenant key lease},
      Uses tenant key lease (call, response) → ∃ r holder, s.view.getShard tenant key = some r ∧
        r.lease = some holder ∧ holder.owner = lease.owner ∧ r.fenceEpoch = lease.fence := by
    intro s hs call response s' hstep tenant key lease huses
    obtain ⟨event, hlabel, hlease⟩ := huses
    obtain ⟨r, r', hget, -, hrecord⟩ := step_labelled hs hstep hlabel
    obtain ⟨_, hvalid⟩ := hrecord.leaseValid hlease
    obtain ⟨holder, hheld, -, howner⟩ := hvalid.held
    exact ⟨r, holder, hget, hheld, howner, hvalid.fence_eq.symm⟩
  refine ⟨?_, ?_, ?_, ?_⟩
  · intro before e after htrace tenant key lease huses
    rw [htrace] at h
    obtain ⟨_, s₁, hbefore, hstep⟩ := trace_split h
    obtain ⟨r, holder, hget, hheld, howner, hfence⟩ := used hbefore.reachable hstep huses
    have hgranted := hbefore.view.lastGranted hget hheld
    rw [howner, hfence] at hgranted
    exact hgranted
  · intro calls responses s' hrun tenant key fence hfence
    rw [fenceOf_eq] at hfence
    obtain ⟨r, hget, rfl⟩ := Option.map_eq_some_iff.mp hfence
    obtain ⟨r', hget', hle⟩ := execute_successor (R := fun r r' => r.fenceEpoch ≤ r'.fenceEpoch)
      (fun r => UInt64.le_refl _) (fun hab hbc => UInt64.le_trans hab hbc) tenant key
      RecordStep.fence_le h.reachable hrun hget
    exact ⟨r'.fenceEpoch, by rw [fenceOf_eq, hget']; rfl, hle⟩
  · intro call response s' hstep tenant key hrefences
    obtain ⟨event, hlabel, hraises⟩ := hrefences
    obtain ⟨r, r', hget, hget', hrecord⟩ := step_labelled h.reachable hstep hlabel
    have hlt := hrecord.fence
    rw [if_pos hraises] at hlt
    exact ⟨_, _, by rw [fenceOf_eq, hget]; rfl, by rw [fenceOf_eq, hget']; rfl, hlt⟩
  intro call₁ response₁ s₁ call₂ response₂ s₂ hstep₁ hstep₂ tenant key lease₁ lease₂ huses₁ huses₂
  obtain ⟨_, _, hget₁, hheld₁, howner₁, hfence₁⟩ := used h.reachable hstep₁ huses₁
  obtain ⟨_, _, hget₂, hheld₂, howner₂, hfence₂⟩ := used h.reachable hstep₂ huses₂
  rw [hget₁] at hget₂
  cases hget₂
  rw [hheld₁] at hheld₂
  cases hheld₂
  exact ⟨howner₁.symm.trans howner₂, hfence₁.symm.trans hfence₂⟩

namespace Demo

def renewed : List Response → Bool
  | [_, _, .renew (.ok _)] => true
  | _ => false

end Demo

theorem fencing_renewal : ∃ responses s,
    execute Demo.env (Demo.leased ++ [.renew 3 Demo.tenant Demo.rootLease]) Demo.fresh =
      .ok (responses, s) ∧ Demo.renewed responses = true ∧
      LastGranted (Demo.leased.zip responses) Demo.tenant Demo.rootKey Demo.worker 2 := by
  have hrun : (execute Demo.env (Demo.leased ++ [.renew 3 Demo.tenant Demo.rootLease])
      Demo.fresh).okAnd (fun r => Demo.renewed r.1) = true := by decide +kernel
  obtain ⟨⟨responses, s⟩, hrun, hrenewed⟩ := Outcome.exists_of_okAnd hrun
  refine ⟨responses, s, hrun, hrenewed, ?_⟩
  have htrace := trace_execute (.init Demo.fresh_eq) hrun
  unfold Demo.renewed at hrenewed
  split at hrenewed
  next first second result hresponses =>
    cases hresponses
    exact (fencing htrace).1 (Demo.leased.zip [first, second])
      (.renew 3 Demo.tenant Demo.rootLease, .renew (.ok result)) [] rfl Demo.tenant Demo.rootKey
      Demo.rootLease ⟨.renewed 3 Demo.rootLease, rfl, rfl⟩
  next => cases hrenewed

end GossipRs
