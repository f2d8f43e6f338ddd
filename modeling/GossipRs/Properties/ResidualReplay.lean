import GossipRs.Properties.Lineage

/-! A residual split happens at most once. The op log may forget it, but the id of the residual
stays in the spawned list of the parent, where the op id finds it again. -/

namespace GossipRs

open Lib Stdx Outcome List

variable {env : Env} {s s' : Coordinator} {tenant : TenantId} {key : ShardKey}

variable {id : ShardId}

theorem scanResidual_append (h : scanResidual env run parent op ids index = some id) :
    scanResidual env run parent op (ids ++ more) index = some id := by
  induction ids generalizing index with
  | nil => cases h
  | cons first rest ih =>
    rw [scanResidual] at h
    rw [cons_append, scanResidual]
    split at h
    · next hf => rw [if_pos hf, h]
    next hf =>
    rw [if_neg hf]
    exact ih h

theorem scanResidual_new (h : scanResidual env run parent op ids index = none) :
    scanResidual env run parent op
        (ids ++ [deriveSplitShardId env run parent op .residual (index + ids.length)]) index =
      some (deriveSplitShardId env run parent op .residual (index + ids.length)) := by
  induction ids generalizing index with
  | nil =>
    rw [nil_append, length_nil, Nat.add_zero, scanResidual]
    exact if_pos rfl
  | cons first rest ih =>
    rw [scanResidual] at h
    split at h
    · cases h
    next hf =>
    have hr := ih h
    rw [Nat.add_right_comm, Nat.add_assoc] at hr
    rw [cons_append, scanResidual]
    rw [if_neg hf]
    exact hr

def ShardEvent.opId : ShardEvent → Option OpId
  | .granted .. | .renewed .. => none
  | .checkpointed _ _ _ opId | .completed _ _ _ opId | .parked _ _ _ opId | .unparked _ opId
  | .splitReplaced _ _ _ opId | .splitResidual _ _ _ opId => some opId

/-- The record knows the residual of an operation: the scan finds it, and an op-log entry under the
op id is the operation's own. -/
structure RecordView.Remembers (env : Env) (opId : OpId) (plan : SplitResidualPlan) (id : ShardId)
    (r : RecordView) : Prop where
  scan : scanResidual env r.run r.shard opId r.spawned 0 = some id
  log : ∀ entry ∈ r.opLog, entry.opId = opId →
    (Payload.splitResidual plan).HashIs env entry.payloadHash

variable {opId : OpId} {r : RecordView}

theorem RecordView.Logs.keeps (h : RecordView.Logs env payload kind opId' r r') (hne : opId' ≠ opId)
    {P : UInt64 → Prop} (hl : ∀ entry ∈ r.opLog, entry.opId = opId → P entry.payloadHash) :
    ∀ entry ∈ r'.opLog, entry.opId = opId → P entry.payloadHash := by
  obtain ⟨_, hn, -, -, rfl⟩ := h.entry
  intro entry hm hop
  rcases mem_pushOverwrite hm with ho | rfl
  · exact hl entry ho hop
  · exact absurd (hn.symm.trans hop) hne

/-- The operation was not logged under this op id, unless as a residual split. -/
def ShardEvent.Reuses (opId : OpId) (event : ShardEvent) : Prop :=
  event.opId = some opId ∧ ∀ now lease plan, event ≠ .splitResidual now lease plan opId

variable {plan : SplitResidualPlan}

theorem RecordStep.remembers (h : RecordStep env tenant key r event r')
    (hr : r.Remembers env opId plan id) (hre : ¬ event.Reuses opId) :
    r'.Remembers env opId plan id := by
  have hs : scanResidual env r'.run r'.shard opId r'.spawned 0 = some id := by
    rw [h.lineage.run, h.lineage.shard, h.lineage.spawned]
    exact scanResidual_append hr.scan
  have other : ∀ {opId'}, event.opId = some opId' →
      (∀ now lease plan, event ≠ .splitResidual now lease plan opId) → opId' ≠ opId := by
    rintro opId' ho hk rfl
    exact hre ⟨ho, hk⟩
  refine ⟨hs, ?_⟩
  cases h with
  | granted | renewed => exact hr.log
  | checkpointed _ _ hlog | completed _ _ hlog | parked _ hlog | unparked _ _ _ hlog
  | splitReplaced _ hlog =>
    exact hlog.keeps (other rfl fun _ _ _ he => by cases he) hr.log
  | @splitResidual now lease plan' opId' _ hready hn hlog =>
    refine hlog.keeps (fun hsa => ?_) hr.log
    rw [hsa, hr.scan] at hn
    cases hn

theorem View.splitResidual_replays {hash} (now) {lease}
    (hg : t.getShard tenant lease.shardKey = some r) (hr : r.Remembers env opId plan id)
    (hinv : r.Invariant) (hh : (Payload.splitResidual plan).HashIs env hash) (hn : hash ≠ 0) :
    splitResidualPrelude env now tenant lease plan opId viewReader r = .ok (.inl id) ∧
      View.splitResidual env now tenant lease plan opId t = .ok (.replayed ⟨id⟩, t) := by
  have hf : ∀ {ε : Type}, (findReplayedResidual env r (viewReader.spawnedLen r.spawned)
      (viewReader.spawned r.spawned).widen opId : Run ε _) = .ok (some id) := by
    intro ε
    unfold findReplayedResidual
    have hle : viewReader.spawnedLen r.spawned ≤ maxSpawnedPerShard := hinv.spawned_le
    rw [assert_of_true hle]
    exact congrArg Outcome.ok hr.scan
  have hc : splitResidualCheckReplay env r (viewReader.spawnedLen r.spawned)
      (viewReader.spawned r.spawned).widen opId hash = .ok (some id) := by
    unfold splitResidualCheckReplay
    cases hl : r.opLogLookup opId with
    | none =>
      rw [checkOpIdempotency_eq_ok.mpr ⟨hn, hl, nofun⟩]
      exact hf
    | some entry =>
      obtain ⟨hm, ho⟩ := lookupLast_eq_some hl
      have hs : entry.payloadHash = hash := (hr.log entry hm ho).unique hh
      rw [checkOpIdempotency_eq_ok.mpr ⟨hn, hl, by simpa using hs⟩, ok_bind]
      simp only [hf, ok_bind]
      rfl
  have hp : splitResidualPrelude env now tenant lease plan opId viewReader r =
      .ok (.inl id) := by
    unfold splitResidualPrelude
    rw [Payload.hash_eq_ok.mpr hh, ok_bind, fromCoordError_eq_ok.mpr hc]
    rfl
  refine ⟨hp, ?_⟩
  unfold View.splitResidual
  simp only [hg, okOr_some, ok_bind, hp]
  rfl

theorem step_splitResidual_replays (hs : Reachable env s) {hash}
    (hg : s.view.getShard tenant lease.shardKey = some r) (hr : r.Remembers env opId plan id)
    (hinv : r.Invariant) (hh : (Payload.splitResidual plan).HashIs env hash) (hn : hash ≠ 0) :
    ∃ s', step env (.splitResidual now tenant lease plan opId) s =
        .ok (.splitResidual (.ok (.replayed ⟨id⟩)), s') ∧ s'.view = s.view := by
  obtain ⟨hpr, hrep⟩ := View.splitResidual_replays now hg hr hinv hh hn
  have hv : View.step env (.splitResidual now tenant lease plan opId) s.view =
      .ok (.splitResidual (.ok (.replayed ⟨id⟩)), s.view) := by
    simp [View.step, Prog.respond, View.op, hrep]
  have hsta : ¬ (Call.splitResidual now tenant lease plan opId).Fresh env s.view := by
    rintro ⟨_, _, hp, hf⟩
    rw [hg] at hp
    cases hp
    rw [hpr] at hf
    cases hf
  have hre := step_refines hs.coherent (.splitResidual now tenant lease plan opId)
  unfold StepRefines at hre
  cases hst : step env (.splitResidual now tenant lease plan opId) s with
  | ok result =>
    rw [hst] at hre
    obtain ⟨-, -, hste⟩ := hre
    rcases hste with hsa | ⟨hf, -⟩
    · rw [hv] at hsa
      have hpai := Outcome.ok.inj hsa
      refine ⟨result.2, ?_, (congrArg Prod.snd hpai).symm⟩
      have hres : result.1 = .splitResidual (.ok (.replayed ⟨id⟩)) :=
        (congrArg Prod.fst hpai).symm
      rw [← hres]
    · exact absurd hf hsta
  | err e =>
    rw [hst] at hre
    exact absurd hre not_false
  | panic p =>
    rw [hst] at hre
    rcases hre with hpa | ⟨hf, -⟩
    · rw [hv] at hpa
      cases hpa
    · exact absurd hf hsta

theorem step_splitResidual_remembers (hs : Reachable env s)
    (hst : step env (.splitResidual now tenant lease plan opId) s =
      .ok (.splitResidual (.ok (.executed ⟨id⟩)), s')) :
    (∃ hash, (Payload.splitResidual plan).HashIs env hash ∧ hash ≠ 0) ∧
      ∃ r, s'.view.getShard tenant lease.shardKey = some r ∧ r.Remembers env opId plan id := by
  obtain ⟨r, r', hge, hg', hr⟩ := step_labelled hs hst rfl
  have hid : id = deriveSplitShardId env r.run r.shard opId .residual r.spawned.length := by
    rcases (step_ok hs.coherent hst).2.2 with hv | ⟨-, hf, -⟩
    · rcases View.respond_op_eq_ok hv with ⟨_, hg, he⟩ | ⟨_, -, he, -⟩
      · cases he
        obtain ⟨_, hg1, hre, -⟩ := View.splitResidual_effect hg
        rw [hge] at hg1
        cases hg1
        exact hre
      · cases he
    · cases hf
  cases hr with
  | splitResidual hready hscan hlo =>
    obtain ⟨entry, _, -, hh, hr'⟩ := hlo.entry
    have hl := RecordStep.lineage (.splitResidual hready hscan hlo : RecordStep env tenant
      lease.shardKey r (.splitResidual now lease plan opId) r')
    refine ⟨⟨entry.payloadHash, hh, entry.payloadHash_ne⟩, r', hg', ?_, ?_⟩
    · rw [hl.run, hl.shard, hl.spawned, hid]
      have hn := scanResidual_new hscan
      rw [Nat.zero_add] at hn
      exact hn
    intro entry' hm ho'
    rw [hr'] at hm
    rcases mem_pushOverwrite hm with ho | rfl
    · exact absurd ho' (hlo.new entry' ho)
    · exact hh

/-- **A residual split is executed once.** It may be evicted from the op log, as long as no other
operation on the shard is executed under its op id. -/
theorem residual_split_once (hs : Reachable env s) {s₁ s₂ : Coordinator} {now : LogicalTime}
    {lease : Lease} {plan : SplitResidualPlan} {opId : OpId} {id : ShardId}
    (hsplit : step env (.splitResidual now tenant lease plan opId) s =
      .ok (.splitResidual (.ok (.executed ⟨id⟩)), s₁))
    {calls : List Call} {responses : List Response}
    (hrun : execute env calls s₁ = .ok (responses, s₂))
    (hreuse : ∀ e ∈ calls.zip responses, ∀ event,
      e.1.label e.2 = .shard tenant lease.shardKey event → ¬ event.Reuses opId)
    (now' : LogicalTime) {lease' : Lease} (hlease : lease'.shardKey = lease.shardKey) :
    ∃ s', step env (.splitResidual now' tenant lease' plan opId) s₂ =
        .ok (.splitResidual (.ok (.replayed ⟨id⟩)), s') ∧ s'.view = s₂.view := by
  obtain ⟨⟨_, hhash, hne⟩, _, hget₁, hr₁⟩ := step_splitResidual_remembers hs hsplit
  have hreach₁ := hs.step hsplit
  obtain ⟨_, hget₂, hkept⟩ := execute_allowed
    (R := fun r r' => r.Remembers env opId plan id → r'.Remembers env opId plan id)
    (fun _ h => h) (fun hab hbc h => hbc (hab h))
      (fun hevent hrecord h => hrecord.remembers h hevent)
    hreach₁ hrun hreuse hget₁
  have hreach₂ := hreach₁.execute hrun
  obtain ⟨_, htrace⟩ := hreach₂.exists_trace
  rw [← hlease] at hget₂
  exact step_splitResidual_replays hreach₂ hget₂ (hkept hr₁)
    (htrace.view.wellMade hget₂).invariant hhash hne

namespace Demo

def atTwo : CursorUpdate := CursorUpdate.new [2] (List.cons_ne_nil _ _)

/-- Sixteen checkpoints, enough to evict everything older from the op log. -/
def checkpoints : List Call :=
  (List.range 16).map fun i => .checkpoint 3 Demo.tenant rootLease atTwo ⟨UInt64.ofNat (100 + i)⟩

def splitAgain : Call := .splitResidual 3 Demo.tenant rootLease halves ⟨2⟩

/-- The op id of the split is used for a checkpoint once it has been evicted. -/
def reused : List Call :=
  halved ++ checkpoints ++ [.checkpoint 3 Demo.tenant rootLease atTwo ⟨2⟩, splitAgain]

def conflicting (responses : List Response) : Bool :=
  match responses[2]?, responses[19]?, responses[20]? with
  | some (Response.splitResidual (.ok (.executed _))),
    some (Response.shardOp (.ok (.executed _))), some (Response.splitResidual (.error _)) => true
  | _, _, _ => false

end Demo

/-- The lease is valid, the payload is the same, and the call is not a replay. -/
theorem residual_split_conflict :
    (execute Demo.nextEnv Demo.reused Demo.fresh).okAnd (fun r => Demo.conflicting r.1) = true := by
  decide +kernel

def Demo.residual : Response → Option ShardId
  | .splitResidual (.ok (.executed result)) => some result.residual
  | _ => none

theorem Demo.not_reuses_checkpoints :
    ∀ e ∈ Demo.checkpoints.zip responses, ∀ event,
      e.1.label e.2 = .shard Demo.tenant Demo.rootLease.shardKey event → ¬ event.Reuses ⟨2⟩ := by
  rintro ⟨_, _⟩ he event hl ⟨ho, -⟩
  obtain ⟨i, hi, rfl⟩ := mem_map.mp (of_mem_zip he).1
  have hs : ∀ i < 16, UInt64.ofNat (100 + i) ≠ 2 := by decide
  have hev : event.opId = some ⟨UInt64.ofNat (100 + i)⟩ := by
    rw [label_checkpoint hl]
    rfl
  rw [hev] at ho
  exact hs i (mem_range.mp hi) (congrArg OpId.raw (Option.some.inj ho))

/-- The repeated split is a replay after the eviction. -/
theorem residual_split_once_evicted : ∃ id s s', Reachable Demo.nextEnv s ∧
    step Demo.nextEnv Demo.splitAgain s = .ok (.splitResidual (.ok (.replayed ⟨id⟩)), s') ∧
      s'.view = s.view := by
  have hrun : (execute Demo.nextEnv Demo.leased Demo.fresh).okAnd (fun r =>
      (step Demo.nextEnv Demo.splitAgain r.2).okAnd fun r₁ => (Demo.residual r₁.1).isSome &&
        (execute Demo.nextEnv Demo.checkpoints r₁.2).okAnd fun _ => true) = true := by
    decide +kernel
  obtain ⟨⟨_, s⟩, hleased, hrun⟩ := exists_of_okAnd hrun
  obtain ⟨⟨_, _⟩, hsplit, hrun⟩ := exists_of_okAnd hrun
  obtain ⟨hexecuted, hrun⟩ := Bool.and_eq_true_iff.mp hrun
  obtain ⟨⟨_, s₂⟩, hmore, -⟩ := exists_of_okAnd hrun
  have hreach : Reachable Demo.nextEnv s := (Reachable.init Demo.fresh_nextEnv).execute hleased
  unfold Demo.residual at hexecuted
  split at hexecuted
  next result hresponse =>
    cases hresponse
    obtain ⟨s', hstep, hview⟩ := residual_split_once hreach hsplit hmore
      Demo.not_reuses_checkpoints 3 (rfl : Demo.rootLease.shardKey = Demo.rootLease.shardKey)
    exact ⟨result.residual, s₂, s', (hreach.step hsplit).execute hmore, hstep, hview⟩
  next => cases hexecuted

end GossipRs
