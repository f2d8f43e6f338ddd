import GossipRs.Abstract.Step
import GossipRs.Coordination.Invariants

/-! What a call can do to a view, said once. A label names the change a call made; calls that fail,
replay or only read are quiet. `View.Effect` gives every labelled change with the checks it passed,
and by `View.Steps.effect` each call makes the change of its label. Invariants of runs are derived
from the effects. -/

namespace GossipRs

open Lib Stdx Outcome List
open Prog (bind_run get_run respond)

variable {ε : Type}

inductive ShardEvent where
  | granted (now : LogicalTime) (worker : WorkerId) (fence : FenceEpoch)
  | renewed (now : LogicalTime) (lease : Lease)
  | checkpointed (now : LogicalTime) (lease : Lease) (cursor : CursorUpdate) (opId : OpId)
  | completed (now : LogicalTime) (lease : Lease) (cursor : CursorUpdate) (opId : OpId)
  | parked (now : LogicalTime) (lease : Lease) (reason : ParkReason) (opId : OpId)
  | unparked (now : LogicalTime) (opId : OpId)
  | splitReplaced (now : LogicalTime) (lease : Lease) (plan : SplitReplacePlan) (opId : OpId)
  | splitResidual (now : LogicalTime) (lease : Lease) (plan : SplitResidualPlan) (opId : OpId)

inductive RunEvent where
  | created (now : LogicalTime) (config : RunConfig)
  | registered (now : LogicalTime) (shards : List InitialShardInput) (opId : OpId)
  | finished (now : LogicalTime) (kind : RunOpKind) (opId : OpId)

inductive Label where
  | quiet
  | shard (tenant : TenantId) (key : ShardKey) (event : ShardEvent)
  | run (tenant : TenantId) (run : RunId) (event : RunEvent)

def Call.label : Call → Response → Label
  | .acquire now tenant key worker, .acquire (.ok result) =>
    .shard tenant key (.granted now worker result.lease.fence)
  | .claimNextAvailable now tenant _ worker, .claimNextAvailable (.ok result) =>
    .shard tenant result.lease.shardKey (.granted now worker result.lease.fence)
  | .renew now tenant lease, .renew (.ok _) => .shard tenant lease.shardKey (.renewed now lease)
  | .checkpoint now tenant lease newCursor opId, .shardOp (.ok (.executed _)) =>
    .shard tenant lease.shardKey (.checkpointed now lease newCursor opId)
  | .complete now tenant lease finalCursor opId, .shardOp (.ok (.executed _)) =>
    .shard tenant lease.shardKey (.completed now lease finalCursor opId)
  | .parkShard now tenant lease reason opId, .shardOp (.ok (.executed _)) =>
    .shard tenant lease.shardKey (.parked now lease reason opId)
  | .splitReplace now tenant lease plan opId, .splitReplace (.ok (.executed _)) =>
    .shard tenant lease.shardKey (.splitReplaced now lease plan opId)
  | .splitResidual now tenant lease plan opId, .splitResidual (.ok (.executed _)) =>
    .shard tenant lease.shardKey (.splitResidual now lease plan opId)
  | .unparkShard now tenant key opId, .unparkShard (.ok (.executed _)) =>
    .shard tenant key (.unparked now opId)
  | .createRun now tenant run config, .createRun (.ok _) => .run tenant run (.created now config)
  | .registerShards now tenant run shards opId, .registerShards (.ok (.executed _)) =>
    .run tenant run (.registered now shards opId)
  | .createRunWithShards now tenant run _ shards opId, .createRunWithShards (.ok (.executed _)) =>
    .run tenant run (.registered now shards opId)
  | .completeRun now tenant run opId, .runTransition (.ok (.executed _)) =>
    .run tenant run (.finished now .completeRun opId)
  | .failRun now tenant run opId, .runTransition (.ok (.executed _)) =>
    .run tenant run (.finished now .failRun opId)
  | .cancelRun now tenant run opId, .runTransition (.ok (.executed _)) =>
    .run tenant run (.finished now .cancelRun opId)
  | _, _ => .quiet

structure RecordView.Logs (env : Env) (payload : Payload) (kind : OpKind) (opId : OpId)
    (r r' : RecordView) : Prop where
  entry : ∃ entry : OpLogEntry, entry.opId = opId ∧ entry.kind = kind ∧
    payload.HashIs env entry.payloadHash ∧ r' = r.withEntry entry
  new : ∀ e ∈ r.opLog, e.opId ≠ opId
  invariant : r'.Invariant

theorem RecordView.Logs.eq {r r' : RecordView} (h : Logs env payload kind opId r r') :
    ∃ entry, r' = r.withEntry entry := by
  obtain ⟨entry, -, -, -, h⟩ := h.entry
  exact ⟨entry, h⟩

inductive RecordStep (env : Env) (tenant : TenantId) (key : ShardKey) (r : RecordView) :
    ShardEvent → RecordView → Prop where
  | granted {now : LogicalTime} {worker : WorkerId} {deadline : LogicalTime} (hd : 0 < deadline)
      (htenant : r.tenant = tenant) (hactive : r.status = .active)
      (hfree : ∀ holder ∈ r.lease, ¬ now < holder.deadline)
      (hfence : r.fenceEpoch.toNat + 1 < 2 ^ 64) :
      RecordStep env tenant key r (.granted now worker (r.fenceEpoch + 1))
        { r with fenceEpoch := r.fenceEpoch + 1, lease := some ⟨worker, deadline, hd⟩ }
  | renewed {now : LogicalTime} {lease : Lease} {deadline : LogicalTime} (hd : 0 < deadline)
      (hlease : LeaseValid now tenant lease r) :
      RecordStep env tenant key r (.renewed now lease)
        { r with lease := some ⟨lease.owner, deadline, hd⟩ }
  | checkpointed {now : LogicalTime} {lease : Lease} {cursor : CursorUpdate} {opId : OpId}
      {r' : RecordView} (hlease : LeaseValid now tenant lease r)
      (hcursor : viewReader.validateCursor r cursor = .ok ())
      (hlog : RecordView.Logs env (.checkpoint cursor) .checkpoint opId
        { r with cursor := cursor.value } r') :
      RecordStep env tenant key r (.checkpointed now lease cursor opId) r'
  | completed {now : LogicalTime} {lease : Lease} {cursor : CursorUpdate} {opId : OpId}
      {r' : RecordView} (hlease : LeaseValid now tenant lease r)
      (hcursor : viewReader.validateCursor r cursor = .ok ())
      (hlog : RecordView.Logs env (.complete cursor) .complete opId
        { r with cursor := cursor.value, status := .done, lease := none } r') :
      RecordStep env tenant key r (.completed now lease cursor opId) r'
  | parked {now : LogicalTime} {lease : Lease} {reason : ParkReason} {opId : OpId}
      {r' : RecordView} (hlease : LeaseValid now tenant lease r)
      (hlog : RecordView.Logs env (.park reason) .park opId
        { r with status := .parked, parkReason := some reason, lease := none } r') :
      RecordStep env tenant key r (.parked now lease reason opId) r'
  | unparked {now : LogicalTime} {opId : OpId} {r' : RecordView} (htenant : r.tenant = tenant)
      (hparked : r.status = .parked) (hfence : r.fenceEpoch.toNat + 1 < 2 ^ 64)
      (hlog : RecordView.Logs env (.unparkShard key) .unpark opId
        { r with
          fenceEpoch := r.fenceEpoch + 1, parkReason := none, status := .active, lease := none }
        r') :
      RecordStep env tenant key r (.unparked now opId) r'
  | splitReplaced {now : LogicalTime} {lease : Lease} {plan : SplitReplacePlan} {opId : OpId}
      {r' : RecordView} (hready : SplitReplaceReady now tenant lease plan viewReader r)
      (hlog : RecordView.Logs env (.splitReplace plan) .splitReplace opId
        { r with
          spawned := r.spawned ++
            childIds env r.run r.shard opId r.spawned.length plan.children.length
          status := .split
          lease := none } r') :
      RecordStep env tenant key r (.splitReplaced now lease plan opId) r'
  | splitResidual {now : LogicalTime} {lease : Lease} {plan : SplitResidualPlan} {opId : OpId}
      {r' : RecordView} (hready : SplitResidualReady now tenant lease plan viewReader r)
      (hscan : scanResidual env r.run r.shard opId r.spawned 0 = none)
      (hlog : RecordView.Logs env (.splitResidual plan) .splitResidual opId
        { r with
          spec := plan.parentNewSpec
          spawned := r.spawned ++
            [deriveSplitShardId env r.run r.shard opId .residual r.spawned.length] } r') :
      RecordStep env tenant key r (.splitResidual now lease plan opId) r'

def ShardEvent.children (env : Env) (r : RecordView) :
    ShardEvent → List (ShardId × SplitReplaceChild)
  | .splitReplaced _ _ plan opId =>
    (childIds env r.run r.shard opId r.spawned.length plan.children.length).zip
      (splitChildOrder plan)
  | .splitResidual _ _ plan opId =>
    [(deriveSplitShardId env r.run r.shard opId .residual r.spawned.length,
      ⟨plan.residualSpec, CursorUpdate.initial⟩)]
  | _ => []

def RecordView.child (tenant : TenantId) (r : RecordView) (new : ShardId × SplitReplaceChild) :
    ShardKey × RecordView :=
  (⟨r.run, new.1⟩, ShardRecord.fresh tenant r.run new.1 new.2.spec new.2.cursor.value
    r.cursorSemantics (some r.shard) [])

def InitialShardInput.root (tenant : TenantId) (run : RunId) (semantics : CursorSemantics)
    (input : InitialShardInput) : ShardKey × RecordView :=
  (⟨run, input.shard⟩, ShardRecord.fresh tenant run input.shard input.spec input.cursor.value
    semantics none [])

structure RunRecord.Logs (env : Env) (payload : Payload) (kind : RunOpKind) (result : RunOpResult)
    (now : LogicalTime) (opId : OpId) (r r' : RunRecord) : Prop where
  entry : ∃ entry : RunOpLogEntry, entry.opId = opId ∧ entry.kind = kind ∧
    entry.result = result ∧ entry.executedAt = now ∧ payload.HashIs env entry.payloadHash ∧
    r' = r.withEntry entry
  new : ∀ e ∈ r.opLog, e.opId ≠ opId
  invariant : r'.Invariant

def RunOpKind.terminal : RunOpKind → Option (RunStatus × Payload)
  | .registerShards => none
  | .completeRun => some (.done, .completeRun)
  | .failRun => some (.failed, .failRun)
  | .cancelRun => some (.cancelled, .cancelRun)

variable {lease : Lease} {run : RunId} {shards : List InitialShardInput} {config : RunConfig}
  {payload : Payload} {response : Response}

namespace View

structure SplitInto (env : Env) (tenant : TenantId) (key : ShardKey) (event : ShardEvent)
    (r r' : RecordView) (t t' : View) : Prop where
  isSplit : event.children env r ≠ []
  new : (t.dropShard tenant key).AllNew tenant ((event.children env r).map (r.child tenant))
  limits : (t.dropShard tenant key).checkShardLimits tenant (event.children env r).length 1 = .ok ()
  invariant : ∀ new ∈ event.children env r, (r.child tenant new).2.Invariant
  result : t' = (((t.dropShard tenant key).putShards tenant
      ((event.children env r).map (r.child tenant))).indexShards tenant r.run
        ((event.children env r).map Prod.fst)).putShard tenant key r'

inductive Effect (env : Env) (t : View) : Label → View → Prop where
  | quiet : Effect env t .quiet t
  | inPlace {tenant : TenantId} {key : ShardKey} {event : ShardEvent} {r r' : RecordView}
      (cooldowns : FMap WorkerId LogicalTime) (hget : t.getShard tenant key = some r)
      (hstep : RecordStep env tenant key r event r') (hchildren : event.children env r = []) :
      Effect env t (.shard tenant key event)
        { t.setShard tenant key r' with claimCooldowns := cooldowns }
  | split {tenant : TenantId} {key : ShardKey} {event : ShardEvent} {r r' : RecordView} {t' : View}
      (hget : t.getShard tenant key = some r) (hstep : RecordStep env tenant key r event r')
      (hsplit : SplitInto env tenant key event r r' t t') :
      Effect env t (.shard tenant key event) t'
  | created {now : LogicalTime} {tenant : TenantId} {run : RunId} {config : RunConfig}
      (hnew : t.runs.lookup (tenant, run) = none)
      (hinv : (RunRecord.initial tenant run config now).Invariant) :
      Effect env t (.run tenant run (.created now config))
        { t with runs := t.runs.insert (tenant, run) (.initial tenant run config now) }
  | registered {now : LogicalTime} {tenant : TenantId} {run : RunId}
      {shards : List InitialShardInput} {opId : OpId} {r r' : RunRecord}
      (hget : t.runs.lookup (tenant, run) = some r) (htenant : r.tenant = tenant)
      (hinit : r.status = .initializing) (hmanifest : ManifestValid shards)
      (hlimits : t.checkShardLimits tenant shards.length 0 = .ok ())
      (hnew : t.AllNew tenant (shards.map (InitialShardInput.root tenant run
        r.config.cursorSemantics)))
      (hinv : ∀ input ∈ shards,
        (InitialShardInput.root tenant run r.config.cursorSemantics input).2.Invariant)
      (hlog : RunRecord.Logs env (.ofManifest shards) .registerShards
        (.registeredShards (shards.map InitialShardInput.shard)) now opId
        { r with status := .active, rootShards := shards.map InitialShardInput.shard } r') :
      Effect env t (.run tenant run (.registered now shards opId))
        { (t.putShards tenant
            (shards.map (InitialShardInput.root tenant run r.config.cursorSemantics))).indexShards
              tenant run (shards.map InitialShardInput.shard) with
          runs := t.runs.insert (tenant, run) r' }
  | finished {now : LogicalTime} {tenant : TenantId} {run : RunId} {kind : RunOpKind} {opId : OpId}
      {status : RunStatus} {payload : Payload} {r r' : RunRecord}
      (hkind : kind.terminal = some (status, payload))
      (hget : t.runs.lookup (tenant, run) = some r) (htenant : r.tenant = tenant)
      (hrunning : r.status.isTerminal = false)
      (hlog : RunRecord.Logs env payload kind .ack now opId
        { r with status, completedAt := some now } r') :
      Effect env t (.run tenant run (.finished now kind opId))
        { t with runs := t.runs.insert (tenant, run) r' }

/-- A combined call creates its run first, unless the run exists. -/
def Opened (env : Env) (call : Call) (t t₁ : View) : Prop :=
  t₁ = t ∨ ∃ now tenant run config shards opId,
    call = .createRunWithShards now tenant run config shards opId ∧
      Effect env t (.run tenant run (.created now config)) t₁

section

variable {env : Env} {debug : Bool} {now : LogicalTime} {tenant : TenantId} {key : ShardKey}
  {opId : OpId} {t t' : View}

theorem acquire_effect
    (h : acquireAndRestoreInto debug now tenant key worker viewReader t = .ok (result, t'))
    (cooldowns) :
    Effect env t (.shard tenant key (.granted now worker result.lease.fence))
      { t' with claimCooldowns := cooldowns } := by
  obtain ⟨_, _, hge, hg, -, rfl⟩ := acquire_eq_ok h
  obtain ⟨ht, ha, hfr, hf, -, -, -, -, rfl⟩ := grantLease_eq_ok hg
  obtain ⟨hb, hn⟩ := FenceEpoch.increment_eq_ok.mp hf
  rw [← hn]
  exact .inPlace cooldowns hge (.granted _ ht ha hfr hb) rfl

theorem renew_effect (h : GossipRs.renew debug now tenant lease viewReader t = .ok (result, t')) :
    Effect env t (.shard tenant lease.shardKey (.renewed now lease)) t' := by
  obtain ⟨_, _, hg, he, -, rfl⟩ := renew_eq_ok h
  obtain ⟨hl, -, hd, rfl⟩ := extendLease_eq_ok he
  exact .inPlace t.claimCooldowns hg (.renewed hd hl) rfl

theorem checkpoint_effect
    (h : checkpoint env now tenant lease newCursor opId t = .ok (.executed (), t')) :
    Effect env t (.shard tenant lease.shardKey (.checkpointed now lease newCursor opId)) t' := by
  obtain ⟨_, hp, h⟩ := bind_eq_ok.mp h
  obtain ⟨_, _, hg, hh, ⟨_, -, -, rfl⟩ | ⟨_, hl, hc, rfl⟩⟩ :=
    cursorOpPrelude_eq_ok hp
  · cases h
  obtain ⟨_, hlo, h⟩ := bind_eq_ok.mp h
  obtain ⟨hinv, h⟩ := check_eq_ok.mp h
  cases h
  obtain ⟨_, _, hn, rfl⟩ := ShardRecord.logOp_eq_ok hlo
  exact .inPlace t.claimCooldowns hg (.checkpointed hl hc
    ⟨⟨_, rfl, rfl, hh, rfl⟩, hn, assertInvariants_eq_ok.mp hinv⟩) rfl

theorem complete_effect
    (h : complete env now tenant lease finalCursor opId t = .ok (.executed (), t')) :
    Effect env t (.shard tenant lease.shardKey (.completed now lease finalCursor opId)) t' := by
  obtain ⟨_, hp, h⟩ := bind_eq_ok.mp h
  obtain ⟨_, _, hg, hh, ⟨_, -, -, rfl⟩ | ⟨_, hl, hc, rfl⟩⟩ :=
    cursorOpPrelude_eq_ok hp
  · cases h
  obtain ⟨_, hm, h⟩ := bind_eq_ok.mp h
  obtain ⟨hinv, h⟩ := check_eq_ok.mp h
  cases h
  obtain ⟨_, _, hn, rfl⟩ := markDone_eq_ok hm
  exact .inPlace t.claimCooldowns hg (.completed hl hc
    ⟨⟨_, rfl, rfl, hh, rfl⟩, hn, assertInvariants_eq_ok.mp hinv⟩) rfl

theorem parkShard_effect (h : GossipRs.parkShard env now tenant lease reason opId viewReader t =
      .ok (.executed (), t')) :
    Effect env t (.shard tenant lease.shardKey (.parked now lease reason opId)) t' := by
  obtain ⟨_, _, hg, hh, ⟨_, -, -, ho, -⟩ | ⟨-, hl, _, hm, hinv, -, rfl⟩⟩ :=
    parkShard_eq_ok h
  · cases ho
  obtain ⟨_, _, hn, rfl⟩ := markParked_eq_ok hm
  exact .inPlace t.claimCooldowns hg (.parked hl
    ⟨⟨_, rfl, rfl, hh, rfl⟩, hn, assertInvariants_eq_ok.mp hinv⟩) rfl

theorem unparkShard_effect
    (h : GossipRs.unparkShard env now tenant key opId viewReader t = .ok (.executed (), t')) :
    Effect env t (.shard tenant key (.unparked now opId)) t' := by
  obtain ⟨_, _, _, hg, ht, -, -, hh,
    ⟨_, -, -, ho, -⟩ | ⟨-, hp, _, hm, hinv, -, rfl⟩⟩ := unparkShard_eq_ok h
  · cases ho
  obtain ⟨_, hf, _, _, hn, rfl⟩ := markUnparked_eq_ok hm
  obtain ⟨hb, rfl⟩ := FenceEpoch.increment_eq_ok.mp hf
  exact .inPlace t.claimCooldowns hg (.unparked ht hp hb
    ⟨⟨_, rfl, rfl, hh, rfl⟩, hn, assertInvariants_eq_ok.mp hinv⟩) rfl

theorem childIds_succ (run) (parent) (op) (base n) :
    childIds env run parent op base (n + 1) = deriveSplitShardId env run parent op .child base ::
        childIds env run parent op (base + 1) n := by
  unfold childIds
  rw [range_succ_eq_map, map_cons, map_map]
  refine congrArg₂ _ rfl (map_congr_left fun i _ => ?_)
  show deriveSplitShardId env run parent op .child (base + (i + 1)) = _
  rw [Nat.add_right_comm, Nat.add_assoc]

@[simp] theorem length_childIds (run) (parent) (op) (base n) :
    (childIds env run parent op base n).length = n := by
  simp [childIds]

theorem insertChildren_eq_ok (hk : kids = (childIds env parent.run parent.shard opId
      (parent.spawned.length + done.length) children.length).zip children)
    (h : insertChildren env parent tenant opId children done t = .ok (ids, t')) :
    ids = done.reverse ++ kids.map Prod.fst ∧ t.AllNew tenant (kids.map (parent.child tenant)) ∧
      (∀ new ∈ kids, (parent.child tenant new).2.Invariant) ∧
      t' = t.putShards tenant (kids.map (parent.child tenant)) := by
  induction children generalizing done t kids with
  | nil =>
    cases h
    subst hk
    refine ⟨by simp, trivial, fun new hn => ?_, rfl⟩
    simp at hn
  | cons child rest ih =>
    obtain ⟨hc, h⟩ := check_eq_ok.mp h
    obtain ⟨_, hr, h⟩ := bind_eq_ok.mp h
    obtain ⟨rfl, hinv⟩ := newRecord_eq_ok hr
    rw [ensure_eq_ok] at hc
    obtain ⟨hid, hn, hin, ht'⟩ := ih rfl h
    rw [length_cons, childIds_succ, zip_cons_cons] at hk
    subst hk
    have hb : parent.spawned.length + done.length + 1 =
      parent.spawned.length + (done.length + 1) := by omega
    rw [length_cons] at hid hn hin ht'
    rw [hb]
    refine ⟨?_, ⟨?_, hn⟩, ?_, ht'⟩
    · rw [hid, reverse_cons, append_assoc]
      rfl
    · exact Option.not_isSome_iff_eq_none.mp (by simpa [Tables.shardContains] using hc)
    intro new hm
    rcases mem_cons.mp hm with rfl | hm
    · exact assertInvariants_eq_ok.mp hinv
    · exact hin new hm

theorem splitReplace_effect
    (h : splitReplace env now tenant lease plan opId t = .ok (.executed result, t')) :
    ∃ r, t.getShard tenant lease.shardKey = some r ∧ result.children =
        childIds env r.run r.shard opId r.spawned.length plan.children.length ∧
      Effect env t (.shard tenant lease.shardKey (.splitReplaced now lease plan opId)) t' := by
  obtain ⟨r, hg, h⟩ := bind_eq_ok.mp h
  rw [okOr_eq_ok] at hg
  obtain ⟨_, hp, h⟩ := bind_eq_ok.mp h
  obtain ⟨_, hh, ⟨_, -, -, -, rfl⟩ | ⟨_, hr, rfl⟩⟩ := splitReplacePrelude_eq_ok hp
  · cases h
  obtain ⟨hl, h⟩ := check_eq_ok.mp h
  obtain ⟨⟨ids, _⟩, hin, h⟩ := bind_eq_ok.mp h
  obtain ⟨_, ha, h⟩ := bind_eq_ok.mp h
  cases h
  obtain ⟨hid, hn, hinvs, rfl⟩ := insertChildren_eq_ok rfl hin
  obtain ⟨_, _, hf, rfl, hinv⟩ := splitReplaceApplyParent_eq_ok ha
  have hle : (splitChildOrder plan).length = plan.children.length := length_splitChildOrder plan
  have hid : ids = childIds env r.run r.shard opId r.spawned.length plan.children.length := by
    rw [hid, map_fst_zip (by simp), hle]
    rfl
  subst hid
  refine ⟨r, hg, rfl, .split hg (.splitReplaced hr
    ⟨⟨_, rfl, rfl, hh, rfl⟩, hf, assertInvariants_eq_ok.mp hinv⟩) ?_⟩
  have hk : ShardEvent.children env r (.splitReplaced now lease plan opId) =
      (childIds env r.run r.shard opId (r.spawned.length + ([] : List ShardId).length)
        (splitChildOrder plan).length).zip (splitChildOrder plan) := by
    rw [hle]
    rfl
  refine ⟨?_, by rw [hk]; exact hn, ?_, by rw [hk]; exact hinvs, ?_⟩
  · rw [hk]
    intro hni
    have hz := congrArg length hni
    have ht := plan.two_le
    rw [length_zip, length_childIds, hle, Nat.min_self, length_nil] at hz
    omega
  · rw [hk, length_zip, length_childIds, Nat.min_self]
    exact mapErr_eq_ok.mp hl
  · rw [hk, map_fst_zip (by simp), hle]
    rfl

theorem splitResidual_effect
    (h : splitResidual env now tenant lease plan opId t = .ok (.executed result, t')) :
    ∃ r, t.getShard tenant lease.shardKey = some r ∧ result.residual =
        deriveSplitShardId env r.run r.shard opId .residual r.spawned.length ∧
      Effect env t (.shard tenant lease.shardKey (.splitResidual now lease plan opId)) t' := by
  obtain ⟨r, hg, h⟩ := bind_eq_ok.mp h
  rw [okOr_eq_ok] at hg
  obtain ⟨_, hp, h⟩ := bind_eq_ok.mp h
  obtain ⟨_, _, hh, hs, ⟨residual, -, -, rfl⟩ | ⟨_, hsc, hre, rfl⟩⟩ :=
    splitResidualPrelude_eq_ok hp
  · cases h
  cases hs
  obtain ⟨hl, h⟩ := check_eq_ok.mp h
  obtain ⟨_, hr, h⟩ := bind_eq_ok.mp h
  obtain ⟨hc, h⟩ := check_eq_ok.mp h
  obtain ⟨_, ha, h⟩ := bind_eq_ok.mp h
  cases h
  obtain ⟨rfl, hri⟩ := newRecord_eq_ok hr
  obtain ⟨_, _, hf, rfl, hinv⟩ := splitResidualApplyParent_eq_ok ha
  rw [ensure_eq_ok] at hc
  refine ⟨r, hg, rfl, .split hg (.splitResidual hre hsc
    ⟨⟨_, rfl, rfl, hh, rfl⟩, hf, assertInvariants_eq_ok.mp hinv⟩)
    ⟨cons_ne_nil _ _, ⟨?_, trivial⟩, mapErr_eq_ok.mp hl, ?_, rfl⟩⟩
  · exact Option.not_isSome_iff_eq_none.mp (by simpa [Tables.shardContains] using hc)
  intro new hm
  rw [ShardEvent.children, mem_singleton] at hm
  subst hm
  exact assertInvariants_eq_ok.mp hri

theorem stageShards_eq_ok (h : (stageShards tenant run semantics t shards : Run ε _) = .ok staged) :
    staged = shards.map (InitialShardInput.root tenant run semantics) ∧
      ∀ input ∈ shards, t.getShard tenant ⟨run, input.shard⟩ = none ∧
        (InitialShardInput.root tenant run semantics input).2.Invariant := by
  induction shards generalizing staged with
  | nil =>
    cases h
    exact ⟨rfl, fun input hm => by cases hm⟩
  | cons input rest ih =>
    obtain ⟨hc, h⟩ := check_eq_ok.mp h
    obtain ⟨_, hr, h⟩ := bind_eq_ok.mp h
    obtain ⟨_, hre, h⟩ := bind_eq_ok.mp h
    cases h
    obtain ⟨rfl, hinv⟩ := newRecord_eq_ok hr
    obtain ⟨rfl, ha⟩ := ih hre
    refine ⟨rfl, fun input' hm => ?_⟩
    rcases mem_cons.mp hm with rfl | hm
    · refine ⟨?_, assertInvariants_eq_ok.mp hinv⟩
      exact Option.not_isSome_iff_eq_none.mp (by simpa [Tables.shardContains] using hc)
    · exact ha input' hm

theorem createRun_effect (h : createRun now tenant run config t = .ok (record, t')) :
    Effect env t (.run tenant run (.created now config)) t' := by
  obtain ⟨hn, rfl, hinv, rfl⟩ := createRun_eq_ok h
  exact .created hn (RunRecord.assertInvariants_eq_ok.mp hinv)

theorem registerShards_effect
    (h : registerShards env now tenant run shards opId t = .ok (.executed ids, t')) :
    ids = shards.map InitialShardInput.shard ∧
      Effect env t (.run tenant run (.registered now shards opId)) t' := by
  obtain ⟨_, hp, h⟩ := bind_eq_ok.mp h
  obtain ⟨r, _, hg, ht, hh, ⟨entry, _, -, -, -, -, rfl⟩ | ⟨_, hini, hm, hl, rfl⟩⟩ :=
    registerShardsPrelude_eq_ok hp
  · cases h
  obtain ⟨_, hs, h⟩ := bind_eq_ok.mp h
  obtain ⟨_, hac, h⟩ := bind_eq_ok.mp h
  cases h
  obtain ⟨rfl, ha⟩ := stageShards_eq_ok hs
  obtain ⟨entry, ho, hk, he, hti, hr, hn, rfl, hinv⟩ := activateRun_eq_ok hac
  have hv := validateManifest_eq_ok.mp hm
  have hru : ((t.putShards tenant (shards.map (InitialShardInput.root tenant run
      r.config.cursorSemantics))).indexShards tenant run
        (shards.map InitialShardInput.shard)).runs = t.runs := by
    rw [Tables.indexShards_eq]
    exact Tables.runs_putShards _
  rw [hru]
  refine ⟨rfl, .registered hg ht hini hv hl
    (Tables.allNew_of_nodup ?_ ?_) (fun input hme => (ha input hme).2)
    ⟨⟨entry, ho, hk, hr, hti, he ▸ hh, rfl⟩, hn, RunRecord.assertInvariants_eq_ok.mp hinv⟩⟩
  · rw [map_map]
    have hke : (Prod.fst ∘ InitialShardInput.root tenant run r.config.cursorSemantics) =
      (fun id => (⟨run, id⟩ : ShardKey)) ∘ InitialShardInput.shard := rfl
    rw [hke, ← map_map]
    exact hv.ids_nodup.map fun a b hab => (ShardKey.mk.inj hab).2
  intro entry hme
  obtain ⟨input, hin, rfl⟩ := mem_map.mp hme
  exact (ha input hin).1

theorem finishRun_effect (hki : kind.terminal = some (status, payload))
    (h : finishRun env payload status kind requireActive now tenant run opId t =
      .ok (.executed (), t')) : Effect env t (.run tenant run (.finished now kind opId)) t' := by
  obtain ⟨_, _, hg, ht, hh, ⟨entry, -, -, -, ho, -⟩ | ⟨_, hr, -, entry, _,
    hop, hk, he, hti, hre, hn, rfl, hinv, -, rfl⟩⟩ := finishRun_eq_ok h
  · cases ho
  · exact .finished hki hg ht hr ⟨⟨entry, hop, hk, hre, hti, he ▸ hh,
      rfl⟩, hn, RunRecord.assertInvariants_eq_ok.mp hinv⟩

theorem cursorOp_replayed
    (h : cursorOp env payload finish now tenant lease newCursor opId t = .ok (.replayed (), t')) :
    t' = t := by
  obtain ⟨found, -, h⟩ := bind_eq_ok.mp h
  cases found with
  | none =>
    cases h
    rfl
  | some found =>
    obtain ⟨_, -, h⟩ := bind_eq_ok.mp h
    obtain ⟨-, h⟩ := check_eq_ok.mp h
    cases h

theorem parkShard_replayed (h : GossipRs.parkShard env now tenant lease reason opId viewReader t =
      .ok (.replayed (), t')) : t' = t := by
  obtain ⟨_, _, -, -, ⟨_, -, -, -, ht⟩ | ⟨-, -, _, -, -, ho, -⟩⟩ := parkShard_eq_ok h
  · exact ht
  · cases ho

theorem unparkShard_replayed
    (h : GossipRs.unparkShard env now tenant key opId viewReader t = .ok (.replayed (), t')) :
    t' = t := by
  obtain ⟨_, _, _, -, -, -, -, -, ⟨_, -, -, -, ht⟩ | ⟨-, -, _, -, -, ho, -⟩⟩ :=
    unparkShard_eq_ok h
  · exact ht
  · cases ho

theorem splitReplace_replayed
    (h : splitReplace env now tenant lease plan opId t = .ok (.replayed result, t')) : t' = t := by
  obtain ⟨_, -, h⟩ := bind_eq_ok.mp h
  obtain ⟨found, -, h⟩ := bind_eq_ok.mp h
  cases found with
  | inl ids =>
    cases h
    rfl
  | inr found =>
    obtain ⟨-, h⟩ := check_eq_ok.mp h
    obtain ⟨_, -, h⟩ := bind_eq_ok.mp h
    obtain ⟨_, -, h⟩ := bind_eq_ok.mp h
    cases h

theorem splitResidual_replayed
    (h : splitResidual env now tenant lease plan opId t = .ok (.replayed result, t')) : t' = t := by
  obtain ⟨_, -, h⟩ := bind_eq_ok.mp h
  obtain ⟨found, -, h⟩ := bind_eq_ok.mp h
  cases found with
  | inl residual =>
    cases h
    rfl
  | inr hash =>
    obtain ⟨-, h⟩ := check_eq_ok.mp h
    obtain ⟨_, -, h⟩ := bind_eq_ok.mp h
    obtain ⟨-, h⟩ := check_eq_ok.mp h
    obtain ⟨_, -, h⟩ := bind_eq_ok.mp h
    cases h

theorem registerShards_replayed
    (h : registerShards env now tenant run shards opId t = .ok (.replayed ids, t')) : t' = t := by
  obtain ⟨found, -, h⟩ := bind_eq_ok.mp h
  cases found with
  | inl ids =>
    cases h
    rfl
  | inr found =>
    obtain ⟨_, -, h⟩ := bind_eq_ok.mp h
    obtain ⟨_, -, h⟩ := bind_eq_ok.mp h
    cases h

theorem finishRun_replayed
    (h : finishRun env payload status kind requireActive now tenant run opId t =
      .ok (.replayed (), t')) : t' = t := by
  obtain ⟨_, _, -, -, -, ⟨entry, -, -, -, -, ht⟩ | ⟨-, -, -, entry, _, -, -, -, -, -, -, -, -, ho,
    -⟩⟩ := finishRun_eq_ok h
  · exact ht
  · cases ho

theorem respond_op_eq_ok {g : View → Run ε (α × View)}
    (h : respond f (op g) t = .ok (response, t')) :
    (∃ a, g t = .ok (a, t') ∧ response = f (.ok a)) ∨
      ∃ e, g t = .err e ∧ response = f (.error e) ∧ t' = t := by
  unfold respond op at h
  cases hg : g t with
  | ok r =>
    rw [hg] at h
    cases h
    exact .inl ⟨r.1, rfl, rfl⟩
  | err e =>
    rw [hg] at h
    cases h
    exact .inr ⟨e, rfl, rfl, rfl⟩
  | panic p =>
    rw [hg] at h
    cases h

theorem query_eq_ok {g : View → Run ε α} (h : query g t = .ok (a, t')) : t' = t := by
  obtain ⟨_, -, h⟩ := bind_eq_ok.mp h
  cases h
  rfl

theorem getRun_registered (h : Effect env t (.run tenant run (.registered now shards opId)) t') :
    ∃ record, getRun tenant run t' = .ok record := by
  cases h with
  | @registered _ _ _ _ _ r r' hget htenant hinit hmanifest hlimits hnew hinv hlog =>
    obtain ⟨entry, -, -, -, -, -, hr'⟩ := hlog.entry
    refine ⟨r', ?_⟩
    unfold getRun lookupRun
    have ht' : r'.tenant = tenant := by
      rw [hr']
      exact htenant
    simp [Outcome.okOr, ht']

theorem registerCreated_effect
    (h : respond .createRunWithShards (registerCreated env now tenant run shards opId) t =
      .ok (response, t')) :
    Effect env t ((Call.createRunWithShards now tenant run config shards opId).label response)
      t' := by
  unfold respond registerCreated at h
  rw [bind_run] at h
  unfold Prog.mapErr op at h
  cases hr : registerShards env now tenant run shards opId t with
  | err e =>
    rw [hr] at h
    cases h
    exact .quiet
  | panic p =>
    rw [hr] at h
    cases h
  | ok r =>
    obtain ⟨outcome, _⟩ := r
    rw [hr] at h
    simp only [mapErr_ok, ok_bind, bind_run, get_run] at h
    cases outcome with
    | replayed ids =>
      cases registerShards_replayed hr
      cases hru : getRun tenant run t with
      | ok record | err e =>
        rw [hru] at h
        cases h
        exact .quiet
      | panic p =>
        rw [hru] at h
        cases h
    | executed ids =>
      obtain ⟨-, he⟩ := registerShards_effect hr
      obtain ⟨record, hru⟩ := getRun_registered he
      rw [hru] at h
      cases h
      exact he

theorem createRunWithShards_effect (h : respond .createRunWithShards
      (createRunWithShards env now tenant run config shards opId) t = .ok (response, t')) :
    ∃ t1, Opened env (.createRunWithShards now tenant run config shards opId) t t1 ∧
      Effect env t1 ((Call.createRunWithShards now tenant run config shards opId).label response)
        t' := by
  unfold respond createRunWithShards at h
  rw [bind_run, get_run, ok_bind] at h
  dsimp only at h
  cases hc : createRun now tenant run config t with
  | ok r =>
    obtain ⟨_, t1⟩ := r
    rw [hc] at h
    exact ⟨t1, .inr ⟨now, tenant, run, config, shards, opId, rfl, createRun_effect hc⟩,
      registerCreated_effect h⟩
  | panic p =>
    rw [hc] at h
    cases h
  | err e =>
    rw [hc] at h
    refine ⟨t, .inl rfl, ?_⟩
    cases e with
    | runAlreadyExists run' =>
      dsimp only at h
      rw [bind_run] at h
      cases hr : (getRun tenant run t).mapErr CreateRunError.getRunFailed with
      | err e =>
        rw [hr] at h
        cases h
        exact .quiet
      | panic p =>
        rw [hr] at h
        cases h
      | ok existing =>
        rw [hr, Prog.lift_ok, ok_bind, bind_run] at h
        cases hco : (Outcome.ensure (existing.config = config) (.configMismatch run) :
            Run CreateRunError Unit) with
        | err e =>
          rw [hco] at h
          cases h
          exact .quiet
        | panic p =>
          rw [hco] at h
          cases h
        | ok u =>
          rw [hco] at h
          exact registerCreated_effect h
    | registerShardsFailed e | getRunFailed e | configMismatch run' =>
      cases h
      exact .quiet

theorem label_of_isExhausted {call : Call} (h : response.isExhausted = true) :
    call.label response = .quiet := by
  unfold Response.isExhausted at h
  split at h
  · cases call <;> rfl
  · cases call <;> rfl
  · cases call <;> rfl
  · cases call <;> rfl
  · cases call <;> rfl
  · cases h

theorem idempotent_effect {g : View → Run ε (IdempotentOutcome α × View)} {label : Response → Label}
    (h : respond f (op g) t = .ok (response, t'))
    (he : ∀ a, g t = .ok (.executed a, t') → Effect env t (label (f (.ok (.executed a)))) t')
    (hr : ∀ a, g t = .ok (.replayed a, t') → t' = t)
    (hq : ∀ a, label (f (.ok (.replayed a))) = .quiet)
    (herr : ∀ e, label (f (.error e)) = .quiet) : Effect env t (label response) t' := by
  rcases respond_op_eq_ok h with ⟨outcome, hg, rfl⟩ | ⟨e, hg, rfl, rfl⟩
  · cases outcome with
    | executed a => exact he a hg
    | replayed a =>
      cases hr a hg
      rw [hq]
      exact .quiet
  · rw [herr]
    exact .quiet

theorem query_effect {g : View → Run ε α} {label : Response → Label}
    (h : respond f (op (query g)) t = .ok (response, t'))
    (hl : ∀ r, label (f r) = .quiet) : Effect env t (label response) t' := by
  rcases respond_op_eq_ok h with ⟨_, hg, rfl⟩ | ⟨_, hg, rfl, rfl⟩
  · cases query_eq_ok hg
    rw [hl]
    exact .quiet
  · rw [hl]
    exact .quiet

theorem step_effect (h : View.step env call t = .ok (response, t')) :
    ∃ t1, Opened env call t t1 ∧ Effect env t1 (call.label response) t' := by
  cases call with
  | createRunWithShards now tenant run config shards opId => exact createRunWithShards_effect h
  | acquire now tenant key worker =>
    refine ⟨t, .inl rfl, ?_⟩
    rcases respond_op_eq_ok h with ⟨result, hg, rfl⟩ | ⟨e, hg, rfl, rfl⟩
    · exact acquire_effect hg t'.claimCooldowns
    · exact .quiet
  | renew now tenant lease =>
    refine ⟨t, .inl rfl, ?_⟩
    rcases respond_op_eq_ok h with ⟨result, hg, rfl⟩ | ⟨e, hg, rfl, rfl⟩
    · exact renew_effect hg
    · exact .quiet
  | claimNextAvailable now tenant run worker =>
    refine ⟨t, .inl rfl, ?_⟩
    rcases respond_op_eq_ok h with ⟨result, hg, rfl⟩ | ⟨e, hg, rfl, rfl⟩
    · obtain ⟨id, t1, cooldowns, ha, rfl⟩ := claimNextAvailable_eq_ok hg
      have hk : result.lease.shardKey = ⟨run, id⟩ := by
        obtain ⟨r, _, -, hgr, -, -⟩ := acquire_eq_ok ha
        exact (grantLease_eq_ok hgr).2.2.2.2.2.1
      rw [Call.label, hk]
      exact acquire_effect ha cooldowns
    · exact .quiet
  | createRun now tenant run config =>
    refine ⟨t, .inl rfl, ?_⟩
    rcases respond_op_eq_ok h with ⟨result, hg, rfl⟩ | ⟨e, hg, rfl, rfl⟩
    · exact createRun_effect hg
    · exact .quiet
  | checkpoint now tenant lease newCursor opId =>
    exact ⟨t, .inl rfl, idempotent_effect h (fun _ => checkpoint_effect)
      (fun _ => cursorOp_replayed) (fun _ => rfl) (fun _ => rfl)⟩
  | complete now tenant lease finalCursor opId =>
    exact ⟨t, .inl rfl, idempotent_effect h (fun _ => complete_effect)
      (fun _ => cursorOp_replayed) (fun _ => rfl) (fun _ => rfl)⟩
  | parkShard now tenant lease reason opId =>
    exact ⟨t, .inl rfl, idempotent_effect h (fun _ => parkShard_effect)
      (fun _ => parkShard_replayed) (fun _ => rfl) (fun _ => rfl)⟩
  | unparkShard now tenant key opId =>
    exact ⟨t, .inl rfl, idempotent_effect h (fun _ => unparkShard_effect)
      (fun _ => unparkShard_replayed) (fun _ => rfl) (fun _ => rfl)⟩
  | splitReplace now tenant lease plan opId =>
    refine ⟨t, .inl rfl, idempotent_effect h (fun _ hg => ?_)
      (fun _ => splitReplace_replayed) (fun _ => rfl) (fun _ => rfl)⟩
    obtain ⟨r, -, -, he⟩ := splitReplace_effect hg
    exact he
  | splitResidual now tenant lease plan opId =>
    refine ⟨t, .inl rfl, idempotent_effect h (fun _ hg => ?_)
      (fun _ => splitResidual_replayed) (fun _ => rfl) (fun _ => rfl)⟩
    obtain ⟨r, -, -, he⟩ := splitResidual_effect hg
    exact he
  | registerShards now tenant run shards opId =>
    exact ⟨t, .inl rfl, idempotent_effect h (fun _ hg => (registerShards_effect hg).2)
      (fun _ => registerShards_replayed) (fun _ => rfl) (fun _ => rfl)⟩
  | completeRun now tenant run opId | failRun now tenant run opId | cancelRun now tenant run opId =>
    exact ⟨t, .inl rfl, idempotent_effect h (fun _ => finishRun_effect rfl)
      (fun _ => finishRun_replayed) (fun _ => rfl) (fun _ => rfl)⟩
  | getRun tenant run | getRunProgress now tenant run | listShards now tenant run filter
  | collectClaimCandidates now tenant run => exact ⟨t, .inl rfl, query_effect h fun _ => rfl⟩

theorem opened_created (now tenant run) (config) (shards) (opId) (t) :
    Opened env (.createRunWithShards now tenant run config shards opId) t
      (t.created now tenant run config) := by
  unfold created
  cases hc : createRun now tenant run config t with
  | ok r => exact .inr ⟨now, tenant, run, config, shards, opId, rfl, createRun_effect hc⟩
  | err e | panic p => exact .inl rfl

/-- **Every call makes the change of its label**, a combined one after creating the run. -/
theorem Steps.effect (h : View.Steps env t call response t') :
    ∃ t1, Opened env call t t1 ∧ Effect env t1 (call.label response) t' := by
  rcases h with h | ⟨-, hf, rfl⟩
  · exact step_effect h
  rw [label_of_isExhausted hf]
  cases call with
  | createRunWithShards now tenant run config shards opId =>
    exact ⟨_, opened_created now tenant run config shards opId t, .quiet⟩
  | _ => exact ⟨t, .inl rfl, .quiet⟩

end

/-- What holds of an empty view and is kept by every change holds along every run. -/
theorem Trace.invariant {P : View → Prop} (hem : ∀ config, P (View.empty config))
    (hk : ∀ t label t', P t → Effect env t label t' → P t') (h : View.Trace env trace t) :
    P t := by
  induction h with
  | init config => exact hem config
  | step _ hstep ih =>
    obtain ⟨_, ho, he⟩ := Steps.effect hstep
    refine hk _ _ _ ?_ he
    rcases ho with rfl | ⟨_, _, _, config, _, _, -, hc⟩
    · exact ih
    · exact hk _ _ _ ih hc

end View

end GossipRs
