import GossipRs.Abstract.Coordinator

/-! One step of the coordinator without a slab. Its memory never runs out, so a response that
reports exhaustion is not its own. -/

namespace GossipRs

open Lib Stdx

variable {ε α : Type}

namespace View

/-- An operation on views as a program: a failed one leaves the view as it was. -/
def op (f : View → Run ε (α × View)) : Prog View Panic ε α := fun t =>
  match f t with
  | .ok r => .ok r
  | .err e => .err (e, t)
  | .panic p => .panic p

def registerCreated (env : Env) (now : LogicalTime) (tenant : TenantId) (run : RunId)
    (shards : List InitialShardInput) (opId : OpId) :
    Prog View Panic CreateRunError (IdempotentOutcome RunRecord) := do
  let outcome ← (op (registerShards env now tenant run shards opId)).mapErr .registerShardsFailed
  let t ← Prog.get
  let record ← Prog.lift ((getRun tenant run t).mapErr .getRunFailed)
  return outcome.map fun _ => record

def createRunWithShards (env : Env) (now : LogicalTime) (tenant : TenantId) (run : RunId)
    (config : RunConfig) (shards : List InitialShardInput) (opId : OpId) :
    Prog View Panic CreateRunError (IdempotentOutcome RunRecord) := do
  let t ← Prog.get
  match createRun now tenant run config t with
  | .ok (_, t) =>
    Prog.set t
    registerCreated env now tenant run shards opId
  | .err (.runAlreadyExists _) =>
    let existing ← Prog.lift ((getRun tenant run t).mapErr .getRunFailed)
    Prog.lift (Outcome.ensure (existing.config = config) (.configMismatch run))
    registerCreated env now tenant run shards opId
  | .err e => Prog.throw e
  | .panic p => Prog.lift (.panic p)

def step (env : Env) (call : Call) : View → Outcome Panic Empty (Response × View) :=
  match call with
  | .acquire now tenant key worker =>
    Prog.respond .acquire (op (acquireAndRestoreInto env.debug now tenant key worker viewReader))
  | .renew now tenant lease =>
    Prog.respond .renew (op (GossipRs.renew env.debug now tenant lease viewReader))
  | .checkpoint now tenant lease newCursor opId =>
    Prog.respond .shardOp (op (checkpoint env now tenant lease newCursor opId))
  | .complete now tenant lease finalCursor opId =>
    Prog.respond .shardOp (op (complete env now tenant lease finalCursor opId))
  | .parkShard now tenant lease reason opId =>
    Prog.respond .shardOp (op (GossipRs.parkShard env now tenant lease reason opId viewReader))
  | .splitReplace now tenant lease plan opId =>
    Prog.respond .splitReplace (op (splitReplace env now tenant lease plan opId))
  | .splitResidual now tenant lease plan opId =>
    Prog.respond .splitResidual (op (splitResidual env now tenant lease plan opId))
  | .createRun now tenant run config =>
    Prog.respond .createRun (op (createRun now tenant run config))
  | .registerShards now tenant run shards opId =>
    Prog.respond .registerShards (op (registerShards env now tenant run shards opId))
  | .createRunWithShards now tenant run config shards opId =>
    Prog.respond .createRunWithShards (createRunWithShards env now tenant run config shards opId)
  | .getRun tenant run => Prog.respond .getRun (op (query (getRun tenant run)))
  | .getRunProgress now tenant run =>
    Prog.respond .getRunProgress
      (op (query (getRunProgress env.debug now tenant run viewReader)))
  | .listShards now tenant run filter =>
    Prog.respond .listShards (op (query (listShards now tenant run filter viewReader)))
  | .collectClaimCandidates now tenant run =>
    Prog.respond .collectClaimCandidates (op (query (collectClaimCandidates now tenant run)))
  | .completeRun now tenant run opId =>
    Prog.respond .runTransition (op (completeRun env now tenant run opId))
  | .failRun now tenant run opId =>
    Prog.respond .runTransition (op (failRun env now tenant run opId))
  | .cancelRun now tenant run opId =>
    Prog.respond .runTransition (op (cancelRun env now tenant run opId))
  | .unparkShard now tenant key opId =>
    Prog.respond .unparkShard (op (GossipRs.unparkShard env now tenant key opId viewReader))
  | .claimNextAvailable now tenant run worker =>
    Prog.respond .claimNextAvailable
      (op (GossipRs.claimNextAvailable env.debug now tenant run worker viewReader))

def created (now : LogicalTime) (tenant : TenantId) (run : RunId) (config : RunConfig) (t : View) :
    View :=
  match createRun now tenant run config t with
  | .ok (_, t) => t
  | _ => t

def CursorOpFresh (env : Env) (payload : Payload) (now : LogicalTime) (tenant : TenantId)
    (lease : Lease) (newCursor : CursorUpdate) (opId : OpId) (t : View) : Prop :=
  ∃ found, cursorOpPrelude env payload now tenant lease newCursor opId viewReader t =
    .ok (some found)

def SplitReplaceFresh (env : Env) (now : LogicalTime) (tenant : TenantId) (lease : Lease)
    (plan : SplitReplacePlan) (opId : OpId) (t : View) : Prop :=
  ∃ parent found, t.getShard tenant lease.shardKey = some parent ∧
    splitReplacePrelude env now tenant lease plan opId viewReader parent = .ok (.inr found)

def SplitResidualFresh (env : Env) (now : LogicalTime) (tenant : TenantId) (lease : Lease)
    (plan : SplitResidualPlan) (opId : OpId) (t : View) : Prop :=
  ∃ parent found, t.getShard tenant lease.shardKey = some parent ∧
    splitResidualPrelude env now tenant lease plan opId viewReader parent = .ok (.inr found)

def RegisterShardsFresh (env : Env) (tenant : TenantId) (run : RunId)
    (shards : List InitialShardInput) (opId : OpId) (t : View) : Prop :=
  ∃ found, registerShardsPrelude env tenant run shards opId t = .ok (.inr found)

end View

def Response.isError : Response → Bool
  | .acquire r => !r.isOk
  | .renew r => !r.isOk
  | .shardOp r => !r.isOk
  | .splitReplace r => !r.isOk
  | .splitResidual r => !r.isOk
  | .createRun r => !r.isOk
  | .registerShards r => !r.isOk
  | .createRunWithShards r => !r.isOk
  | .getRun r => !r.isOk
  | .getRunProgress r => !r.isOk
  | .listShards r => !r.isOk
  | .collectClaimCandidates r => !r.isOk
  | .runTransition r => !r.isOk
  | .unparkShard r => !r.isOk
  | .claimNextAvailable r => !r.isOk

def Response.isExhausted : Response → Bool
  | .shardOp (.error (.resourceExhausted _)) => true
  | .splitReplace (.error (.resourceExhausted _)) => true
  | .splitResidual (.error (.resourceExhausted _)) => true
  | .registerShards (.error .resourceExhausted) => true
  | .createRunWithShards (.error (.registerShardsFailed .resourceExhausted)) => true
  | _ => false

def Call.afterExhaustion : Call → View → View
  | .createRunWithShards now tenant run config _ _, t => t.created now tenant run config
  | _, t => t

/-- The call got past the checks that come before any allocation. -/
def Call.Fresh (env : Env) : Call → View → Prop
  | .checkpoint now tenant lease newCursor opId, t =>
    View.CursorOpFresh env (.checkpoint newCursor) now tenant lease newCursor opId t
  | .complete now tenant lease finalCursor opId, t =>
    View.CursorOpFresh env (.complete finalCursor) now tenant lease finalCursor opId t
  | .splitReplace now tenant lease plan opId, t =>
    View.SplitReplaceFresh env now tenant lease plan opId t
  | .splitResidual now tenant lease plan opId, t =>
    View.SplitResidualFresh env now tenant lease plan opId t
  | .registerShards _ tenant run shards opId, t =>
    View.RegisterShardsFresh env tenant run shards opId t
  | .createRunWithShards now tenant run config shards opId, t =>
    View.RegisterShardsFresh env tenant run shards opId (t.created now tenant run config)
  | _, _ => False

/-- A call on a view that may also fail for lack of memory, as on a slab it can. -/
def View.Steps (env : Env) (t : View) (call : Call) (response : Response) (t' : View) : Prop :=
  View.step env call t = .ok (response, t') ∨
    call.Fresh env t ∧ response.isExhausted = true ∧ t' = call.afterExhaustion t

def View.empty (config : CoordinatorConfig) : View := ⟨config, ∅, 0, ∅, ∅, ∅⟩

inductive View.Trace (env : Env) : List (Call × Response) → View → Prop where
  | init (config : CoordinatorConfig) : View.Trace env [] (View.empty config)
  | step {trace : List (Call × Response)} {t t' : View} {call : Call} {response : Response}
      (ht : View.Trace env trace t) (h : View.Steps env t call response t') :
      View.Trace env (trace ++ [(call, response)]) t'

end GossipRs
