import GossipRs.Coordination.RunOps

/-! The coordinator as a state machine: calls, responses, one step, and runs from a fresh
coordinator. A panic ends a run. -/

namespace GossipRs

open Lib Stdx

variable {ε α : Type}

/-! ## Construction -/

def defaultPerShardSlabBudget : Nat := 4096

def defaultMaxAutoSlabCapacity : Nat := 64 * 1024 * 1024

def CoordinatorConfig.effectiveSlabCapacity (config : CoordinatorConfig) : Nat :=
  if 0 < config.slabCapacity then min config.slabCapacity u32Max
  else min (config.maxTotalShards * defaultPerShardSlabBudget) defaultMaxAutoSlabCapacity

/-- A fresh coordinator. `ownerId` is the process-wide number of its slab. -/
def Coordinator.withRuntimeConfig (env : Env) (config : CoordinatorConfig) (ownerId : Nat) :
    Run ε Coordinator := do
  debugAssert env.debug (config.claimCooldownInterval = 0 ∨
    config.claimCooldownInterval ≤ config.defaultLeaseDuration) .cooldownExceedsLease
  let slab ← ByteSlab.withCapacity config.effectiveSlabCapacity ownerId
  return ⟨⟨config, ∅, 0, ∅, ∅, ∅⟩, slab⟩

/-! ## Calls and responses -/

inductive Call where
  | acquire (now : LogicalTime) (tenant : TenantId) (key : ShardKey) (worker : WorkerId)
  | renew (now : LogicalTime) (tenant : TenantId) (lease : Lease)
  | checkpoint (now : LogicalTime) (tenant : TenantId) (lease : Lease) (newCursor : CursorUpdate)
      (opId : OpId)
  | complete (now : LogicalTime) (tenant : TenantId) (lease : Lease) (finalCursor : CursorUpdate)
      (opId : OpId)
  | parkShard (now : LogicalTime) (tenant : TenantId) (lease : Lease) (reason : ParkReason)
      (opId : OpId)
  | splitReplace (now : LogicalTime) (tenant : TenantId) (lease : Lease) (plan : SplitReplacePlan)
      (opId : OpId)
  | splitResidual (now : LogicalTime) (tenant : TenantId) (lease : Lease)
      (plan : SplitResidualPlan) (opId : OpId)
  | createRun (now : LogicalTime) (tenant : TenantId) (run : RunId) (config : RunConfig)
  | registerShards (now : LogicalTime) (tenant : TenantId) (run : RunId)
      (shards : List InitialShardInput) (opId : OpId)
  | createRunWithShards (now : LogicalTime) (tenant : TenantId) (run : RunId) (config : RunConfig)
      (shards : List InitialShardInput) (opId : OpId)
  | getRun (tenant : TenantId) (run : RunId)
  | getRunProgress (now : LogicalTime) (tenant : TenantId) (run : RunId)
  | listShards (now : LogicalTime) (tenant : TenantId) (run : RunId) (filter : ShardFilter)
  | collectClaimCandidates (now : LogicalTime) (tenant : TenantId) (run : RunId)
  | completeRun (now : LogicalTime) (tenant : TenantId) (run : RunId) (opId : OpId)
  | failRun (now : LogicalTime) (tenant : TenantId) (run : RunId) (opId : OpId)
  | cancelRun (now : LogicalTime) (tenant : TenantId) (run : RunId) (opId : OpId)
  | unparkShard (now : LogicalTime) (tenant : TenantId) (key : ShardKey) (opId : OpId)
  | claimNextAvailable (now : LogicalTime) (tenant : TenantId) (run : RunId) (worker : WorkerId)
deriving DecidableEq

inductive Response where
  | acquire (result : Except AcquireError AcquireResult)
  | renew (result : Except RenewError RenewResult)
  | shardOp (result : Except ShardOpError (IdempotentOutcome Unit))
  | splitReplace (result : Except SplitError (IdempotentOutcome SplitReplaceResult))
  | splitResidual (result : Except SplitError (IdempotentOutcome SplitResidualResult))
  | createRun (result : Except CreateRunError RunRecord)
  | registerShards (result : Except RegisterShardsError (IdempotentOutcome (List ShardId)))
  | createRunWithShards (result : Except CreateRunError (IdempotentOutcome RunRecord))
  | getRun (result : Except GetRunError RunRecord)
  | getRunProgress (result : Except GetRunError RunProgress)
  | listShards (result : Except GetRunError (List ShardSummary))
  | collectClaimCandidates (result : Except GetRunError (List ShardId × Option LogicalTime))
  | runTransition (result : Except RunTransitionError (IdempotentOutcome Unit))
  | unparkShard (result : Except UnparkError (IdempotentOutcome Unit))
  | claimNextAvailable (result : Except ClaimError AcquireResult)
deriving DecidableEq

/-! ## One step -/

def Prog.respond {σ : Type} (f : Except ε α → Response) (m : Prog σ Panic ε α) (s : σ) :
    Outcome Panic Empty (Response × σ) :=
  match m s with
  | .ok (a, s') => .ok (f (.ok a), s')
  | .err (e, s') => .ok (f (.error e), s')
  | .panic p => .panic p

def query {R : Type} (f : Tables R → Run ε α) (t : Tables R) : Run ε (α × Tables R) := do
  let a ← f t
  return (a, t)

/-- One call. A panic has no successor state. -/
def step (env : Env) (call : Call) : Coordinator → Outcome Panic Empty (Response × Coordinator) :=
  let tables {ε α : Type} (f : Reader PooledShardSpec PooledCursor PooledSpawned →
      Tables PooledRecord → Run ε (α × Tables PooledRecord)) : Op ε α :=
    Coordinator.onTables env.debug f
  match call with
  | .acquire now tenant key worker =>
    Prog.respond .acquire (tables (acquireAndRestoreInto env.debug now tenant key worker))
  | .renew now tenant lease => Prog.respond .renew (tables (renew env.debug now tenant lease))
  | .checkpoint now tenant lease newCursor opId =>
    Prog.respond .shardOp (checkpoint env now tenant lease newCursor opId)
  | .complete now tenant lease finalCursor opId =>
    Prog.respond .shardOp (complete env now tenant lease finalCursor opId)
  | .parkShard now tenant lease reason opId =>
    Prog.respond .shardOp (tables (parkShard env now tenant lease reason opId))
  | .splitReplace now tenant lease plan opId =>
    Prog.respond .splitReplace (splitReplace env now tenant lease plan opId)
  | .splitResidual now tenant lease plan opId =>
    Prog.respond .splitResidual (splitResidual env now tenant lease plan opId)
  | .createRun now tenant run config =>
    Prog.respond .createRun (tables fun _ => createRun now tenant run config)
  | .registerShards now tenant run shards opId =>
    Prog.respond .registerShards (registerShards env now tenant run shards opId)
  | .createRunWithShards now tenant run config shards opId =>
    Prog.respond .createRunWithShards (createRunWithShards env now tenant run config shards opId)
  | .getRun tenant run => Prog.respond .getRun (tables fun _ => query (getRun tenant run))
  | .getRunProgress now tenant run =>
    Prog.respond .getRunProgress (tables fun rd =>
      query (getRunProgress env.debug now tenant run rd))
  | .listShards now tenant run filter =>
    Prog.respond .listShards (tables fun rd => query (listShards now tenant run filter rd))
  | .collectClaimCandidates now tenant run =>
    Prog.respond .collectClaimCandidates (tables fun _ =>
      query (collectClaimCandidates now tenant run))
  | .completeRun now tenant run opId =>
    Prog.respond .runTransition (tables fun _ => completeRun env now tenant run opId)
  | .failRun now tenant run opId =>
    Prog.respond .runTransition (tables fun _ => failRun env now tenant run opId)
  | .cancelRun now tenant run opId =>
    Prog.respond .runTransition (tables fun _ => cancelRun env now tenant run opId)
  | .unparkShard now tenant key opId =>
    Prog.respond .unparkShard (tables (unparkShard env now tenant key opId))
  | .claimNextAvailable now tenant run worker =>
    Prog.respond .claimNextAvailable (tables (claimNextAvailable env.debug now tenant run worker))

/-! ## Runs -/

/-- The calls in order, with their responses; the run stops at the first panic. -/
def execute (env : Env) : List Call → Coordinator →
    Outcome Panic Empty (List Response × Coordinator)
  | [], s => return ([], s)
  | call :: rest, s => do
    let (response, s) ← step env call s
    let (responses, s) ← execute env rest s
    return (response :: responses, s)

inductive Reachable (env : Env) : Coordinator → Prop where
  | init {config : CoordinatorConfig} {ownerId : Nat} {s : Coordinator}
      (h : (Coordinator.withRuntimeConfig env config ownerId : Run Empty _) = .ok s) :
      Reachable env s
  | step {s s' : Coordinator} {call : Call} {response : Response} (hs : Reachable env s)
      (h : step env call s = .ok (response, s')) : Reachable env s'

/-- Runs from a fresh coordinator, with the calls made and their responses, oldest first. -/
inductive Trace (env : Env) : List (Call × Response) → Coordinator → Prop where
  | init {config : CoordinatorConfig} {ownerId : Nat} {s : Coordinator}
      (h : (Coordinator.withRuntimeConfig env config ownerId : Run Empty _) = .ok s) :
      Trace env [] s
  | step {trace : List (Call × Response)} {s s' : Coordinator} {call : Call} {response : Response}
      (ht : Trace env trace s) (h : step env call s = .ok (response, s')) :
      Trace env (trace ++ [(call, response)]) s'

theorem Trace.reachable (h : Trace env trace s) : Reachable env s := by
  induction h with
  | init hinit => exact .init hinit
  | step _ hstep ih => exact ih.step hstep

theorem Reachable.execute (hs : Reachable env s) (h : execute env calls s = .ok (responses, s')) :
    Reachable env s' := by
  induction calls generalizing s responses with
  | nil =>
    cases h
    exact hs
  | cons call rest ih =>
    obtain ⟨⟨_, _⟩, h1, h⟩ := Outcome.bind_eq_ok.mp h
    obtain ⟨⟨_, _⟩, h2, h⟩ := Outcome.bind_eq_ok.mp h
    cases h
    exact ih (hs.step h1) h2

/-! ## A small coordinator

Eight shards at most, five for one tenant, one kilobyte of slab, and a toy digest. -/

namespace Demo

def digest (bytes : Bytes) : UInt64 :=
  UInt64.ofNat (bytes.foldl (fun acc b => (acc * 1099511628211 + b.toNat + 1) % 2 ^ 64)
    1469598103934665603)

def env : Env := ⟨false, digest, digest⟩

def config : CoordinatorConfig :=
  ⟨10, 5, 8, 0, 1024, by decide, by decide, by decide, by decide, by decide⟩

def tenant : TenantId := ⟨1⟩
def run : RunId := ⟨7⟩
def worker : WorkerId := ⟨5⟩
def runConfig : RunConfig := ⟨.completed, 10, none, by decide⟩

def fresh : Coordinator :=
  ⟨⟨config, ∅, 0, ∅, ∅, ∅⟩,
    ⟨fun _ => 0, 0, 1024, [], freeListMetadataCapacity 1024, 0, 0, 0, 3⟩⟩

theorem fresh_eq : (Coordinator.withRuntimeConfig env config 3 : Run Empty _) = .ok fresh := rfl

theorem reachable_fresh : Reachable env fresh := .init fresh_eq

end Demo

end GossipRs
