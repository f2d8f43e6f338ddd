import GossipRs.Abstract.Records
import GossipRs.Refinement.Step

/-! Shards along a run of the coordinator. A stored record stays, unchanged or by the step its label
names, and what every step keeps every sequence of calls keeps. -/

namespace GossipRs

open Lib Stdx Outcome List

variable {env : Env} {s s' : Coordinator}

theorem View.Opened.getShard (h : View.Opened env call t t1) (tenant) (key : ShardKey) :
    t1.getShard tenant key = t.getShard tenant key := by
  rcases h with rfl | ⟨_, _, _, _, _, _, -, hc⟩
  · rfl
  · cases hc
    rfl

theorem trace_split {after} (h : Trace env (before ++ (call, response) :: after) s) :
    ∃ s0 s1, Trace env before s0 ∧ step env call s0 = .ok (response, s1) := by
  generalize htr : before ++ (call, response) :: after = trace at h
  induction h generalizing after with
  | init hinit => exact absurd htr (by simp)
  | @step trace s0 s1 call' response' ht hs ih =>
    rcases eq_nil_or_concat after with rfl | ⟨_, _, rfl⟩
    · obtain ⟨rfl, hl⟩ := append_inj' htr rfl
      cases hl
      exact ⟨s0, s1, ht, hs⟩
    rw [concat_eq_append, ← cons_append, ← append_assoc] at htr
    obtain ⟨hr, -⟩ := append_inj' htr rfl
    exact ih hr

theorem trace_execute (h : Trace env trace s) (hru : execute env calls s = .ok (responses, s')) :
    Trace env (trace ++ calls.zip responses) s' := by
  induction calls generalizing s trace responses with
  | nil =>
    cases hru
    rw [zip_nil_left, append_nil]
    exact h
  | cons call rest ih =>
    obtain ⟨⟨_, _⟩, h1, hru⟩ := bind_eq_ok.mp hru
    obtain ⟨⟨_, _⟩, h2, hru⟩ := bind_eq_ok.mp hru
    cases hru
    have hr := ih (h.step h1) h2
    rw [append_assoc, singleton_append] at hr
    exact hr

theorem step_successor (hs : Reachable env s) (hst : step env call s = .ok (response, s'))
    (hg : s.view.getShard tenant key = some r) :
    ∃ r', s'.view.getShard tenant key = some r' ∧
      ((r' = r ∧ ∀ event, call.label response ≠ .shard tenant key event) ∨
        ∃ event, call.label response = .shard tenant key event ∧
          RecordStep env tenant key r event r') := by
  obtain ⟨_, ho, he⟩ := View.Steps.effect (step_ok hs.coherent hst).2.2
  exact he.successor ((ho.getShard tenant key).trans hg)

theorem step_labelled (hs : Reachable env s) (hst : step env call s = .ok (response, s'))
    (hl : call.label response = .shard tenant key event) :
    ∃ r r', s.view.getShard tenant key = some r ∧ s'.view.getShard tenant key = some r' ∧
      RecordStep env tenant key r event r' := by
  obtain ⟨t1, ho, he⟩ := View.Steps.effect (step_ok hs.coherent hst).2.2
  have hp : ∃ r, t1.getShard tenant key = some r := by
    rw [hl] at he
    generalize s'.view = t' at he
    cases he with
    | inPlace cooldowns hg hr hchildren | split hg hr hsplit => exact ⟨_, hg⟩
  obtain ⟨r, hg⟩ := hp
  rw [ho.getShard tenant key] at hg
  obtain ⟨r', hg', ⟨-, hot⟩ | ⟨_, hl', hr⟩⟩ := step_successor hs hst hg
  · exact absurd hl (hot event)
  rw [hl] at hl'
  cases hl'
  exact ⟨r, r', hg, hg', hr⟩

theorem label_checkpoint
    (h : (Call.checkpoint now tenant lease cursor opId).label response = .shard tenant' key event) :
    event = .checkpointed now lease cursor opId := by
  cases response with
  | shardOp result =>
    cases result with
    | error e => cases h
    | ok outcome =>
      cases outcome with
      | executed value =>
        obtain ⟨-, -, rfl⟩ := Label.shard.inj h
        rfl
      | replayed value => cases h
  | _ => cases h

/-- What every allowed step of a record keeps, every sequence of calls with no other steps keeps. -/
theorem execute_allowed {P : ShardEvent → Prop} {R : RecordView → RecordView → Prop}
    (hr : ∀ r, R r r) (ht : ∀ {a b c}, R a b → R b c → R a c)
    (hre : ∀ {r r' event}, P event → RecordStep env tenant key r event r' → R r r')
    (hs : Reachable env s) (hru : execute env calls s = .ok (responses, s'))
    (ha : ∀ e ∈ calls.zip responses, ∀ event, e.1.label e.2 = .shard tenant key event →
      P event) (hg : s.view.getShard tenant key = some r) :
    ∃ r', s'.view.getShard tenant key = some r' ∧ R r r' := by
  induction calls generalizing s responses r with
  | nil =>
    cases hru
    exact ⟨r, hg, hr r⟩
  | cons call rest ih =>
    obtain ⟨⟨response, _⟩, h1, hru⟩ := bind_eq_ok.mp hru
    obtain ⟨⟨_, _⟩, h2, hru⟩ := bind_eq_ok.mp hru
    cases hru
    obtain ⟨_, hg1, hr1⟩ := step_successor hs h1 hg
    obtain ⟨r2, hg2, hr2⟩ :=
      ih (hs.step h1) h2 (fun e he => ha e (mem_cons_of_mem _ he)) hg1
    refine ⟨r2, hg2, ht ?_ hr2⟩
    rcases hr1 with ⟨rfl, -⟩ | ⟨event, hl, hst⟩
    · exact hr _
    · exact hre (ha (call, response) mem_cons_self event hl) hst

theorem execute_successor {R : RecordView → RecordView → Prop} (hre : ∀ r, R r r)
    (ht : ∀ {a b c}, R a b → R b c → R a c) (tenant) (key : ShardKey)
    (hr : ∀ {r r' event}, RecordStep env tenant key r event r' → R r r') (hs : Reachable env s)
    (hru : execute env calls s = .ok (responses, s'))
    (hg : s.view.getShard tenant key = some r) :
    ∃ r', s'.view.getShard tenant key = some r' ∧ R r r' :=
  execute_allowed (P := fun _ => True) hre ht (fun _ => hr) hs hru (fun _ _ _ _ => trivial) hg

/-! ## A leased shard -/

namespace Demo

def root : InitialShardInput := ⟨⟨3⟩, ⟨[1], [9], []⟩, CursorUpdate.initial⟩
def rootKey : ShardKey := ⟨run, ⟨3⟩⟩
theorem initial_le_two : FenceEpoch.initial ≤ 2 := by decide

theorem twelve_pos : (0 : LogicalTime) < 12 := by decide

def rootLease : Lease := ⟨tenant, run, ⟨3⟩, worker, 2, 12, initial_le_two, twelve_pos⟩

def leased : List Call :=
  [.createRunWithShards 1 tenant run runConfig [root] ⟨1⟩, .acquire 2 tenant rootKey worker]

end Demo

end GossipRs
