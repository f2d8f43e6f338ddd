import GossipRs.Properties.ResidualReplay
import GossipRs.Properties.CursorProgress

/-! Checkpoints delivered twice. Once the op log has forgotten a checkpoint, only the cursor check
stands between a late duplicate and the stored cursor. It refuses smaller keys, but at the same key
lets an older token replace a newer one. -/

namespace GossipRs

open Lib Stdx

variable {env : Env} {s s₁ s₂ s₃ : Coordinator} {tenant : TenantId} {key : ShardKey}
  {r r' : RecordView} {event : ShardEvent} {cursor : CursorUpdate}

def ShardEvent.storedCursor : ShardEvent → Option CursorUpdate
  | .checkpointed _ _ cursor _ | .completed _ _ cursor _ => some cursor
  | _ => none

theorem RecordStep.cursor_eq (h : RecordStep env tenant key r event r') :
    r'.cursor = event.storedCursor.elim r.cursor CursorUpdate.value := by
  cases h with
  | granted | renewed => rfl
  | checkpointed _ _ hlog | completed _ _ hlog | parked _ hlog | unparked _ _ _ hlog
  | splitReplaced _ hlog | splitResidual _ _ hlog =>
    obtain ⟨entry, rfl⟩ := hlog.eq
    rfl

def RecordView.Past (cursor : CursorUpdate) (r : RecordView) : Prop :=
  KeyLe cursor.lastKey r.cursor.lastKey ∧
    (r.cursor.lastKey = cursor.lastKey → r.cursor = cursor.value)

def ShardEvent.KeepsToken (cursor : CursorUpdate) (event : ShardEvent) : Prop :=
  ∀ stored, event.storedCursor = some stored → stored.lastKey = cursor.lastKey → stored = cursor

theorem RecordStep.past (h : RecordStep env tenant key r event r')
    (he : event.KeepsToken cursor) (hr : r.Past cursor) : r'.Past cursor := by
  refine ⟨hr.1.trans h.keyLe, fun hk => ?_⟩
  have hc := h.cursor_eq
  cases hs : event.storedCursor with
  | none =>
    rw [hs] at hc
    rw [hc] at hk ⊢
    exact hr.2 hk
  | some stored =>
    rw [hs] at hc
    rw [hc] at hk ⊢
    rw [he stored hs hk]
    rfl

theorem KeyLe.antisymm (hab : KeyLe a b) (hba : KeyLe b a) : a = b := by
  cases a with
  | none =>
    cases b with
    | none => rfl
    | some key =>
      obtain ⟨_, hn, -⟩ := hba key rfl
      cases hn
  | some key =>
    obtain ⟨key1, hb, hl⟩ := hab key rfl
    cases hb
    obtain ⟨_, ha, hl'⟩ := hba key1 rfl
    cases ha
    rw [le_antisymm hl hl']

/-- **A late duplicate of a checkpoint leaves the cursor as it is**, as long as no other token was
stored at its key in the meantime. It may be answered from the op log, refused or executed again. -/
theorem checkpoint_redelivery (hs : Reachable env s) {now : LogicalTime} {lease : Lease}
    {opId : OpId} {value : Unit}
    (hfirst : step env (.checkpoint now tenant lease cursor opId) s =
      .ok (.shardOp (.ok (.executed value)), s₁))
    {calls : List Call} {responses : List Response}
    (hrun : execute env calls s₁ = .ok (responses, s₂))
    (htoken : ∀ e ∈ calls.zip responses, ∀ event,
      e.1.label e.2 = .shard tenant lease.shardKey event → event.KeepsToken cursor)
    {now' : LogicalTime} {lease' : Lease} {response : Response}
    (hagain : step env (.checkpoint now' tenant lease' cursor opId) s₂ = .ok (response, s₃)) :
    ∃ r₂ r₃, s₂.view.getShard tenant lease.shardKey = some r₂ ∧
      s₃.view.getShard tenant lease.shardKey = some r₃ ∧ r₃.cursor = r₂.cursor := by
  obtain ⟨r, r₁, -, hget₁, hrecord⟩ := step_labelled hs hfirst rfl
  have hpast : r₁.Past cursor := by
    have hcursor : r₁.cursor = cursor.value := hrecord.cursor_eq
    rw [RecordView.Past, hcursor]
    exact ⟨.refl _, fun _ => rfl⟩
  obtain ⟨r₂, hget₂, hkept⟩ := execute_allowed (R := fun r r' => r.Past cursor → r'.Past cursor)
    (fun _ h => h) (fun hab hbc h => hbc (hab h)) (fun hevent hstep h => hstep.past hevent h)
    (hs.step hfirst) hrun htoken hget₁
  have hreach := (hs.step hfirst).execute hrun
  obtain ⟨r₃, hget₃, ⟨rfl, -⟩ | ⟨event, hlabel, hstep⟩⟩ := step_successor hreach hagain hget₂
  · exact ⟨r₃, r₃, hget₂, hget₃, rfl⟩
  refine ⟨r₂, r₃, hget₂, hget₃, ?_⟩
  have hevent := label_checkpoint hlabel
  have hcursor : r₃.cursor = cursor.value := by
    rw [hstep.cursor_eq, hevent]
    rfl
  -- it was accepted, so the stored key is not past its own
  have hback : KeyLe r₂.cursor.lastKey cursor.lastKey := by
    have hle := hstep.keyLe
    rwa [hcursor] at hle
  obtain ⟨hforward, hsame⟩ := hkept hpast
  rw [hcursor, hsame (hback.antisymm hforward)]

namespace Demo

theorem two_ne_nil : ([2] : Bytes) ≠ [] := List.cons_ne_nil _ _

def tokenCheckpoint (token : UInt8) (opId : UInt64) : Call :=
  .checkpoint 3 Demo.tenant rootLease (.withToken [2] [token] two_ne_nil) ⟨opId⟩

def tokens : List Call :=
  leased ++ tokenCheckpoint 7 50 :: (List.range 16).map fun i =>
    tokenCheckpoint 8 (.ofNat (100 + i))

def storedToken (s : Coordinator) : Option Bytes :=
  (s.view.getShard Demo.tenant rootKey).bind fun r => r.cursor.token

end Demo

/-- The duplicate of the first checkpoint brings its token back. -/
theorem checkpoint_redelivery_reverts :
    (execute Demo.env Demo.tokens Demo.fresh).okAnd (fun r =>
      decide (Demo.storedToken r.2 = some [8]) &&
        (step Demo.env (Demo.tokenCheckpoint 7 50) r.2).okAnd fun r' =>
          decide (Demo.storedToken r'.2 = some [7])) = true := by
  decide +kernel

namespace Demo

theorem three_ne_nil : ([3] : Bytes) ≠ [] := List.cons_ne_nil _ _

/-- Sixteen checkpoints further on, each with a token of its own. -/
def onward : List Call :=
  (List.range 16).map fun i => .checkpoint 3 Demo.tenant rootLease
    (.withToken [3] [UInt8.ofNat i] three_ne_nil) ⟨UInt64.ofNat (100 + i)⟩

theorem keepsToken_onward :
    ∀ e ∈ onward.zip responses, ∀ event,
      e.1.label e.2 = .shard Demo.tenant rootLease.shardKey event →
        event.KeepsToken (.withToken [2] [7] two_ne_nil) := by
  rintro ⟨_, _⟩ he event hl stored hs hk
  obtain ⟨i, -, rfl⟩ := List.mem_map.mp (List.of_mem_zip he).1
  rw [label_checkpoint hl] at hs
  cases hs
  exact absurd (Option.some.inj hk) (by decide)

def logged (s : Coordinator) (opId : OpId) : Bool :=
  (s.view.getShard Demo.tenant rootKey).any fun r => r.opLog.any fun e => e.opId == opId

end Demo

/-- The duplicate of a checkpoint that sixteen others have pushed out of the op log: it is refused,
and the cursor stays at the last of the sixteen. -/
theorem checkpoint_redelivery_evicted : ∃ s₂ s₃ response r₂ r₃,
    Demo.logged s₂ ⟨50⟩ = false ∧ Demo.storedToken s₂ = some [15] ∧
    step Demo.env (Demo.tokenCheckpoint 7 50) s₂ = .ok (response, s₃) ∧ response.isError = true ∧
      s₂.view.getShard Demo.tenant Demo.rootKey = some r₂ ∧
      s₃.view.getShard Demo.tenant Demo.rootKey = some r₃ ∧ r₃.cursor = r₂.cursor := by
  have hrun : (execute Demo.env Demo.leased Demo.fresh).okAnd (fun r =>
      (step Demo.env (Demo.tokenCheckpoint 7 50) r.2).okAnd fun r₁ =>
        decide (r₁.1 = .shardOp (.ok (.executed ()))) &&
        (execute Demo.env Demo.onward r₁.2).okAnd fun r₂ =>
          (!Demo.logged r₂.2 ⟨50⟩ && decide (Demo.storedToken r₂.2 = some [15])) &&
          (step Demo.env (Demo.tokenCheckpoint 7 50) r₂.2).okAnd fun r₃ =>
            r₃.1.isError) = true := by
    decide +kernel
  obtain ⟨⟨_, _⟩, hleased, hrun⟩ := Outcome.exists_of_okAnd hrun
  obtain ⟨⟨response, s₁⟩, hfirst, hrun⟩ := Outcome.exists_of_okAnd hrun
  obtain ⟨hexecuted, hrun⟩ := Bool.and_eq_true_iff.mp hrun
  obtain ⟨⟨_, s₂⟩, hmore, hrun⟩ := Outcome.exists_of_okAnd hrun
  obtain ⟨hstate, hrun⟩ := Bool.and_eq_true_iff.mp hrun
  obtain ⟨hevicted, htoken⟩ := Bool.and_eq_true_iff.mp hstate
  obtain ⟨⟨response', s₃⟩, hagain, herror⟩ := Outcome.exists_of_okAnd hrun
  cases of_decide_eq_true hexecuted
  obtain ⟨r₂, r₃, hget₂, hget₃, hcursor⟩ := checkpoint_redelivery
    ((Reachable.init Demo.fresh_eq).execute hleased) hfirst hmore Demo.keepsToken_onward hagain
  exact ⟨s₂, s₃, response', r₂, r₃, Bool.not_eq_true' _ ▸ hevicted, of_decide_eq_true htoken,
    hagain, herror, hget₂, hget₃, hcursor⟩

end GossipRs
