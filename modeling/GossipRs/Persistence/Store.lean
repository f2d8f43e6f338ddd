import GossipRs.Persistence.DoneLedger
import GossipRs.Lib.FiniteMap

/-! The in-memory store core (`gossip-persistence-inmemory/store.rs`): pending writes, release order
and injected faults, over a backend that says how a payload is applied. Each call also yields the
payloads applied in it, so that a run carries the list of what was committed. -/

namespace GossipRs.Persistence

open Lib

inductive InMemoryStoreKind where
  | doneLedger
  | findings
deriving DecidableEq

inductive CompletionOrder where
  | oldestFirst
  | newestFirst
deriving DecidableEq

def CompletionOrder.arrange {α : Type} : CompletionOrder → List α → List α
  | .oldestFirst, queue => queue
  | .newestFirst, queue => queue.reverse

abbrev FindingId := BitVec 256

abbrev OccurrenceId := BitVec 256

abbrev ObservationId := BitVec 256

inductive InMemoryPersistenceError where
  | injectedSubmissionFailure (store : InMemoryStoreKind)
  | injectedCommitFailure (store : InMemoryStoreKind)
  | unknownOperation (store : InMemoryStoreKind) (opId : Nat)
  | missingFinding (tenantId : TenantId) (findingId : FindingId) (occurrenceId : OccurrenceId)
  | missingOccurrence (tenantId : TenantId) (occurrenceId : OccurrenceId)
      (observationId : ObservationId)
  | findingConflict (tenantId : TenantId) (findingId : FindingId)
  | occurrenceConflict (tenantId : TenantId) (occurrenceId : OccurrenceId)
  | observationConflict (tenantId : TenantId) (observationId : ObservationId)
  | batchValidation (err : PersistenceInputError)
deriving DecidableEq

/-- `StoreBackend`: how a payload is applied to the durable state, with the injected commit
failures. -/
structure StoreBackend (Payload Receipt Durable : Type) where
  kind : InMemoryStoreKind
  apply : Durable → Nat → Payload → Except InMemoryPersistenceError Receipt × Durable × Nat

inductive PendingState (Receipt : Type) where
  | pending
  | finished (result : Option (Except InMemoryPersistenceError Receipt))

def PendingState.isPending {Receipt : Type} : PendingState Receipt → Bool
  | .pending => true
  | .finished _ => false

structure PendingOp (Payload Receipt : Type) where
  payload : Payload
  state : PendingState Receipt

structure StoreState (Payload Receipt Durable : Type) where
  durable : Durable
  ops : FMap Nat (PendingOp Payload Receipt)
  order : List Nat
  nextOpId : Nat
  autoComplete : Bool
  delayNext : Nat
  failSubmitRemaining : Nat
  failCommitRemaining : Nat

def saturatingCount (n count : Nat) : Nat := min (n + count) (2 ^ 64 - 1)

namespace StoreState

variable {P R D : Type} (B : StoreBackend P R D)

def withAutoComplete (durable : D) (autoComplete : Bool) : StoreState P R D :=
  ⟨durable, ∅, [], 1, autoComplete, 0, 0, 0⟩

def applyOp (s : StoreState P R D) (opId : Nat) (payload : P) : StoreState P R D × List P :=
  let r := B.apply s.durable s.failCommitRemaining payload
  ({ s with
      durable := r.2.1
      failCommitRemaining := r.2.2
      ops := s.ops.insert opId ⟨payload, .finished (some r.1)⟩ },
    match r.1 with
    | .ok _ => [payload]
    | .error _ => [])

def finishOp (s : StoreState P R D) (opId : Nat) :
    Except InMemoryPersistenceError Unit × StoreState P R D × List P :=
  match s.ops.lookup opId with
  | none => (.error (.unknownOperation B.kind opId), s, [])
  | some op => if op.state.isPending then (.ok (), applyOp B s opId op.payload) else (.ok (), s, [])

def pendingAt (s : StoreState P R D) (opId : Nat) : Bool :=
  match s.ops.lookup opId with
  | some op => op.state.isPending
  | none => false

/-- The first pending operation of a queue, with what is left of the queue. -/
def nextPending (s : StoreState P R D) : List Nat → Option (Nat × List Nat)
  | [] => none
  | opId :: rest => if s.pendingAt opId then some (opId, rest) else nextPending s rest

/-- `release_next`. The entries it passes are stale. -/
def releaseNext (s : StoreState P R D) (order : CompletionOrder) :
    Except InMemoryPersistenceError (Option Nat) × StoreState P R D × List P :=
  match s.nextPending (order.arrange s.order) with
  | none => (.ok none, { s with order := [] }, [])
  | some (opId, rest) =>
    let r := finishOp B { s with order := order.arrange rest } opId
    (r.1.map fun _ => some opId, r.2)

def releaseSpecific (s : StoreState P R D) (opId : Nat) :
    Except InMemoryPersistenceError Bool × StoreState P R D × List P :=
  if s.pendingAt opId then
    let r := finishOp B s opId
    match r.1 with
    | .error err => (.error err, r.2)
    | .ok () => (.ok true, { r.2.1 with order := r.2.1.order.filter (· ≠ opId) }, r.2.2)
  else (.ok false, s, [])

def finishAll (s : StoreState P R D) :
    List Nat → Except InMemoryPersistenceError Unit × StoreState P R D × List P
  | [] => (.ok (), s, [])
  | opId :: rest =>
    let r := finishOp B s opId
    match r.1 with
    | .error err => (.error err, r.2)
    | .ok () =>
      let t := finishAll r.2.1 rest
      (t.1, t.2.1, r.2.2 ++ t.2.2)

def releaseAll (s : StoreState P R D) (order : CompletionOrder) :
    Except InMemoryPersistenceError Nat × StoreState P R D × List P :=
  let pending := order.arrange (s.order.filter s.pendingAt)
  let r := finishAll B s pending
  match r.1 with
  | .error err => (.error err, r.2)
  | .ok () =>
    (.ok pending.length,
      { r.2.1 with order := r.2.1.order.filter fun id => !pending.contains id }, r.2.2)

/-- `submit`: the injected fault, a fresh id, then the queue or the backend. -/
def submit (s : StoreState P R D) (payload : P) :
    Except InMemoryPersistenceError Nat × StoreState P R D × List P :=
  if 0 < s.failSubmitRemaining then
    (.error (.injectedSubmissionFailure B.kind),
      { s with failSubmitRemaining := s.failSubmitRemaining - 1 }, [])
  else
    let opId := s.nextOpId
    if 2 ^ 64 ≤ opId + 1 then (.error (.injectedSubmissionFailure B.kind), s, [])
    else
      let s := { s with nextOpId := opId + 1 }
      let shouldDelay := 0 < s.delayNext ∨ s.autoComplete = false
      let s := { s with delayNext := s.delayNext - 1 }
      if shouldDelay then
        (.ok opId,
          { s with order := s.order ++ [opId], ops := s.ops.insert opId ⟨payload, .pending⟩ }, [])
      else
        let r := applyOp B s opId payload
        (.ok opId, r)

/-- `wait` on a handle. A pending operation blocks. -/
def wait (s : StoreState P R D) (opId : Nat) :
    Option (Except InMemoryPersistenceError R × StoreState P R D) :=
  match s.ops.lookup opId with
  | none => some (.error (.unknownOperation B.kind opId), s)
  | some op =>
    match op.state with
    | .pending => none
    | .finished none => some (.error (.unknownOperation B.kind opId),
      { s with ops := s.ops.erase opId })
    | .finished (some result) => some (result, { s with ops := s.ops.erase opId })

end StoreState

inductive StoreCall (P : Type) where
  | setAutoComplete (autoComplete : Bool)
  | delayNextWrites (count : Nat)
  | failNextSubmissions (count : Nat)
  | failNextCommits (count : Nat)
  | releaseNext (order : CompletionOrder)
  | releaseSpecific (opId : Nat)
  | releaseAll (order : CompletionOrder)
  | submit (payload : P)
  | wait (opId : Nat)

section Run

variable {P R D : Type} (B : StoreBackend P R D)

def storeStep (s : StoreState P R D) : StoreCall P → Option (StoreState P R D × List P)
  | .setAutoComplete autoComplete => some ({ s with autoComplete }, [])
  | .delayNextWrites count =>
    some ({ s with delayNext := saturatingCount s.delayNext count }, [])
  | .failNextSubmissions count =>
    some ({ s with failSubmitRemaining := saturatingCount s.failSubmitRemaining count }, [])
  | .failNextCommits count =>
    some ({ s with failCommitRemaining := saturatingCount s.failCommitRemaining count }, [])
  | .releaseNext order => some (s.releaseNext B order).2
  | .releaseSpecific opId => some (s.releaseSpecific B opId).2
  | .releaseAll order => some (s.releaseAll B order).2
  | .submit payload => some (s.submit B payload).2
  | .wait opId => (s.wait B opId).map fun r => (r.2, [])

inductive StoreRun (durable : D) : List P → StoreState P R D → Prop
  | new (autoComplete : Bool) : StoreRun durable [] (.withAutoComplete durable autoComplete)
  | step {log committed : List P} {s s' : StoreState P R D} (call : StoreCall P) :
      StoreRun durable log s → storeStep B s call = some (s', committed) →
      StoreRun durable (log ++ committed) s'

/-- The durable state after some payloads were applied, listing those that succeeded. -/
inductive Applies : D → List P → D → Prop
  | refl (d : D) : Applies d [] d
  | ok {d d₁ d₂ : D} {log : List P} {n n' : Nat} {p : P} {r : R} :
      Applies d log d₁ → B.apply d₁ n p = (.ok r, d₂, n') → Applies d (log ++ [p]) d₂
  | fail {d d₁ d₂ : D} {log : List P} {n n' : Nat} {p : P} {err : InMemoryPersistenceError} :
      Applies d log d₁ → B.apply d₁ n p = (.error err, d₂, n') → Applies d log d₂

variable {B}

theorem Applies.trans (h : Applies B d log d1) (h' : Applies B d1 log' d2) :
    Applies B d (log ++ log') d2 := by
  induction h' with
  | refl => rwa [List.append_nil]
  | ok _ happly ih =>
    rw [← List.append_assoc]
    exact .ok ih happly
  | fail _ happly ih => exact .fail ih happly

theorem applyOp_applies (s : StoreState P R D) (opId : Nat) (payload : P) :
    Applies B s.durable (s.applyOp B opId payload).2 (s.applyOp B opId payload).1.durable := by
  rw [StoreState.applyOp]
  cases hr : (B.apply s.durable s.failCommitRemaining payload).1 with
  | ok r =>
    exact .ok (.refl _) (Prod.ext hr rfl)
  | error err => exact .fail (.refl _) (Prod.ext hr rfl)

theorem finishOp_applies (s : StoreState P R D) (opId : Nat) :
    Applies B s.durable (s.finishOp B opId).2.2 (s.finishOp B opId).2.1.durable := by
  rw [StoreState.finishOp]
  split
  · exact .refl _
  split
  · exact applyOp_applies s opId _
  · exact .refl _

theorem finishAll_applies (s : StoreState P R D) (opIds : List Nat) :
    Applies B s.durable (s.finishAll B opIds).2.2 (s.finishAll B opIds).2.1.durable := by
  induction opIds generalizing s with
  | nil => exact .refl _
  | cons opId rest ih =>
    rw [StoreState.finishAll]
    split
    · exact finishOp_applies s opId
    · exact (finishOp_applies s opId).trans (ih _)

theorem storeStep_applies (h : storeStep B s call = some (s', committed)) :
    Applies B s.durable committed s'.durable := by
  cases call with
  | setAutoComplete autoComplete
  | delayNextWrites count | failNextSubmissions count | failNextCommits count =>
    cases h
    exact .refl _
  | releaseNext order =>
    obtain ⟨rfl, rfl⟩ := Prod.mk.inj (Option.some.inj h)
    rw [StoreState.releaseNext]
    split
    · exact .refl _
    next opId rest _ =>
      exact finishOp_applies { s with order := order.arrange rest } opId
  | releaseSpecific opId =>
    obtain ⟨rfl, rfl⟩ := Prod.mk.inj (Option.some.inj h)
    rw [StoreState.releaseSpecific]
    split
    · dsimp only
      split
      · exact finishOp_applies s opId
      · exact finishOp_applies s opId
    · exact .refl _
  | releaseAll order =>
    obtain ⟨rfl, rfl⟩ := Prod.mk.inj (Option.some.inj h)
    rw [StoreState.releaseAll]
    split
    · exact finishAll_applies s _
    · exact finishAll_applies s _
  | submit payload =>
    obtain ⟨rfl, rfl⟩ := Prod.mk.inj (Option.some.inj h)
    rw [StoreState.submit]
    split
    · exact .refl _
    dsimp only
    split
    · exact .refl _
    split
    · exact .refl _
    · exact applyOp_applies { s with nextOpId := s.nextOpId + 1, delayNext := s.delayNext - 1 }
        s.nextOpId payload
  | wait opId =>
    obtain ⟨r, hr, he⟩ := Option.map_eq_some_iff.mp h
    obtain ⟨rfl, rfl⟩ := Prod.mk.inj he
    have hd : r.2.durable = s.durable := by
      rw [StoreState.wait] at hr
      split at hr
      · cases hr
        rfl
      split at hr
      · cases hr
      · cases hr
        rfl
      · cases hr
        rfl
    rw [hd]
    exact .refl _

theorem StoreRun.applies (h : StoreRun B durable log s) : Applies B durable log s.durable := by
  induction h with
  | new autoComplete => exact .refl _
  | step call _ hstep ih => exact ih.trans (storeStep_applies hstep)

structure Prompt (s : StoreState P R D) : Prop where
  auto : s.autoComplete = true
  delay : s.delayNext = 0

/-- On a store that delays nothing a submission is refused, or applied at once and waiting on it
returns what the backend returned. -/
theorem submit_prompt (hs : Prompt s) (payload : P) :
    (∃ err s', s.submit B payload = (.error err, s', []) ∧ s'.durable = s.durable ∧ Prompt s') ∨
    ∃ opId s' committed result n s'', s.submit B payload = (.ok opId, s', committed) ∧
      B.apply s.durable s.failCommitRemaining payload = (result, s'.durable, n) ∧
      s'.wait B opId = some (result, s'') ∧ s''.durable = s'.durable ∧ Prompt s'' := by
  rw [StoreState.submit]
  split
  · exact .inl ⟨_, _, rfl, rfl, ⟨hs.auto, hs.delay⟩⟩
  dsimp only
  split
  · exact .inl ⟨_, s, rfl, rfl, hs⟩
  rw [if_neg]
  · refine .inr ⟨s.nextOpId, _, _, _, _, ?_, rfl, rfl, ?_, ?_, ?_⟩
    · exact { ((s.applyOp B s.nextOpId payload).1) with
        nextOpId := s.nextOpId + 1
        delayNext := s.delayNext - 1
        ops := (s.applyOp B s.nextOpId payload).1.ops.erase s.nextOpId }
    · rw [StoreState.wait, StoreState.applyOp]
      dsimp only
      rw [Finmap.lookup_insert]
    · rfl
    · refine ⟨hs.auto, ?_⟩
      rw [hs.delay]
  · rw [hs.auto, hs.delay]
    decide

end Run

end GossipRs.Persistence
