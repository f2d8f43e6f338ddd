import GossipRs.Contracts.Identity

/-! Shard specifications: half-open key ranges with metadata, and the checks that a split partitions
its parent's range. Empty bounds are unbounded. -/

namespace GossipRs

open Lib Outcome List

def maxKeySize : Nat := 4096
def maxMetadataSize : Nat := 16384
def maxSplitChildren : Nat := 256
def maxSpawnedPerShard : Nat := 1024

inductive CursorSemantics where
  | completed
  | dispatched
deriving DecidableEq, Repr

structure ShardSpec where
  keyRangeStart : Bytes
  keyRangeEnd : Bytes
  metadata : Bytes
deriving DecidableEq, Repr

inductive ShardSpecInputError where
  | invertedRange (startLen endLen : Nat)
  | keyTooLarge (size max : Nat)
  | metadataTooLarge (size max : Nat)
deriving DecidableEq, Repr

inductive ShardLimitScope where
  | perTenant
  | global
deriving DecidableEq, Repr

inductive SplitValidationError where
  | noChildren
  | singleChild
  | startMismatch (parentStart firstChildStart : Nat)
  | endMismatch (parentEnd lastChildEnd : Nat)
  | boundaryMismatch (childIndex nextChildIndex childEnd nextChildStart : Nat)
  | invertedChild (childIndex : Nat)
  | overlappingChild (childIndex nextChildIndex : Nat)
  | parentCursorOutOfBounds (cursor newParentStart newParentEnd : Nat)
  | spawnLimitExceeded (current additional max : Nat)
  | shardLimitExceeded (current additional max : Nat) (scope : ShardLimitScope)
  | derivedIdCollision (derivedId : ShardId)
  | invalidChildSpec (childIndex : Nat)
deriving DecidableEq, Repr

namespace ShardSpec

/-- Membership in the half-open range, with empty bounds unbounded. -/
def containsKey (spec : ShardSpec) (key : Bytes) : Prop :=
  (spec.keyRangeStart = [] ∨ spec.keyRangeStart ≤ key) ∧
    (spec.keyRangeEnd = [] ∨ key < spec.keyRangeEnd)

instance (spec : ShardSpec) (key : Bytes) : Decidable (spec.containsKey key) :=
  inferInstanceAs (Decidable (_ ∧ _))

def Inverted (spec : ShardSpec) : Prop :=
  spec.keyRangeStart ≠ [] ∧ spec.keyRangeEnd ≠ [] ∧ spec.keyRangeEnd ≤ spec.keyRangeStart

instance (spec : ShardSpec) : Decidable spec.Inverted := inferInstanceAs (Decidable (_ ∧ _ ∧ _))

def validateRef (spec : ShardSpec) : Run ShardSpecInputError Unit := do
  Outcome.ensure (spec.keyRangeStart.length ≤ maxKeySize)
    (.keyTooLarge spec.keyRangeStart.length maxKeySize)
  Outcome.ensure (spec.keyRangeEnd.length ≤ maxKeySize)
    (.keyTooLarge spec.keyRangeEnd.length maxKeySize)
  Outcome.ensure (spec.metadata.length ≤ maxMetadataSize)
    (.metadataTooLarge spec.metadata.length maxMetadataSize)
  Outcome.ensure (¬ spec.Inverted)
    (.invertedRange spec.keyRangeStart.length spec.keyRangeEnd.length)

structure Valid (spec : ShardSpec) : Prop where
  start_le : spec.keyRangeStart.length ≤ maxKeySize
  end_le : spec.keyRangeEnd.length ≤ maxKeySize
  metadata_le : spec.metadata.length ≤ maxMetadataSize
  not_inverted : ¬ spec.Inverted

theorem validateRef_eq_ok {spec : ShardSpec} {u} : spec.validateRef = .ok u ↔ spec.Valid := by
  simp only [validateRef, bind_eq_ok, ensure_eq_ok]
  constructor
  · rintro ⟨_, h1, _, h2, _, h3, h4⟩
    exact ⟨h1, h2, h3, h4⟩
  · rintro ⟨h1, h2, h3, h4⟩
    exact ⟨(), h1, (), h2, (), h3, h4⟩

theorem noPanic_validateRef (spec : ShardSpec) : Outcome.NoPanic spec.validateRef :=
  .bind (noPanic_ensure _ _) fun _ _ => .bind (noPanic_ensure _ _) fun _ _ =>
    .bind (noPanic_ensure _ _) fun _ _ => noPanic_ensure _ _

def canonical {ε : Type} (spec : ShardSpec) : Run ε Bytes :=
  canonicalConcat [canonicalSlice spec.keyRangeStart, canonicalSlice spec.keyRangeEnd,
    canonicalSlice spec.metadata]

end ShardSpec

/-! ## Split coverage -/

def sortedChildren (children : List ShardSpec) : List (ShardSpec × Nat) :=
  children.zipIdx.insertionSort fun a b => a.1.keyRangeStart ≤ b.1.keyRangeStart

/-- The children partition `[parentStart, parentEnd)`: sorted by start they chain from bound to
bound, internal bounds are set, and every child passes its own checks. -/
def validateSplitCoverageBounds (debug : Bool) (parentStart parentEnd : Bytes)
    (children : List ShardSpec) : Run SplitValidationError Unit := do
  Outcome.ensure (children ≠ []) .noChildren
  Outcome.ensure (children.length ≠ 1) .singleChild
  let indexed := sortedChildren children
  let first ← Outcome.expect indexed.head? .coverageIndex
  Outcome.ensure (first.1.keyRangeStart = parentStart)
    (.startMismatch parentStart.length first.1.keyRangeStart.length)
  let last ← Outcome.expect indexed.getLast? .coverageIndex
  Outcome.ensure (last.1.keyRangeEnd = parentEnd)
    (.endMismatch parentEnd.length last.1.keyRangeEnd.length)
  Outcome.eachPair indexed fun child next => do
    Outcome.ensure (child.1.keyRangeEnd = next.1.keyRangeStart)
      (.boundaryMismatch child.2 next.2 child.1.keyRangeEnd.length next.1.keyRangeStart.length)
    Outcome.ensure (child.1.keyRangeEnd ≠ []) (.overlappingChild child.2 next.2)
  Outcome.each indexed fun child =>
    Outcome.ensure (¬ child.1.Inverted) (.invertedChild child.2)
  Outcome.each indexed fun child =>
    child.1.validateRef.mapErr fun _ => .invalidChildSpec child.2
  debugAssert debug (first.1.keyRangeStart = parentStart) .coverageStart
  debugAssert debug (last.1.keyRangeEnd = parentEnd) .coverageEnd

def orderedSpecs (children : List ShardSpec) : List ShardSpec :=
  children.insertionSort fun a b => a.keyRangeStart ≤ b.keyRangeStart

inductive Chain : Bytes → Bytes → List ShardSpec → Prop
  | last {spec : ShardSpec} (valid : spec.Valid) :
      Chain spec.keyRangeStart spec.keyRangeEnd [spec]
  | cons {spec : ShardSpec} {stop : Bytes} {rest : List ShardSpec} (valid : spec.Valid)
      (bounded : spec.keyRangeEnd ≠ []) (chain : Chain spec.keyRangeEnd stop rest) :
      Chain spec.keyRangeStart stop (spec :: rest)

theorem map_fst_sortedChildren (children : List ShardSpec) :
    (sortedChildren children).map Prod.fst = orderedSpecs children := by
  unfold sortedChildren orderedSpecs
  rw [map_insertionSort _ (fun a b : ShardSpec => a.keyRangeStart ≤ b.keyRangeStart) Prod.fst
    _ fun _ _ _ _ => Iff.rfl, zipIdx_map_fst]

theorem chain_of_pairs : ∀ {first rest},
    (first :: rest).getLast?.map (fun c => c.1.keyRangeEnd) = some stop →
    (∀ c ∈ first :: rest, c.1.Valid) →
    List.IsChain (fun a b : ShardSpec × Nat =>
      a.1.keyRangeEnd = b.1.keyRangeStart ∧ a.1.keyRangeEnd ≠ []) (first :: rest) →
    Chain first.1.keyRangeStart stop ((first :: rest).map Prod.fst)
  | first, [], hl, hv, _ => by
    cases hl
    exact .last (hv first mem_cons_self)
  | first, next :: rest, hl, hv, hp => by
    rw [isChain_cons_cons] at hp
    obtain ⟨⟨hm, hn⟩, hr⟩ := hp
    refine .cons (hv first mem_cons_self) hn ?_
    rw [hm]
    refine chain_of_pairs ?_ (fun c hc => hv c (mem_cons_of_mem _ hc)) hr
    rwa [getLast?_cons_cons] at hl

theorem sortedChildren_ne_nil (h : children ≠ []) : sortedChildren children ≠ [] := by
  intro hn
  have hl : (sortedChildren children).length = children.length := by
    rw [sortedChildren, length_insertionSort, length_zipIdx]
  rw [hn, length_nil] at hl
  exact h (length_eq_zero_iff.mp hl.symm)

theorem validateSplitCoverageBounds_eq_ok
    (h : validateSplitCoverageBounds debug start stop children = .ok u) :
    2 ≤ children.length ∧ Chain start stop (orderedSpecs children) := by
  obtain ⟨hn, h⟩ := check_eq_ok.mp h
  obtain ⟨ho, h⟩ := check_eq_ok.mp h
  obtain ⟨_, hf, h⟩ := bind_eq_ok.mp h
  obtain ⟨hst, h⟩ := check_eq_ok.mp h
  obtain ⟨_, hl, h⟩ := bind_eq_ok.mp h
  obtain ⟨hsto, h⟩ := check_eq_ok.mp h
  obtain ⟨hp, h⟩ := check_eq_ok.mp h
  obtain ⟨-, h⟩ := check_eq_ok.mp h
  obtain ⟨hv, -⟩ := check_eq_ok.mp h
  rw [ensure_eq_ok] at hn ho hst hsto
  rw [expect_eq_ok] at hf hl
  rw [each_eq_ok] at hv
  rw [eachPair_eq_ok] at hp
  refine ⟨?_, ?_⟩
  · have := length_pos_iff.mpr hn
    omega
  rw [← map_fst_sortedChildren]
  cases hs : sortedChildren children with
  | nil => exact absurd hs (sortedChildren_ne_nil hn)
  | cons c rest =>
    rw [hs] at hf hl hv hp
    cases hf
    rw [← hst]
    refine chain_of_pairs (by rw [hl, Option.map_some, hsto]) (fun d hd => ?_) ?_
    · exact ShardSpec.validateRef_eq_ok.mp (mapErr_eq_ok.mp (hv d hd))
    refine hp.imp fun a b ha => ?_
    obtain ⟨hm, ha⟩ := check_eq_ok.mp ha
    exact ⟨ensure_eq_ok.mp hm, ensure_eq_ok.mp ha⟩

def validateResidualSplitBounds (debug : Bool) (oldParentStart oldParentEnd : Bytes)
    (newParent residual : ShardSpec) : Run SplitValidationError Unit := do
  Outcome.ensure (newParent.keyRangeStart = oldParentStart)
    (.startMismatch oldParentStart.length newParent.keyRangeStart.length)
  Outcome.ensure (residual.keyRangeEnd = oldParentEnd)
    (.endMismatch oldParentEnd.length residual.keyRangeEnd.length)
  validateSplitCoverageBounds debug oldParentStart oldParentEnd [newParent, residual]

theorem validateResidualSplitBounds_eq_ok {residual}
    (h : validateResidualSplitBounds debug start stop newParent residual = .ok u) :
    newParent.keyRangeStart = start ∧ residual.keyRangeEnd = stop ∧
      Chain start stop (orderedSpecs [newParent, residual]) := by
  obtain ⟨hs, h⟩ := check_eq_ok.mp h
  obtain ⟨hst, h⟩ := check_eq_ok.mp h
  exact ⟨ensure_eq_ok.mp hs, ensure_eq_ok.mp hst, (validateSplitCoverageBounds_eq_ok h).2⟩

end GossipRs
