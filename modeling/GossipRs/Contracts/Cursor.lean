import GossipRs.Contracts.ShardSpec

/-! Cursor updates and split plans, the values callers supply. What their constructors assert are
fields. Size limits are not among them: only the fallible constructors check sizes, and the API
accepts values built by the others. -/

namespace GossipRs

open Lib

def maxTokenSize : Nat := 16384

/-- A position in a shard and an optional token. `CursorUpdate::new` and `with_token` refuse an
empty key; an empty token is stored as none. -/
structure CursorUpdate where
  lastKey : Option Bytes
  token : Option Bytes
  key_ne_nil : ∀ key ∈ lastKey, key ≠ []
  token_ne_nil : ∀ tok ∈ token, tok ≠ []
  key_of_token : token.isSome → lastKey.isSome
deriving DecidableEq

namespace CursorUpdate

def initial : CursorUpdate := ⟨none, none, by simp, by simp, by simp⟩

def new (lastKey : Bytes) (h : lastKey ≠ []) : CursorUpdate :=
  ⟨some lastKey, none, by simpa using h, by simp, by simp⟩

def withToken (lastKey token : Bytes) (h : lastKey ≠ []) : CursorUpdate where
  lastKey := some lastKey
  token := if token = [] then none else some token
  key_ne_nil := by simpa using h
  token_ne_nil := by split <;> simp_all
  key_of_token := by simp

@[simp] theorem initial_lastKey : initial.lastKey = none := rfl
@[simp] theorem initial_token : initial.token = none := rfl

def canonicalField {ε : Type} : Option Bytes → Run ε Bytes
  | none => return canonicalU8 0
  | some data => canonicalConcat [return canonicalU8 1, canonicalSlice data]

def canonical {ε : Type} (cursor : CursorUpdate) : Run ε Bytes :=
  canonicalConcat [canonicalField cursor.lastKey, canonicalField cursor.token]

end CursorUpdate

/-! ## Split plans -/

structure SplitReplaceChild where
  spec : ShardSpec
  cursor : CursorUpdate
deriving DecidableEq

def SplitReplaceChild.canonical {ε : Type} (child : SplitReplaceChild) : Run ε Bytes :=
  canonicalConcat [child.spec.canonical, child.cursor.canonical]

/-- Children that replace a shard: at least two, at most `maxSplitChildren`. -/
structure SplitReplacePlan where
  children : List SplitReplaceChild
  two_le : 2 ≤ children.length
  le_max : children.length ≤ maxSplitChildren
deriving DecidableEq

def SplitReplacePlan.canonical {ε : Type} (plan : SplitReplacePlan) : Run ε Bytes := do
  Outcome.assert (plan.children.length < 2 ^ 32) .canonicalCountTooLarge
  canonicalConcat ((return canonicalU32 plan.children.length) ::
    plan.children.map SplitReplaceChild.canonical)

structure SplitResidualPlan where
  parentNewSpec : ShardSpec
  residualSpec : ShardSpec
  specs_ne : parentNewSpec ≠ residualSpec
deriving DecidableEq

def SplitResidualPlan.canonical {ε : Type} (plan : SplitResidualPlan) : Run ε Bytes :=
  canonicalConcat [plan.parentNewSpec.canonical, plan.residualSpec.canonical]

end GossipRs
