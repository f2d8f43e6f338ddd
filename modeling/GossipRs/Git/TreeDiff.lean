import GossipRs.Git.TreeCursor

/-! Tree diff (`tree_diff.rs`, `tree_order.rs`): a merge of two trees with an explicit stack, which
emits the blobs that only the new tree has. -/

namespace GossipRs.Git

open Lib

def terminator (isDir : Bool) : UInt8 := if isDir then slash else 0

def orderCmp {α : Type} [LinearOrder α] (a b : α) : Ordering :=
  if a < b then .lt else if b < a then .gt else .eq

/-- `git_tree_name_cmp`: byte order, with a virtual byte after a name that ends first. -/
def gitTreeNameCmp (aName : Bytes) (aIsDir : Bool) (bName : Bytes) (bIsDir : Bool) : Ordering :=
  let minLen := min aName.length bName.length
  if orderCmp (aName.take minLen) (bName.take minLen) ≠ .eq then
    orderCmp (aName.take minLen) (bName.take minLen)
  else
    orderCmp ((aName.drop minLen).headD (terminator aIsDir))
      ((bName.drop minLen).headD (terminator bIsDir))

def EntryKind.isTree (k : EntryKind) : Bool := decide (k = .tree)

inductive ChangeKind where
  | add
  | modify
deriving DecidableEq

structure DiffCandidate where
  oid : OidBytes
  path : Bytes
  changeKind : ChangeKind
  mode : Nat
deriving DecidableEq

structure DiffEnv where
  oidLen : Nat
  streamThreshold : Nat
  maxDepth : Nat
  treeBytesInFlightLimit : Nat
  loadTree : OidBytes → Except TreeDiffError TreeBytes
  sinkFull : List DiffCandidate → Option TreeDiffError
  aborted : Nat → Bool

structure DiffFrame where
  newCursor : TreeCursor
  oldCursor : TreeCursor
  dir : Bytes
  charged : Nat

structure DiffState where
  frames : List DiffFrame
  treeBytesInFlight : Nat
  out : List DiffCandidate
  entryCount : Nat

inductive Action where
  | pop
  | addedEntry (new : TreeEntry × Nat)
  | deletedEntry (old : TreeEntry × Nat)
  | matchedEntries (new old : TreeEntry × Nat)
  | newBeforeOld (new : TreeEntry × Nat)
  | oldBeforeNew (old : TreeEntry × Nat)

def computeAction : Option (TreeEntry × Nat) → Option (TreeEntry × Nat) → Action
  | none, none => .pop
  | some n, none => .addedEntry n
  | none, some o => .deletedEntry o
  | some n, some o =>
    match gitTreeNameCmp n.1.name n.1.kind.isTree o.1.name o.1.kind.isTree with
    | .lt => .newBeforeOld n
    | .gt => .oldBeforeNew o
    | .eq => .matchedEntries n o

section Diff

variable (env : DiffEnv)

def loadTreeCursor (inFlight : Nat) : Option OidBytes →
    Except TreeDiffError (TreeCursor × Nat × Nat)
  | none => .ok (.buffered [], 0, inFlight)
  | some oid =>
    match env.loadTree oid with
    | .error err => .error err
    | .ok bytes =>
      if env.treeBytesInFlightLimit < inFlight + bytes.inFlightLen then
        .error (.treeBytesBudgetExceeded (inFlight + bytes.inFlightLen) env.treeBytesInFlightLimit)
      else
        .ok (.new bytes env.streamThreshold, bytes.inFlightLen, inFlight + bytes.inFlightLen)

def pushFrame (s : DiffState) (dir : Bytes) (newOid oldOid : Option OidBytes) :
    Except TreeDiffError DiffState :=
  match loadTreeCursor env s.treeBytesInFlight newOid with
  | .error err => .error err
  | .ok new =>
    match loadTreeCursor env new.2.2 oldOid with
    | .error err => .error err
    | .ok old =>
      .ok { s with
        frames := ⟨new.1, old.1, dir, new.2.1 + old.2.1⟩ :: s.frames
        treeBytesInFlight := old.2.2 }

def pushSubtreeFrame (s : DiffState) (dir name : Bytes) (newOid : OidBytes)
    (oldOid : Option OidBytes) : Except TreeDiffError DiffState :=
  if env.maxDepth ≤ s.frames.length then .error (.maxTreeDepthExceeded env.maxDepth)
  else if maxPathLen < dir.length + name.length + 1 then
    .error (.pathTooLong (dir.length + name.length + 1) maxPathLen)
  else pushFrame env s (dir ++ name ++ [slash]) (some newOid) oldOid

def emitCandidate (s : DiffState) (dir : Bytes) (e : TreeEntry) (change : ChangeKind) :
    Except TreeDiffError DiffState :=
  let path := dir ++ e.name
  if maxPathLen < path.length then .error (.pathTooLong path.length maxPathLen)
  else
    match env.sinkFull s.out with
    | some err => .error err
    | none => .ok { s with out := s.out ++ [⟨e.oid, path, change, e.mode % 2 ^ 16⟩] }

def handleNewEntry (s : DiffState) (dir : Bytes) (e : TreeEntry) : Except TreeDiffError DiffState :=
  if e.kind.isTree then pushSubtreeFrame env s dir e.name e.oid none
  else if e.kind.isBlobLike then emitCandidate env s dir e .add
  else .ok s

def handleMatchedEntries (s : DiffState) (dir : Bytes) (n o : TreeEntry) :
    Except TreeDiffError DiffState :=
  if n.oid = o.oid ∧ n.kind.isTree ∧ o.kind.isTree then .ok s
  else if n.kind.isTree then
    pushSubtreeFrame env s dir n.name n.oid (if o.kind.isTree then some o.oid else none)
  else if n.kind.isBlobLike then
    if o.kind.isTree then emitCandidate env s dir n .add
    else if o.kind.isBlobLike then
      if n.oid ≠ o.oid then emitCandidate env s dir n .modify else .ok s
    else emitCandidate env s dir n .add
  else .ok s

def act (s : DiffState) (f : DiffFrame) (frames : List DiffFrame) :
    Action → Except TreeDiffError DiffState
  | .pop => .ok { s with frames, treeBytesInFlight := s.treeBytesInFlight - f.charged }
  | .addedEntry n | .newBeforeOld n =>
    handleNewEntry env
      { s with frames := { f with newCursor := f.newCursor.advance n.2 } :: frames } f.dir n.1
  | .deletedEntry o | .oldBeforeNew o =>
    .ok { s with frames := { f with oldCursor := f.oldCursor.advance o.2 } :: frames }
  | .matchedEntries n o =>
    handleMatchedEntries env
      { s with frames :=
          { f with
            newCursor := f.newCursor.advance n.2
            oldCursor := f.oldCursor.advance o.2 } :: frames } f.dir n.1 o.1

def Action.isPop : Action → Bool
  | .pop => true
  | _ => false

/-- One round of the loop, on the top frame. The abort flag is read at every 4096th entry. -/
def diffStep (s : DiffState) (f : DiffFrame) (frames : List DiffFrame) :
    Except TreeDiffError DiffState :=
  match f.newCursor.peekEntry env.oidLen with
  | .error err => .error err
  | .ok new =>
    match f.oldCursor.peekEntry env.oidLen with
    | .error err => .error err
    | .ok old =>
      let action := computeAction new.1 old.1
      let count := if action.isPop then s.entryCount else s.entryCount + 1
      if !action.isPop && decide (count % 4096 = 0) && env.aborted count then .error .aborted
      else
        act env { s with entryCount := count } { f with newCursor := new.2, oldCursor := old.2 }
          frames action

inductive DiffStep : DiffState → DiffState → Prop
  | mk {s s' : DiffState} {f : DiffFrame} {frames : List DiffFrame} :
      s.frames = f :: frames → diffStep env s f frames = .ok s' → DiffStep s s'

abbrev DiffRun : DiffState → DiffState → Prop := Relation.ReflTransGen (DiffStep env)

/-- What a call of `diff_trees` answers, what it emits, and the bytes it leaves charged. -/
structure DiffOutcome where
  result : Except TreeDiffError Unit
  out : List DiffCandidate
  treeBytesInFlight : Nat

/-- `cleanup_after_diff_call`: the frames left go, and the charge is cleared whatever it was. -/
def cleanupAfterDiffCall (s : DiffState) : DiffState :=
  { s with frames := [], treeBytesInFlight := 0 }

def startDiff (inFlight : Nat) (newTree oldTree : Option OidBytes) :
    Except TreeDiffError DiffState :=
  pushFrame env (cleanupAfterDiffCall ⟨[], inFlight, [], 0⟩) [] newTree oldTree

/-- A call of `diff_trees` on a walker with some bytes in flight. Equal trees and an abort flag
already set are answered before anything is touched; every other way out cleans up, with what a
failing step has charged. -/
inductive DiffTrees (inFlight : Nat) (newTree oldTree : Option OidBytes) : DiffOutcome → Prop
  | same : newTree = oldTree → DiffTrees inFlight newTree oldTree ⟨.ok (), [], inFlight⟩
  | aborted : newTree ≠ oldTree → env.aborted 0 = true →
      DiffTrees inFlight newTree oldTree ⟨.error .aborted, [], inFlight⟩
  | unloaded {err : TreeDiffError} (s : DiffState) : newTree ≠ oldTree → env.aborted 0 = false →
      startDiff env inFlight newTree oldTree = .error err →
      DiffTrees inFlight newTree oldTree
        ⟨.error err, [], (cleanupAfterDiffCall s).treeBytesInFlight⟩
  | done {s₀ s : DiffState} : newTree ≠ oldTree → env.aborted 0 = false →
      startDiff env inFlight newTree oldTree = .ok s₀ → DiffRun env s₀ s → s.frames = [] →
      DiffTrees inFlight newTree oldTree
        ⟨.ok (), s.out, (cleanupAfterDiffCall s).treeBytesInFlight⟩
  | failed {s₀ s : DiffState} {f : DiffFrame} {frames : List DiffFrame} {err : TreeDiffError} :
      newTree ≠ oldTree → env.aborted 0 = false →
      startDiff env inFlight newTree oldTree = .ok s₀ → DiffRun env s₀ s →
      s.frames = f :: frames → diffStep env s f frames = .error err →
      DiffTrees inFlight newTree oldTree
        ⟨.error err, s.out, (cleanupAfterDiffCall s).treeBytesInFlight⟩

end Diff

end GossipRs.Git
