import GossipRs.Git.ObjectId

/-! Planning the commits of a scan (`commit_walk.rs`). Commits are positions in the commit graph. A
binary heap is the list of its positions in descending order of `(generation, position)`; the stack
has its top first. Loops take fuel; running out is a panic of the model that the proofs exclude. -/

namespace GossipRs.Git

open Lib

/-- A finite commit graph with parents in the graph and generations that grow from parent to child.
-/
structure CommitGraph where
  numCommits : Nat
  generation : Nat → Nat
  parents : Nat → List Nat
  lookup : OidBytes → Option Nat
  parents_lt : ∀ c < numCommits, ∀ p ∈ parents c, p < numCommits
  generation_lt : ∀ c < numCommits, ∀ p ∈ parents c, generation p < generation c
  lookup_lt : ∀ oid, ∀ c ∈ lookup oid, c < numCommits

structure RefWatermark where
  oid : OidBytes
  generation : Nat
deriving DecidableEq

structure StartSetRef where
  tip : OidBytes
  watermark : Option RefWatermark
deriving DecidableEq

structure CommitWalkLimits where
  maxCommitsInGraph : Nat
  maxHeapEntries : Nat
  maxParentsPerCommit : Nat
  maxNewRefSkipChecks : Nat

inductive CommitPlanError where
  | commitGraphTooLarge (commits max : Nat)
  | tipNotFound
  | heapLimitExceeded (entries max : Nat)
  | tooManyParents (count max : Nat)
  | topoSortCycle (remaining : Nat)
deriving DecidableEq, Repr

inductive WalkPanic where
  | outOfFuel

abbrev Walk := Outcome WalkPanic CommitPlanError

inductive Flag where
  | seenI
  | seenU
  | markU
deriving DecidableEq

/-- `RefScratch`: the set flags of each commit, and the commits whose flags are not all clear. -/
structure RefScratch where
  state : Nat → List Flag
  touched : List Nat

namespace RefScratch

def new : RefScratch := ⟨fun _ => [], []⟩

def clear (scratch : RefScratch) : RefScratch where
  state := scratch.touched.foldl (fun state p => Function.update state p []) scratch.state
  touched := []

def setBit (scratch : RefScratch) (pos : Nat) (flag : Flag) : RefScratch where
  state := Function.update scratch.state pos (flag :: scratch.state pos)
  touched := if scratch.state pos = [] then pos :: scratch.touched else scratch.touched

def has (scratch : RefScratch) (pos : Nat) (flag : Flag) : Bool := flag ∈ scratch.state pos

end RefScratch

section Walk

variable (cg : CommitGraph) (limits : CommitWalkLimits)

/-- `collect_parents`, which fails on the first parent over the limit. -/
def collectParents (pos : Nat) : Walk (List Nat) := do
  .ensure ((cg.parents pos).length ≤ limits.maxParentsPerCommit)
    (.tooManyParents (limits.maxParentsPerCommit + 1) limits.maxParentsPerCommit)
  return cg.parents pos

def visitParents (flag : Flag) (push : Nat → List Nat → List Nat) :
    List Nat → RefScratch → List Nat → RefScratch × List Nat
  | [], scratch, frontier => (scratch, frontier)
  | p :: rest, scratch, frontier =>
    if scratch.has p flag then visitParents flag push rest scratch frontier
    else visitParents flag push rest (scratch.setBit p flag) (push p frontier)

def ancestorLoop (ancestor : Nat) : Nat → RefScratch → List Nat → Walk (Bool × RefScratch)
  | _, scratch, [] => .ok (false, scratch)
  | 0, _, _ :: _ => .panic .outOfFuel
  | fuel + 1, scratch, cur :: stack =>
    if cur = ancestor then .ok (true, scratch)
    else if cg.generation cur < cg.generation ancestor then
      ancestorLoop ancestor fuel scratch stack
    else do
      let parents ← collectParents cg limits cur
      let visited := visitParents .seenI List.cons parents scratch stack
      ancestorLoop ancestor fuel visited.1 visited.2

def isAncestor (ancestor descendant : Nat) (scratch : RefScratch) : Walk (Bool × RefScratch) :=
  if ancestor = descendant then .ok (true, scratch)
  else if cg.generation ancestor > cg.generation descendant then .ok (false, scratch)
  else ancestorLoop cg limits ancestor cg.numCommits (scratch.clear.setBit descendant .seenI)
    [descendant]

def heapBefore (a b : Nat) : Bool :=
  cg.generation b < cg.generation a ∨ cg.generation a = cg.generation b ∧ b ≤ a

def heapPush (pos : Nat) (heap : List Nat) : List Nat :=
  heap.takeWhile (fun other => heapBefore cg other pos) ++
    pos :: heap.dropWhile fun other => heapBefore cg other pos

structure RefRangeWalker where
  heapInteresting : List Nat
  heapUninteresting : List Nat
  scratch : RefScratch

def RefRangeWalker.currentHeapSize (walker : RefRangeWalker) : Nat :=
  walker.heapInteresting.length + walker.heapUninteresting.length

def checkHeap (walker : RefRangeWalker) : Walk Unit :=
  .ensure (walker.currentHeapSize ≤ limits.maxHeapEntries)
    (.heapLimitExceeded walker.currentHeapSize limits.maxHeapEntries)

/-- `advance_uninteresting`: mark what the watermark reaches down to a generation. -/
def advanceUninteresting (target : Nat) : Nat → RefRangeWalker → Walk RefRangeWalker
  | fuel, walker =>
    match walker.heapUninteresting with
    | [] => .ok walker
    | pos :: rest =>
      if cg.generation pos < target then .ok walker
      else
        match fuel with
        | 0 => .panic .outOfFuel
        | fuel + 1 => do
          let parents ← collectParents cg limits pos
          let visited := visitParents .seenU (heapPush cg) parents
            (walker.scratch.setBit pos .markU) rest
          let walker := { walker with heapUninteresting := visited.2, scratch := visited.1 }
          checkHeap limits walker
          advanceUninteresting target fuel walker

/-- The emitted commits, newest first, which are the set bits of the visited bitset. -/
abbrev Emitted := List Nat

def walkRef : Nat → RefRangeWalker → Emitted → Walk (RefRangeWalker × Emitted)
  | fuel, walker, emitted =>
    match walker.heapInteresting with
    | [] => .ok (walker, emitted)
    | pos :: rest =>
      match fuel with
      | 0 => .panic .outOfFuel
      | fuel + 1 => do
        let walker ← advanceUninteresting cg limits (cg.generation pos) cg.numCommits walker
        if walker.scratch.has pos .markU then
          walkRef fuel { walker with heapInteresting := rest } emitted
        else
          let parents ← collectParents cg limits pos
          let visited := visitParents .seenI (heapPush cg) parents walker.scratch rest
          let walker := { walker with heapInteresting := visited.2, scratch := visited.1 }
          checkHeap limits walker
          walkRef fuel walker (if pos ∈ emitted then emitted else pos :: emitted)

/-- `resolve_current_watermark`, when it is valid. -/
def resolveWatermark (watermark : RefWatermark) : Option Nat :=
  (cg.lookup watermark.oid).filter fun pos =>
    decide (cg.generation pos = watermark.generation)

/-- The new-ref skip: is the tip an ancestor of one of the first watermarks? Stale ones count. -/
def skipCheck (tip : Nat) : Nat → List RefWatermark → RefScratch → Walk (Bool × RefScratch)
  | _, [], scratch => .ok (false, scratch)
  | 0, _ :: _, scratch => .ok (false, scratch)
  | checks + 1, watermark :: rest, scratch =>
    match resolveWatermark cg watermark with
    | none => skipCheck tip checks rest scratch
    | some pos => do
      let result ← isAncestor cg limits tip pos scratch
      if result.1 then .ok result
      else skipCheck tip checks rest result.2

/-- Only a ref without a watermark is skipped. -/
def skipRef (refs : List StartSetRef) (r : StartSetRef) (tip : Nat) (scratch : RefScratch) :
    Walk (Bool × RefScratch) :=
  if r.watermark = none then
    skipCheck cg limits tip limits.maxNewRefSkipChecks
      (refs.filterMap StartSetRef.watermark) scratch
  else .ok (false, scratch)

def boundingWatermark (tip : Nat) (scratch : RefScratch) :
    Option RefWatermark → Walk (Option Nat × RefScratch)
  | none => .ok (none, scratch)
  | some watermark =>
    match resolveWatermark cg watermark with
    | none => .ok (none, scratch)
    | some pos => do
      let result ← isAncestor cg limits pos tip scratch
      return (if result.1 then some pos else none, result.2)

def seedWalker (tip : Nat) (watermark : Option Nat) (scratch : RefScratch) : RefRangeWalker :=
  let seeded := scratch.clear.setBit tip .seenI
  match watermark with
  | none => ⟨[tip], [], seeded⟩
  | some wm => ⟨[tip], [wm], (seeded.setBit wm .markU).setBit wm .seenU⟩

/-- `init_next_ref` and the walk of the ref; a skipped ref emits nothing. -/
def planRef (refs : List StartSetRef) (r : StartSetRef) (scratch : RefScratch)
    (emitted : Emitted) : Walk (RefScratch × Emitted) := do
  let tip ← .okOr (cg.lookup r.tip) .tipNotFound
  let skip ← skipRef cg limits refs r tip scratch.clear
  if skip.1 then return (skip.2, emitted)
  else
    let bound ← boundingWatermark cg limits tip skip.2 r.watermark
    let walked ← walkRef cg limits cg.numCommits (seedWalker tip bound.1 bound.2) emitted
    return (walked.1.scratch, walked.2)

def planRefs (refs : List StartSetRef) :
    List StartSetRef → RefScratch → Emitted → Walk Emitted
  | [], _, emitted => .ok emitted
  | r :: rest, scratch, emitted => do
    let next ← planRef cg limits refs r scratch emitted
    planRefs refs rest next.1 next.2

def childrenOf (positions : List Nat) (p : Nat) : List Nat :=
  positions.flatMap fun pos => List.replicate ((cg.parents pos).count p) pos

/-- One edge to a child: count it off, and queue the child after its last edge. -/
def relaxChild (state : (Nat → Nat) × List Nat) (child : Nat) : (Nat → Nat) × List Nat :=
  let degree := Function.update state.1 child (state.1 child - 1)
  (degree, if degree child = 0 then state.2 ++ [child] else state.2)

/-- The loop of Kahn's algorithm; `ordered` is newest first. -/
def kahnLoop (positions : List Nat) :
    Nat → (Nat → Nat) → List Nat → List Nat → Walk (List Nat)
  | _, _, [], ordered => .ok ordered.reverse
  | 0, _, _ :: _, _ => .panic .outOfFuel
  | fuel + 1, degree, pos :: queue, ordered =>
    let relaxed := (childrenOf cg positions pos).foldl relaxChild (degree, queue)
    kahnLoop positions fuel relaxed.1 relaxed.2 (pos :: ordered)

/-- `collect_parents` of every position, for its errors. -/
def checkParents : List Nat → Walk Unit
  | [] => .ok ()
  | pos :: rest => do
    let _ ← collectParents cg limits pos
    checkParents rest

/-- `topo_order_positions`. The dense edge arrays hold, for each parent, its children in order. -/
def topoOrderPositions (positions : List Nat) : Walk (List Nat) :=
  if positions = [] then .ok []
  else do
    .ensure (cg.numCommits ≤ limits.maxCommitsInGraph)
      (.commitGraphTooLarge cg.numCommits limits.maxCommitsInGraph)
    let sorted := (positions.insertionSort (· ≤ ·)).dedup
    checkParents cg limits sorted
    let degree := fun pos => (cg.parents pos).countP fun p => decide (p ∈ sorted)
    let queue := sorted.filter fun pos => decide (degree pos = 0)
    let ordered ← kahnLoop cg sorted sorted.length degree queue []
    .ensure (ordered.length = sorted.length) (.topoSortCycle (sorted.length - ordered.length))
    return ordered

def introducedByPlan (refs : List StartSetRef) : Walk (List Nat) := do
  .ensure (cg.numCommits ≤ limits.maxCommitsInGraph)
    (.commitGraphTooLarge cg.numCommits limits.maxCommitsInGraph)
  let emitted ← planRefs cg limits refs refs .new []
  topoOrderPositions cg limits emitted.reverse

end Walk

end GossipRs.Git
