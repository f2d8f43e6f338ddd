import GossipRs.Git.Midx

/-! Blob introduction (`blob_introducer.rs`, `path_policy.rs`): walk the trees of the planned
commits and emit every blob once. The serial introducer is one worker with the whole plan; the
parallel one is several that claim chunks of it and share the seen sets. -/

namespace GossipRs.Git

open Lib

/-! ### Path policy -/

def slash : UInt8 := 47

def dot : UInt8 := 46

/-- The tables of `path_policy.rs`, as the lookups that the classifier makes in them. -/
structure PathTables where
  testDir : Bytes → Bool
  vendorDir : Bytes → Bool
  generatedDir : Bytes → Bool
  skipExt : Bytes → Bool
  sourceExt : Bytes → Bool
  lockName : Bytes → Bool

structure PathClass where
  source : Bool
  test : Bool
  vendor : Bool
  generated : Bool
  binary : Bool
  unknown : Bool
  lockFile : Bool
deriving DecidableEq

def PathClass.isNonscannable (c : PathClass) : Bool := c.binary || c.lockFile

def PathClass.bits (c : PathClass) : Nat :=
  c.source.toNat + 2 * c.test.toNat + 4 * c.vendor.toNat + 8 * c.generated.toNat +
    16 * c.binary.toNat + 32 * c.unknown.toNat + 64 * c.lockFile.toNat

/-- `git_filename`: what follows the last slash. -/
def gitFilename (path : Bytes) : Bytes := (path.reverse.takeWhile fun b => b != slash).reverse

/-- `filename_extension`: what follows the last dot, unless the dot is first or last. -/
def filenameExtension (filename : Bytes) : Option Bytes :=
  let ext := (filename.reverse.takeWhile fun b => b != dot).reverse
  if ext = [] ∨ filename.length ≤ ext.length + 1 then none else some ext

def segInTable (path : Bytes) (table : Bytes → Bool) : Bool :=
  (path.splitOn slash).any fun seg => !seg.isEmpty && table seg

def classifyPath (tables : PathTables) (path : Bytes) : PathClass :=
  let filename := gitFilename path
  let ext := filenameExtension filename
  let lockFile := !filename.isEmpty && tables.lockName filename
  let test := segInTable path tables.testDir
  let vendor := segInTable path tables.vendorDir
  let generated := segInTable path tables.generatedDir
  let binary := ext.any tables.skipExt
  let source := ext.any tables.sourceExt && !lockFile
  { source, test, vendor, generated, binary, lockFile
    unknown := !(source || test || vendor || generated || binary || lockFile) }

/-! ### The walk -/

inductive EntryKind where
  | tree
  | regularFile
  | executableFile
  | symlink
  | gitlink
  | unknown
deriving DecidableEq

def EntryKind.isBlobLike : EntryKind → Bool
  | .regularFile | .executableFile | .symlink => true
  | _ => false

structure TreeEntry where
  name : Bytes
  kind : EntryKind
  mode : Nat
  oid : OidBytes
deriving DecidableEq

inductive MappingCandidateKind where
  | packed
  | loose
deriving DecidableEq

inductive TreeDiffError where
  | aborted
  | maxTreeDepthExceeded (maxDepth : Nat)
  | treeBytesBudgetExceeded (loaded budget : Nat)
  | pathTooLong (len max : Nat)
  | pathArenaFull
  | candidateLimitExceeded (kind : MappingCandidateKind) (max observed : Nat)
  | objectStoreError (detail : String)
  | corruptTree (detail : String)
  | invalidOidLength (len expected : Nat)
deriving DecidableEq

def maxPathLen : Nat := 4096

structure IntroLimits where
  maxTreeDepth : Nat
  maxTreeBytesInFlight : Nat
  maxLooseOids : Nat
  pathArenaCapacity : Nat
  maxPacked : Nat
  maxLoose : Nat

/-- What a walk reads. `loadTree` gives the entries of a well-formed tree or the error of loading
it, `inFlightLen` the bytes its cursor keeps. -/
structure IntroEnv where
  tables : PathTables
  scanBinary : Bool
  midx : MidxView
  loadTree : OidBytes → Except TreeDiffError (List TreeEntry)
  inFlightLen : OidBytes → Nat
  rootTreeOid : Nat → OidBytes
  limits : IntroLimits

structure Candidate where
  oid : OidBytes
  commitId : Nat
  path : Bytes
  ctxFlags : Nat
  candFlags : Nat
deriving DecidableEq

/-- `LooseOidSet`: the ids in the table and its capacity. -/
structure LooseOidSet where
  oids : List OidBytes
  maxItems : Nat

def LooseOidSet.new (maxItems : Nat) : LooseOidSet := ⟨[], max maxItems 1⟩

/-- `insert`: a full set refuses also an id it holds. -/
def LooseOidSet.insert (set : LooseOidSet) (oid : OidBytes) :
    Except TreeDiffError (Bool × LooseOidSet) :=
  if set.maxItems ≤ set.oids.length then
    .error (.candidateLimitExceeded .loose set.maxItems (set.oids.length + 1))
  else if oid ∈ set.oids then .ok (false, set)
  else .ok (true, { set with oids := oid :: set.oids })

/-- `PackCandidateCollector`. The pack position of a candidate is read off the index later. -/
structure Collector where
  packed : List Candidate
  loose : List Candidate
  arenaLen : Nat

/-- The bits of `SeenSets` and `AtomicSeenSets`, by index position. -/
structure SeenSets where
  trees : Nat → Bool
  blobs : Nat → Bool
  excluded : Nat → Bool

def SeenSets.empty : SeenSets := ⟨fun _ => false, fun _ => false, fun _ => false⟩

/-- A tree on the stack: the id it was loaded from, the path up to it, its remaining entries. -/
structure TreeFrame where
  tree : OidBytes
  dir : Bytes
  rest : List TreeEntry
  inFlightLen : Nat

structure IntroWorker where
  commits : List Nat
  commitId : Nat
  frames : List TreeFrame
  entryCount : Nat
  looseSeen : LooseOidSet
  looseExcluded : LooseOidSet
  out : Collector
  finished : Bool

namespace IntroWorker

def new (limits : IntroLimits) (commits : List Nat) : IntroWorker where
  commits
  commitId := 0
  frames := []
  entryCount := 0
  looseSeen := .new limits.maxLooseOids
  looseExcluded := .new limits.maxLooseOids
  out := ⟨[], [], 0⟩
  finished := false

def treeBytesInFlight (w : IntroWorker) : Nat := (w.frames.map TreeFrame.inFlightLen).sum

end IntroWorker

section Walk

variable (env : IntroEnv)

def pushTree (w : IntroWorker) (oid : OidBytes) (dir : Bytes) : Except TreeDiffError IntroWorker :=
  if env.limits.maxTreeDepth ≤ w.frames.length then
    .error (.maxTreeDepthExceeded env.limits.maxTreeDepth)
  else
    match env.loadTree oid with
    | .error err => .error err
    | .ok entries =>
      let loaded := w.treeBytesInFlight + env.inFlightLen oid
      if env.limits.maxTreeBytesInFlight < loaded then
        .error (.treeBytesBudgetExceeded loaded env.limits.maxTreeBytesInFlight)
      else .ok { w with frames := ⟨oid, dir, entries, env.inFlightLen oid⟩ :: w.frames }

def enterDir (w : IntroWorker) (dir : Bytes) (e : TreeEntry) : Except TreeDiffError IntroWorker :=
  if maxPathLen < dir.length + e.name.length + 1 then
    .error (.pathTooLong (dir.length + e.name.length + 1) maxPathLen)
  else pushTree env w e.oid (dir ++ e.name ++ [slash])

/-- Mark a packed tree, and enter it unless it was marked before. -/
def visitTree (seen : SeenSets) (w : IntroWorker) (oid : OidBytes)
    (enter : Except TreeDiffError IntroWorker) : SeenSets × Except TreeDiffError IntroWorker :=
  match env.midx.findOid oid with
  | none => (seen, enter)
  | some idx =>
    if seen.trees idx then (seen, .ok w)
    else ({ seen with trees := Function.update seen.trees idx true }, enter)

def internPath (out : Collector) (path : Bytes) : Except TreeDiffError Nat :=
  if path = [] then .ok out.arenaLen
  else if 2 ^ 16 - 1 < path.length then .error (.pathTooLong path.length (2 ^ 16 - 1))
  else if env.limits.pathArenaCapacity < out.arenaLen + path.length then .error .pathArenaFull
  else .ok (out.arenaLen + path.length)

def emitPacked (w : IntroWorker) (c : Candidate) : Except TreeDiffError IntroWorker :=
  match internPath env w.out c.path with
  | .error err => .error err
  | .ok arenaLen =>
    if env.limits.maxPacked ≤ w.out.packed.length then
      .error (.candidateLimitExceeded .packed env.limits.maxPacked (w.out.packed.length + 1))
    else .ok { w with out := { w.out with packed := w.out.packed ++ [c], arenaLen } }

def emitLoose (w : IntroWorker) (c : Candidate) : Except TreeDiffError IntroWorker :=
  match internPath env w.out c.path with
  | .error err => .error err
  | .ok arenaLen =>
    if env.limits.maxLoose ≤ w.out.loose.length then
      .error (.candidateLimitExceeded .loose env.limits.maxLoose (w.out.loose.length + 1))
    else .ok { w with out := { w.out with loose := w.out.loose ++ [c], arenaLen } }

def excludeBlob (seen : SeenSets) (w : IntroWorker) (oid : OidBytes) :
    SeenSets × Except TreeDiffError IntroWorker :=
  match env.midx.findOid oid with
  | some idx => ({ seen with excluded := Function.update seen.excluded idx true }, .ok w)
  | none =>
    if oid ∈ w.looseExcluded.oids then (seen, .ok w)
    else
      match w.looseExcluded.insert oid with
      | .error err => (seen, .error err)
      | .ok set => (seen, .ok { w with looseExcluded := set.2 })

def introduceBlob (seen : SeenSets) (w : IntroWorker) (c : Candidate) :
    SeenSets × Except TreeDiffError IntroWorker :=
  match env.midx.findOid c.oid with
  | some idx =>
    if seen.blobs idx then (seen, .ok w)
    else ({ seen with blobs := Function.update seen.blobs idx true }, emitPacked env w c)
  | none =>
    match w.looseSeen.insert c.oid with
    | .error err => (seen, .error err)
    | .ok set =>
      if set.1 then (seen, emitLoose env { w with looseSeen := set.2 } c)
      else (seen, .ok { w with looseSeen := set.2 })

def excludedPath (path : Bytes) : Bool :=
  !env.scanBinary && (classifyPath env.tables path).isNonscannable

def visitBlob (seen : SeenSets) (w : IntroWorker) (dir : Bytes) (e : TreeEntry) :
    SeenSets × Except TreeDiffError IntroWorker :=
  let path := dir ++ e.name
  if maxPathLen < path.length then (seen, .error (.pathTooLong path.length maxPathLen))
  else if excludedPath env path then excludeBlob env seen w e.oid
  else
    introduceBlob env seen w
      ⟨e.oid, w.commitId, path, e.mode % 2 ^ 16, (classifyPath env.tables path).bits⟩

def visitEntry (seen : SeenSets) (w : IntroWorker) (dir : Bytes) (e : TreeEntry) :
    SeenSets × Except TreeDiffError IntroWorker :=
  match e.kind with
  | .tree => visitTree env seen w e.oid (enterDir env w dir e)
  | .regularFile | .executableFile | .symlink => visitBlob env seen w dir e
  | .gitlink | .unknown => (seen, .ok w)

def visitCommit (seen : SeenSets) (w : IntroWorker) (pos : Nat) (commits : List Nat) :
    SeenSets × Except TreeDiffError IntroWorker :=
  let w := { w with commits, commitId := pos, entryCount := 0 }
  visitTree env seen w (env.rootTreeOid pos) (pushTree env w (env.rootTreeOid pos) [])

structure IntroShared where
  seen : SeenSets
  nextChunk : Nat

/-- One step of a worker: at most one operation on what is shared. `aborted` is what it reads of the
abort flags, before each commit and at every 4096th entry. -/
def workerStep (chunks : List (List Nat)) (shared : IntroShared) (w : IntroWorker)
    (aborted : Bool) :
    IntroShared × Except TreeDiffError IntroWorker :=
  match w.frames with
  | [] =>
    match w.commits with
    | [] =>
      match chunks[shared.nextChunk]? with
      | none => ({ shared with nextChunk := shared.nextChunk + 1 }, .ok { w with finished := true })
      | some chunk =>
        ({ shared with nextChunk := shared.nextChunk + 1 }, .ok { w with commits := chunk })
    | pos :: commits =>
      if aborted then (shared, .error .aborted)
      else
        let r := visitCommit env shared.seen w pos commits
        ({ shared with seen := r.1 }, r.2)
  | frame :: frames =>
    match frame.rest with
    | [] => (shared, .ok { w with frames })
    | e :: rest =>
      let w := { w with frames := { frame with rest } :: frames, entryCount := w.entryCount + 1 }
      if w.entryCount % 4096 = 0 ∧ aborted then (shared, .error .aborted)
      else
        let r := visitEntry env shared.seen w frame.dir e
        ({ shared with seen := r.1 }, r.2)

end Walk

structure IntroSystem (n : Nat) where
  shared : IntroShared
  workers : Fin n → IntroWorker
  errors : List (Fin n × TreeDiffError)

namespace IntroSystem

variable {n : Nat}

/-- Any worker that has neither finished nor failed may take the next step. -/
inductive Step (env : IntroEnv) (chunks : List (List Nat)) :
    IntroSystem n → IntroSystem n → Prop
  | ok {s : IntroSystem n} (k : Fin n) (aborted : Bool) {shared : IntroShared} {w : IntroWorker} :
      (s.workers k).finished = false → (∀ err, (k, err) ∉ s.errors) →
      workerStep env chunks s.shared (s.workers k) aborted = (shared, .ok w) →
      Step env chunks s { s with shared, workers := Function.update s.workers k w }
  | fail {s : IntroSystem n} (k : Fin n) (aborted : Bool) {shared : IntroShared}
      {err : TreeDiffError} :
      (s.workers k).finished = false → (∀ err, (k, err) ∉ s.errors) →
      workerStep env chunks s.shared (s.workers k) aborted = (shared, .error err) →
      Step env chunks s { s with shared, errors := (k, err) :: s.errors }

abbrev Run (env : IntroEnv) (chunks : List (List Nat)) : IntroSystem n → IntroSystem n → Prop :=
  Relation.ReflTransGen (Step env chunks)

def Done (s : IntroSystem n) : Prop := s.errors = [] ∧ ∀ k, (s.workers k).finished = true

/-- `BlobIntroducer::introduce`: one worker with the whole plan. -/
def serial (env : IntroEnv) (plan : List Nat) : IntroSystem 1 where
  shared := ⟨.empty, 0⟩
  workers _ := .new env.limits plan
  errors := []

def workerCount (requested : Nat) (plan : List Nat) : Nat :=
  min (max requested 1) (max plan.length 1)

/-- The slices of a list of one length, as `slice::chunks` cuts them. -/
def chunksOf {α : Type} (size : Nat) : Nat → List α → List (List α)
  | 0, _ => []
  | _ + 1, [] => []
  | fuel + 1, a :: l => (a :: l).take size :: chunksOf size fuel ((a :: l).drop size)

def planChunks (requested : Nat) (plan : List Nat) : List (List Nat) :=
  let chunkCount := min (workerCount requested plan * 4) plan.length
  chunksOf ((plan.length + chunkCount - 1) / chunkCount) plan.length plan

/-- `introduce_parallel`: workers that have claimed nothing yet. -/
def parallel (env : IntroEnv) (requested : Nat) (plan : List Nat) :
    IntroSystem (workerCount requested plan) where
  shared := ⟨.empty, 0⟩
  workers _ := .new env.limits []
  errors := []

end IntroSystem

/-! ### Merging -/

/-- The order of `cmp_loose_dedup_key`. Parent index and change kind are the same in every candidate
of a walk, and equal paths are not told apart by their place in the arena. -/
def looseKey (c : Candidate) : Bytes ×ₗ Nat ×ₗ Bytes ×ₗ Nat ×ₗ Nat :=
  toLex (c.oid.bytes, toLex (c.commitId, toLex (c.path, toLex (c.ctxFlags, c.candFlags))))

/-- `dedup_by`: drop what has the id of the last one kept. -/
def dedupFrom (last : Candidate) : List Candidate → List Candidate
  | [] => []
  | c :: l => if c.oid = last.oid then dedupFrom last l else c :: dedupFrom c l

def dedupByOid : List Candidate → List Candidate
  | [] => []
  | c :: l => c :: dedupFrom c l

def dedupLooseByOid (loose : List Candidate) : List Candidate :=
  dedupByOid (loose.mergeSort fun a b => decide (looseKey a ≤ looseKey b))

structure MergeCaps where
  pathArenaCapacity : Nat
  maxPacked : Nat
  maxLoose : Nat

def mergeWorkerResults (caps : MergeCaps) (results : List Collector) :
    Except TreeDiffError (List Candidate × List Candidate) :=
  let packed := results.flatMap Collector.packed
  let loose := dedupLooseByOid (results.flatMap Collector.loose)
  if caps.pathArenaCapacity < (results.map Collector.arenaLen).sum then .error .pathArenaFull
  else if caps.maxPacked < packed.length then
    .error (.candidateLimitExceeded .packed caps.maxPacked (min packed.length (2 ^ 32 - 1)))
  else if caps.maxLoose < loose.length then
    .error (.candidateLimitExceeded .loose caps.maxLoose (min loose.length (2 ^ 32 - 1)))
  else .ok (packed, loose)

end GossipRs.Git
