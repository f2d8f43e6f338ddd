import GossipRs.Git.TreeDiff
import GossipRs.Lib.Wire

/-! The run files of a spiller (`spiller.rs`, `spill_chunk.rs`, `run_writer.rs`): a full chunk of
candidates is written to a numbered file, and registered files are removed when the spiller is
dropped. A file is registered only after it has been written and counted. -/

namespace GossipRs.Git.Spill

open Lib List

structure SpillLimits where
  maxSpillBytes : Nat
  maxChunkCandidates : Nat
  maxChunkPathBytes : Nat
  maxSpillRuns : Nat
  maxPathLen : Nat

inductive SpillError where
  | oidLengthMismatch (got expected : Nat)
  | arenaOverflow
  | pathTooLong (len max : Nat)
  | spillRunLimitExceeded (runs max : Nat)
  | spillBytesExceeded (bytes max : Nat)
  | io
  /-- An error of the seen store, the persister, the sink or a run reader. -/
  | processing
deriving DecidableEq

structure TreeCandidate where
  oid : OidBytes
  path : Bytes
  commitId : Nat
  parentIdx : Nat
  changeKind : ChangeKind
  ctxFlags : Nat
  candFlags : Nat
deriving DecidableEq

structure CandidateChunk where
  candidates : List TreeCandidate
  pathBytes : Nat

/-- A run is known by the number in the name of its file, `spill-{n}.run`. -/
structure Spiller where
  limits : SpillLimits
  oidLen : Nat
  runs : List Nat
  spillBytes : Nat
  chunk : CandidateChunk
  files : Finset Nat

def Spiller.new (limits : SpillLimits) (oidLen : Nat) : Spiller :=
  ⟨limits, oidLen, [], 0, ⟨[], 0⟩, ∅⟩

structure SpillIo where
  created : Bool
  /-- Header, records and flush go through. -/
  written : Bool

def pushChunk (s : Spiller) (c : TreeCandidate) : Except SpillError Spiller :=
  let chunk := s.chunk
  if c.oid.len ≠ s.oidLen then .error (.oidLengthMismatch c.oid.len s.oidLen)
  else if s.limits.maxChunkCandidates ≤ chunk.candidates.length then .error .arenaOverflow
  else if s.limits.maxPathLen < c.path.length then
    .error (.pathTooLong c.path.length s.limits.maxPathLen)
  else if 65535 < c.path.length ∨ s.limits.maxChunkPathBytes < chunk.pathBytes + c.path.length then
    .error .arenaOverflow
  else .ok { s with chunk := ⟨chunk.candidates ++ [c], chunk.pathBytes + c.path.length⟩ }

/-! ### The order of candidates -/

def ChangeKind.asU8 : ChangeKind → UInt8
  | .add => 1
  | .modify => 2

def compareContext (a b : TreeCandidate) : Ordering :=
  (orderCmp a.parentIdx b.parentIdx).then <|
    (orderCmp (ChangeKind.asU8 a.changeKind) (ChangeKind.asU8 b.changeKind)).then <|
      (orderCmp a.ctxFlags b.ctxFlags).then (orderCmp a.candFlags b.candFlags)

def compareCandidates (a b : TreeCandidate) : Ordering :=
  (orderCmp a.oid.bytes b.oid.bytes).then <| (orderCmp a.path b.path).then <|
    (orderCmp a.commitId b.commitId).then (compareContext a b)

/-- `is_more_canonical`: here the commit comes before the path. -/
def isMoreCanonical (a b : TreeCandidate) : Bool :=
  decide ((orderCmp a.commitId b.commitId).then
    ((orderCmp a.path b.path).then (compareContext a b)) =
    .lt)

def reduceFrom (best : TreeCandidate) : List TreeCandidate → List TreeCandidate
  | [] => [best]
  | c :: rest =>
    if c.oid = best.oid then reduceFrom (if isMoreCanonical c best then c else best) rest
    else best :: reduceFrom c rest

/-- `reduce_by_oid`: one candidate for each object id, from sorted ones. -/
def reduceByOid : List TreeCandidate → List TreeCandidate
  | [] => []
  | c :: rest => reduceFrom c rest

def sortAndDedupe (candidates : List TreeCandidate) : List TreeCandidate :=
  reduceByOid
    ((candidates.insertionSort fun a b => compareCandidates a b ≠ .gt).destutter (· ≠ ·))

/-! ### Run files -/

/-- `RunHeader::encode`. -/
def runHeader (oidLen recordCount : Nat) : Bytes :=
  [83, 82, 85, 78] ++ beBytes 2 1 ++ [UInt8.ofNat oidLen, 0] ++ beBytes 4 recordCount

/-- `RunWriter::write_fields`. -/
def runRecord (c : TreeCandidate) : Bytes :=
  c.oid.bytes ++ beBytes 4 c.commitId ++ [UInt8.ofNat c.parentIdx, ChangeKind.asU8 c.changeKind] ++
    beBytes 2 c.ctxFlags ++ beBytes 2 c.candFlags ++ beBytes 2 c.path.length ++ c.path

def runFile (oidLen : Nat) (candidates : List TreeCandidate) : Bytes :=
  runHeader oidLen candidates.length ++ candidates.flatMap runRecord

/-! ### Spilling -/

def reduceChunk (s : Spiller) : Spiller :=
  { s with chunk := { s.chunk with candidates := sortAndDedupe s.chunk.candidates } }

/-- `spill_bytes` once the run file of the chunk has been counted. -/
def countedBytes (s : Spiller) : Nat :=
  min (s.spillBytes + (runFile s.oidLen s.chunk.candidates).length) (2 ^ 64 - 1)

def writeRun (written : Bool) (s : Spiller) : Except SpillError Unit × Spiller :=
  if !written then (.error .io, s)
  else if s.limits.maxSpillBytes < countedBytes s then
    (.error (.spillBytesExceeded (countedBytes s) s.limits.maxSpillBytes),
      { s with spillBytes := countedBytes s })
  else
    (.ok (), { s with
      spillBytes := countedBytes s, runs := s.runs ++ [s.runs.length], chunk := ⟨[], 0⟩ })

def spillChunk (io : SpillIo) (s : Spiller) : Except SpillError Unit × Spiller :=
  if s.chunk.candidates.isEmpty then (.ok (), s)
  else if s.limits.maxSpillRuns ≤ s.runs.length then
    (.error (.spillRunLimitExceeded s.runs.length s.limits.maxSpillRuns), s)
  else if !io.created then (.error .io, reduceChunk s)
  else writeRun io.written { reduceChunk s with files := insert s.runs.length s.files }

def push (c : TreeCandidate) (io : SpillIo) (s : Spiller) : Except SpillError Unit × Spiller :=
  match pushChunk s c with
  | .ok s => (.ok (), s)
  | .error .arenaOverflow =>
    match spillChunk io s with
    | (.error e, s) => (.error e, s)
    | (.ok (), s) =>
      match pushChunk s c with
      | .ok s => (.ok (), s)
      | .error e => (.error e, s)
  | .error e => (.error e, s)

def cleanupRuns (s : Spiller) : Spiller :=
  { s with runs := [], files := s.files \ s.runs.toFinset }

/-- The part of `finalize` before the candidates are processed. -/
def finalSpill (io : SpillIo) (s : Spiller) : Except SpillError Unit × Spiller :=
  if s.runs.isEmpty then (.ok (), reduceChunk s) else spillChunk io s

/-- `processed` is the outcome of merging, emitting and finishing the sink. -/
def finalize (io : SpillIo) (processed : Except SpillError Unit) (s : Spiller) :
    Except SpillError Unit × Spiller :=
  match finalSpill io s with
  | (.error e, s) => (.error e, s)
  | (.ok (), s) =>
    match processed with
    | .error e => (.error e, s)
    | .ok () => (.ok (), cleanupRuns s)

inductive Call where
  | push (c : TreeCandidate) (io : SpillIo)
  | spill (io : SpillIo)

def Call.run : Call → Spiller → Spiller
  | .push c io, s => (Spill.push c io s).2
  | .spill io, s => (spillChunk io s).2

def lifetime (calls : List Call) (final : Option (SpillIo × Except SpillError Unit))
    (s : Spiller) : Spiller :=
  let s := calls.foldl (fun s c => c.run s) s
  cleanupRuns (final.elim s fun f => (finalize f.1 f.2 s).2)

/-! ### Attempts -/

/-- What a spill in this state would do: create no file, or create one and then register it or not,
because it cannot be written or exceeds the byte limit. -/
def attempt (io : SpillIo) (s : Spiller) : Option Bool :=
  if s.chunk.candidates.isEmpty || decide (s.limits.maxSpillRuns ≤ s.runs.length) ||
    !io.created then
    none
  else some (io.written && decide (countedBytes (reduceChunk s) ≤ s.limits.maxSpillBytes))

/-- A push spills when the chunk has no room for the candidate. -/
def Call.attempt : Call → Spiller → Option Bool
  | .push c io, s =>
    match pushChunk s c with
    | .error .arenaOverflow => Spill.attempt io s
    | _ => none
  | .spill io, s => Spill.attempt io s

def finalAttempt (io : SpillIo) (s : Spiller) : Option Bool :=
  if s.runs.isEmpty then none else attempt io s

/-- The attempts of a run, each judged by the state before it. -/
def attempts : List Call → Option SpillIo → Spiller → List Bool
  | [], final, s => (final.bind (finalAttempt · s)).toList
  | c :: calls, final, s => (c.attempt s).toList ++ attempts calls final (c.run s)

/-- What an attempt does to runs and files. -/
def Moves (s s' : Spiller) : Option Bool → Prop
  | none => s'.runs = s.runs ∧ s'.files = s.files
  | some false => s'.runs = s.runs ∧ s'.files = insert s.runs.length s.files
  | some true => s'.runs = s.runs ++ [s.runs.length] ∧ s'.files = insert s.runs.length s.files

theorem writeRun_files : (writeRun written s).2.files = s.files := by
  rw [writeRun]
  split_ifs <;> rfl

theorem writeRun_runs :
    (writeRun written s).2.runs =
      if written && decide (countedBytes s ≤ s.limits.maxSpillBytes) then
        s.runs ++ [s.runs.length] else s.runs := by
  rw [writeRun]
  cases written with
  | false => rfl
  | true =>
    by_cases h : countedBytes s ≤ s.limits.maxSpillBytes
    · simp [h, not_lt.mpr h]
    · simp [h, not_le.mp h]

theorem spillChunk_moves : Moves s (spillChunk io s).2 (attempt io s) := by
  rw [spillChunk, attempt]
  cases s.chunk.candidates.isEmpty with
  | true => exact ⟨rfl, rfl⟩
  | false =>
    by_cases hr : s.limits.maxSpillRuns ≤ s.runs.length
    · simp [hr, Moves]
    cases io.created with
    | false => simp [hr, Moves, reduceChunk]
    | true =>
      simp only [hr, decide_false, Bool.not_true, Bool.or_false, Bool.false_eq_true, if_false]
      have hruns := @writeRun_runs io.written
        { reduceChunk s with files := insert s.runs.length s.files }
      change _ = if io.written &&
        decide (countedBytes (reduceChunk s) ≤ s.limits.maxSpillBytes) then
        s.runs ++ [s.runs.length] else s.runs at hruns
      cases hb : io.written && decide (countedBytes (reduceChunk s) ≤ s.limits.maxSpillBytes) with
      | false => exact ⟨by rw [hruns, hb]; rfl, writeRun_files⟩
      | true => exact ⟨by rw [hruns, hb]; rfl, writeRun_files⟩

theorem pushChunk_keeps (h : pushChunk s c = .ok s') : s'.runs = s.runs ∧ s'.files = s.files := by
  simp only [pushChunk] at h
  split_ifs at h
  cases h
  exact ⟨rfl, rfl⟩

theorem run_moves (c : Call) : Moves s (c.run s) (c.attempt s) := by
  cases c with
  | spill io => exact spillChunk_moves
  | push c io =>
    have hsp : Moves s (spillChunk io s).2 (attempt io s) := spillChunk_moves
    simp only [Call.run, Call.attempt, push]
    cases hp : pushChunk s c with
    | ok s' => exact pushChunk_keeps hp
    | error e =>
      cases e with
      | arenaOverflow =>
        dsimp only
        split
        next hs => rwa [hs] at hsp
        next hs =>
          rw [hs] at hsp
          split
          next hp =>
            obtain ⟨hr, hf⟩ := pushChunk_keeps hp
            cases ha : attempt io s with
            | none => simpa only [ha, Moves, hr, hf] using hsp
            | some b => cases b <;> simpa only [ha, Moves, hr, hf] using hsp
          next => exact hsp
      | _ => exact ⟨rfl, rfl⟩

theorem finalSpill_moves : Moves s (finalSpill io s).2 (finalAttempt io s) := by
  rw [finalSpill, finalAttempt]
  split
  · exact ⟨rfl, rfl⟩
  · exact spillChunk_moves

structure Numbered (s : Spiller) : Prop where
  runs_eq : s.runs = range s.runs.length
  files_subset : s.files ⊆ Finset.range (s.runs.length + 1)

theorem Numbered.moves (h : Numbered s) : ∀ {o}, Moves s s' o → Numbered s'
  | none, ⟨hr, hf⟩ => ⟨by rw [hr]; exact h.runs_eq, by rw [hr, hf]; exact h.files_subset⟩
  | some false, ⟨hr, hf⟩ => by
    refine ⟨by rw [hr]; exact h.runs_eq, ?_⟩
    rw [hr, hf]
    exact Finset.insert_subset (by simp) h.files_subset
  | some true, ⟨hr, hf⟩ => by
    constructor
    · rw [hr, length_append, length_singleton, range_succ, ← h.runs_eq]
    · rw [hr, hf, length_append, length_singleton]
      exact Finset.insert_subset (by simp) (h.files_subset.trans (by simp))

/-- The number of the next run has a file just when the last attempt failed. -/
theorem Numbered.next_mem_iff (h : Numbered s) : ∀ {o}, Moves s s' o →
    (s'.runs.length ∈ s'.files ↔ o = some false ∨ o = none ∧ s.runs.length ∈ s.files)
  | none, ⟨hr, hf⟩ => by simp [hr, hf]
  | some false, ⟨hr, hf⟩ => by simp [hr, hf]
  | some true, ⟨hr, hf⟩ => by
    have hn : s.runs.length + 1 ∉ s.files := fun hm => by simpa using h.files_subset hm
    simp [hr, hf, hn]

theorem Numbered.mem_cleanupRuns (h : Numbered s) :
    n ∈ (cleanupRuns s).files ↔ n = s.runs.length ∧ n ∈ s.files := by
  have hr : n ∈ s.runs ↔ n < s.runs.length := by
    rw [h.runs_eq]
    simp
  have hf : n ∈ s.files → n < s.runs.length + 1 := fun hn => by
    simpa using h.files_subset hn
  simp only [cleanupRuns, Finset.mem_sdiff, mem_toFinset, hr]
  grind

theorem cleanupRuns_finalize :
    (cleanupRuns (finalize io processed s).2).files = (cleanupRuns (finalSpill io s).2).files := by
  rw [finalize]
  split
  · simp [*]
  · split <;> simp [cleanupRuns, *]

/-- The files of a lifetime are those of a numbered state whose next number has a file just when the
last attempt failed. -/
theorem lifetime_files (h : Numbered s) (calls final) :
    ∃ s', Numbered s' ∧ (lifetime calls final s).files = (cleanupRuns s').files ∧
      (s'.runs.length ∈ s'.files ↔ (attempts calls (final.map (·.1)) s).getLast? = some false ∨
        attempts calls (final.map (·.1)) s = [] ∧ s.runs.length ∈ s.files) := by
  induction calls generalizing s with
  | nil =>
    cases final with
    | none => exact ⟨s, h, rfl, by simp [attempts]⟩
    | some f =>
      refine ⟨_, h.moves finalSpill_moves, cleanupRuns_finalize, ?_⟩
      rw [h.next_mem_iff finalSpill_moves]
      cases hf : finalAttempt f.1 s <;> simp [attempts, hf]
  | cons c calls ih =>
    obtain ⟨s', hnu, hf, hc⟩ := ih (h.moves (run_moves c))
    refine ⟨s', hnu, hf, hc.trans ?_⟩
    rw [attempts, h.next_mem_iff (run_moves c), getLast?_append]
    cases c.attempt s with
    | none => simp
    | some b =>
      cases attempts calls (final.map (·.1)) (c.run s) <;> simp [getLast?_cons]

/-- At most one file outlives its spiller, and one does if and only if the last spill that created
its file did not get to register it. -/
theorem spill_files_removed (limits : SpillLimits) (oidLen : Nat) (calls : List Call)
    (final : Option (SpillIo × Except SpillError Unit)) :
    (lifetime calls final (.new limits oidLen)).files.card ≤ 1 ∧
      ((lifetime calls final (.new limits oidLen)).files = ∅ ↔
        (attempts calls (final.map (·.1)) (.new limits oidLen)).getLast? ≠ some false) := by
  have hnew : Numbered (.new limits oidLen) := ⟨rfl, by simp [Spiller.new]⟩
  obtain ⟨s, hnum, hfiles, hnext⟩ := lifetime_files hnew calls final
  rw [hfiles]
  refine ⟨Finset.card_le_one.mpr fun a ha b hb => ?_, ?_⟩
  · exact (hnum.mem_cleanupRuns.mp ha).1.trans (hnum.mem_cleanupRuns.mp hb).1.symm
  have hlast : s.runs.length ∈ s.files ↔
      (attempts calls (final.map (·.1)) (.new limits oidLen)).getLast? = some false := by
    simpa [Spiller.new] using hnext
  rw [Finset.eq_empty_iff_forall_notMem, ne_eq, ← hlast]
  constructor
  · exact fun h hm => h _ (hnum.mem_cleanupRuns.mpr ⟨rfl, hm⟩)
  · intro h n hn
    obtain ⟨rfl, hmem⟩ := hnum.mem_cleanupRuns.mp hn
    exact h hmem

/-- A candidate with a path of this length. -/
def sampleCandidate (pathLen : Nat) : TreeCandidate :=
  ⟨⟨replicate 20 7, .inl rfl⟩, replicate pathLen 97, 1, 0, .add, 0, 0⟩

/-- A spill that is repeated after its file could not be written. -/
theorem spill_files_removed_retried :
    (lifetime [.push (sampleCandidate 36) ⟨true, true⟩, .spill ⟨true, false⟩, .spill ⟨true, true⟩]
      none (.new ⟨80, 4, 64, 2, 64⟩ 20)).files = ∅ :=
  (spill_files_removed ⟨80, 4, 64, 2, 64⟩ 20 [.push (sampleCandidate 36) ⟨true, true⟩,
    .spill ⟨true, false⟩, .spill ⟨true, true⟩] none).2.mpr (by decide +kernel)

/-- The byte limit is checked after the file is written, and the file stays. -/
theorem spill_over_limit_leaves_file :
    (lifetime [.push (sampleCandidate 36) ⟨true, true⟩, .spill ⟨true, true⟩] none
      (.new ⟨79, 4, 64, 2, 64⟩ 20)).files = {0} := by
  decide +kernel

end GossipRs.Git.Spill
