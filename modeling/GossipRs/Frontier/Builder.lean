import GossipRs.Contracts.SplitPlanning
import GossipRs.Lib.Digits
import GossipRs.Lib.Wire
import GossipRs.Stdx.ByteSlab

/-! Splits in the shard builder (`builder.rs`). All children of a range split are checked before the
first is staged, so only an exhausted arena leaves part of a split behind. -/

namespace GossipRs

open Lib Outcome List
open Stdx (SlabFull)

inductive PreallocShardBuilderError where
  | capacityExceeded (limit current additional : Nat)
  | fanOutExceeded (limit requested : Nat)
  | slabFull (e : SlabFull)
  | rangeInvalid (e : ShardSpecInputError)
  | manifestCtorInvalid (e : ShardSpecInputError)
deriving DecidableEq

structure BuilderEntry where
  shard : ShardId
  spec : ShardSpec
  cursor : CursorUpdate

/-- The builder over an arena `A`; entries show the specs behind their handles. -/
structure PreallocShardBuilder (A : Type) where
  arena : A
  entries : List BuilderEntry
  entryLimit : Nat
  nextShardRaw : UInt64

abbrev SplitM (A : Type) := Prog (PreallocShardBuilder A) Panic PreallocShardBuilderError

def manifestRowKeyLen : Nat := 16

def metadataEnvelope (hint connectorExtra : Bytes) : Bytes :=
  beBytes 4 hint.length ++ hint ++ connectorExtra

def manifestRowKey (manifestId row : Nat) : Bytes := beBytes 8 manifestId ++ beBytes 8 row

def rangeSpec (start stop connectorExtra : Bytes) : ShardSpec :=
  ⟨start, stop, metadataEnvelope [0] connectorExtra⟩

def manifestSpec (manifestId : Nat) (connectorExtra : Bytes) (rows : Nat × Nat) : ShardSpec :=
  ⟨manifestRowKey manifestId rows.1, manifestRowKey manifestId rows.2,
    metadataEnvelope (2 :: (beBytes 8 manifestId ++ beBytes 8 rows.1 ++ beBytes 8 rows.2))
      connectorExtra⟩

/-- The checks of `range_shard_ref` and `manifest_shard_ref`: the envelope fits, the spec is valid.
Rows are in order when they get here. -/
def checkRef (spec : ShardSpec) : Run ShardSpecInputError Unit := do
  Outcome.ensure (spec.metadata.length ≤ maxMetadataSize)
    (.metadataTooLarge spec.metadata.length maxMetadataSize)
  spec.validateRef

namespace PreallocShardBuilder

variable {A : Type}

def specs (b : PreallocShardBuilder A) : List ShardSpec := b.entries.map BuilderEntry.spec

def ensureBulkSplitCapacity (b : PreallocShardBuilder A) (additional : Nat) :
    Run PreallocShardBuilderError Unit := do
  Outcome.ensure (additional ≤ maxSplitChildren) (.fanOutExceeded maxSplitChildren additional)
  Outcome.ensure (b.entries.length + additional ≤ b.entryLimit)
    (.capacityExceeded b.entryLimit b.entries.length additional)

section Splits

variable (alloc : A → ShardSpec → Except SlabFull A)

def stage (invalid : ShardSpecInputError → PreallocShardBuilderError) (spec : ShardSpec) :
    SplitM A Unit := do
  Prog.lift ((checkRef spec).mapErr invalid)
  let b ← Prog.get
  match alloc b.arena spec with
  | .error full => Prog.throw (.slabFull full)
  | .ok arena => Prog.set ⟨arena, b.entries ++ [⟨⟨b.nextShardRaw⟩, spec, .initial⟩], b.entryLimit,
      b.nextShardRaw + 1⟩

def stageAll (invalid : ShardSpecInputError → PreallocShardBuilderError) :
    List ShardSpec → SplitM A Unit
  | [] => return ()
  | spec :: rest => do
    stage alloc invalid spec
    stageAll invalid rest

def checkedSplit (checks : PreallocShardBuilder A → Run PreallocShardBuilderError Unit)
    (invalid : ShardSpecInputError → PreallocShardBuilderError) (children : List ShardSpec) :
    SplitM A Unit := do
  let b ← Prog.get
  Prog.lift (checks b)
  stageAll alloc invalid children

/-- The capacity and the validation-only pass over all children. -/
def rangeChecks (additional : Nat) (children : List ShardSpec) (b : PreallocShardBuilder A) :
    Run PreallocShardBuilderError Unit := do
  b.ensureBulkSplitCapacity additional
  (Outcome.each children checkRef).mapErr .rangeInvalid

def splitRangeByBoundaries (start : Bytes) (splitPoints : List Bytes)
    (stop connectorExtra : Bytes) : SplitM A Unit :=
  let children := specsAt (rangeSpec start stop connectorExtra) start splitPoints
  checkedSplit alloc (rangeChecks (splitPoints.length + 1) children) .rangeInvalid children

def manifestSplitCount (startRow endRow rowsPerShard : Nat) :
    Run PreallocShardBuilderError Nat := do
  Outcome.ensure (startRow < endRow ∧ rowsPerShard ≠ 0)
    (.manifestCtorInvalid (.invertedRange manifestRowKeyLen manifestRowKeyLen))
  let span := endRow - startRow
  return span / rowsPerShard + if span % rowsPerShard ≠ 0 then 1 else 0

/-- The rows of the children: the end of a chunk saturates, then it is clamped to the end. -/
def rowChunks (rowsPerShard endRow : Nat) : Nat → Nat → List (Nat × Nat)
  | 0, _ => []
  | fuel + 1, chunkStart =>
    let chunkEnd := min (min (chunkStart + rowsPerShard) (2 ^ 64 - 1)) endRow
    if chunkStart < endRow then (chunkStart, chunkEnd) :: rowChunks rowsPerShard endRow fuel
      chunkEnd
    else []

def splitManifestByRows (manifestId startRow endRow rowsPerShard : UInt64)
    (connectorExtra : Bytes) : SplitM A Unit :=
  checkedSplit alloc (fun b => do
      b.ensureBulkSplitCapacity
        (← manifestSplitCount startRow.toNat endRow.toNat rowsPerShard.toNat))
    .manifestCtorInvalid
    ((rowChunks rowsPerShard.toNat endRow.toNat (endRow.toNat - startRow.toNat) startRow.toNat).map
      (manifestSpec manifestId.toNat connectorExtra))

end Splits

def Tiles (stop : Nat) : Nat → List (Nat × Nat) → Prop
  | start, [] => start = stop
  | start, rows :: rest => rows.1 = start ∧ rows.1 < rows.2 ∧ Tiles stop rows.2 rest

theorem checkRef_eq_ok : checkRef spec = .ok () ↔ spec.Valid := by
  rw [checkRef, check_eq_ok, ensure_eq_ok, ShardSpec.validateRef_eq_ok]
  exact ⟨fun h => h.2, fun h => ⟨h.metadata_le, h⟩⟩

variable {alloc : A → ShardSpec → Except SlabFull A} {b : PreallocShardBuilder A}

section Staging

variable {checks : PreallocShardBuilder A → Run PreallocShardBuilderError Unit}
  {invalid : ShardSpecInputError → PreallocShardBuilderError} {children : List ShardSpec}

def ArenaHolds (alloc : A → ShardSpec → Except SlabFull A) (arena : A)
    (children : List ShardSpec) : Prop :=
  ∃ arena', children.foldlM alloc arena = .ok arena'

def FirstFails (alloc : A → ShardSpec → Except SlabFull A) (arena : A)
    (children : List ShardSpec) : Prop :=
  ∃ spec full, children.head? = some spec ∧ alloc arena spec = .error full

theorem wp_stageAll (hv : ∀ spec ∈ children, spec.Valid) :
    (stageAll alloc invalid children).wp b
      (fun _ b' => b'.specs = b.specs ++ children ∧ ArenaHolds alloc b.arena children)
      (fun _ b' => ¬ ArenaHolds alloc b.arena children ∧
        ∃ staged, b'.specs = b.specs ++ staged ∧ (staged = [] ↔ FirstFails alloc b.arena children))
      (fun _ => False) := by
  induction children generalizing b with
  | nil => exact ⟨(append_nil _).symm, b.arena, rfl⟩
  | cons spec rest ih =>
    obtain ⟨hs, hr⟩ := forall_mem_cons.mp hv
    simp only [stageAll, stage, Prog.wp_bind, Prog.wp_lift, checkRef_eq_ok.mpr hs, mapErr_ok,
      post_ok, Prog.wp_get, ArenaHolds, foldlM_cons]
    cases ha : alloc b.arena spec with
    | error full =>
      refine ⟨?_, [], (append_nil _).symm, fun _ => ⟨spec, full, rfl, ha⟩, fun _ => rfl⟩
      rintro ⟨_, h⟩
      cases h
    | ok arena =>
      simp only [Prog.wp_set]
      refine Prog.wp_mono (ih hr) (fun _ b' h => ⟨?_, h.2⟩) (fun _ b' h => ⟨h.1, ?_⟩) fun _ h => h
      · rw [h.1]
        simp [specs]
      · obtain ⟨-, staged, hst, -⟩ := h
        refine ⟨spec :: staged, by rw [hst]; simp [specs], fun h => absurd h (cons_ne_nil _ _), ?_⟩
        rintro ⟨_, _, hh, hf⟩
        cases hh
        cases ha.symm.trans hf

/-- What a split with checks does: its checks and the arena decide. -/
theorem wp_checkedSplit (alloc : A → ShardSpec → Except SlabFull A)
    (invalid : ShardSpecInputError → PreallocShardBuilderError)
    (hv : checks b = .ok () → ∀ spec ∈ children, spec.Valid) :
    (checkedSplit alloc checks invalid children).wp b
      (fun _ b' => checks b = .ok () ∧ ArenaHolds alloc b.arena children ∧
        b'.specs = b.specs ++ children)
      (fun _ b' => checks b ≠ .ok () ∧ b' = b ∨
        checks b = .ok () ∧ ¬ ArenaHolds alloc b.arena children ∧
          (b'.specs = b.specs ↔ FirstFails alloc b.arena children))
      (fun _ => checks b ≠ .ok ()) := by
  simp only [checkedSplit, Prog.wp_bind, Prog.wp_get, Prog.wp_lift]
  refine (post_of_eq _).mono (fun _ _ h => ?_) (fun _ _ h => .inl ⟨by simp [h], trivial⟩)
    fun _ _ h => by simp [h]
  refine Prog.wp_mono (wp_stageAll (hv h)) (fun _ _ hs => ⟨h, hs.2, hs.1⟩) (fun _ b' hf => ?_)
    fun _ => False.elim
  obtain ⟨hroom, staged, hst, hfirst⟩ := hf
  exact .inr ⟨h, hroom, by rw [← hfirst, hst, append_right_eq_self]⟩

theorem checkedSplit_ok_iff (hv : checks b = .ok () → ∀ spec ∈ children, spec.Valid) :
    (∃ b', checkedSplit alloc checks invalid children b = .ok ((), b') ∧
      b'.specs = b.specs ++ children) ↔
      checks b = .ok () ∧ ArenaHolds alloc b.arena children := by
  have hwp := wp_checkedSplit alloc invalid hv
  constructor
  · rintro ⟨b', h, -⟩
    obtain ⟨hc, hroom, -⟩ := Prog.wp_ok hwp h
    exact ⟨hc, hroom⟩
  · rintro ⟨hc, hroom⟩
    cases hr : checkedSplit alloc checks invalid children b with
    | ok r => exact ⟨r.2, rfl, (Prog.wp_ok hwp hr).2.2⟩
    | err r =>
      rcases Prog.wp_err hwp hr with ⟨hn, -⟩ | ⟨-, hn, -⟩
      · exact absurd hc hn
      · exact absurd hroom hn
    | panic p =>
      rw [Prog.wp, hr] at hwp
      exact absurd hc hwp

theorem checkedSplit_full (alloc : A → ShardSpec → Except SlabFull A)
    (invalid : ShardSpecInputError → PreallocShardBuilderError)
    (hv : checks b = .ok () → ∀ spec ∈ children, spec.Valid)
    (hc : checks b = .ok ()) (hfull : ¬ ArenaHolds alloc b.arena children) :
    ∃ e b', checkedSplit alloc checks invalid children b = .err (e, b') := by
  have hwp := wp_checkedSplit alloc invalid hv
  cases hr : checkedSplit alloc checks invalid children b with
  | ok r => exact absurd (Prog.wp_ok hwp hr).2.1 hfull
  | err r => exact ⟨r.1, r.2, rfl⟩
  | panic p =>
    rw [Prog.wp, hr] at hwp
    exact absurd hc hwp

end Staging

/-! ### Which range splits keep their promise -/

/-- Two neighbouring bounds pass as a range: an empty one counts as absent. -/
def InOrder (a b : Bytes) : Prop := a = [] ∨ b = [] ∨ a < b

theorem valid_specsAt_iff {parent : ShardSpec} {points : List Bytes} :
    (∀ spec ∈ specsAt parent start points, spec.Valid) ↔
      PointsFit parent start points ∧
        (start :: (points ++ [parent.keyRangeEnd])).IsChain InOrder := by
  have hvalid : ∀ {a b : Bytes}, ShardSpec.Valid ⟨a, b, parent.metadata⟩ ↔
      (a.length ≤ maxKeySize ∧ b.length ≤ maxKeySize ∧
        parent.metadata.length ≤ maxMetadataSize) ∧ InOrder a b := by
    intro a b
    constructor
    · rintro ⟨ha, hb, hm, hi⟩
      refine ⟨⟨ha, hb, hm⟩, or_iff_not_imp_left.mpr fun hna => or_iff_not_imp_left.mpr fun hnb =>
        ?_⟩
      exact not_le.mp fun hle => hi ⟨hna, hnb, hle⟩
    · rintro ⟨⟨ha, hb, hm⟩, ho⟩
      refine ⟨ha, hb, hm, ?_⟩
      rintro ⟨hna, hnb, hle⟩
      exact absurd hle (not_le.mpr ((ho.resolve_left hna).resolve_left hnb))
  induction points generalizing start with
  | nil =>
    simp only [specsAt, forall_mem_singleton, hvalid, nil_append, isChain_cons_cons,
      isChain_singleton, and_true]
    exact and_congr_left fun _ =>
      ⟨fun h => ⟨h.1, h.2.1, h.2.2, nofun⟩, fun h => ⟨h.start_le, h.stop_le, h.metadata_le⟩⟩
  | cons point rest ih =>
    rw [specsAt, forall_mem_cons, cons_append, isChain_cons_cons]
    refine (and_congr hvalid ih).trans ⟨?_, ?_⟩
    · rintro ⟨⟨⟨hs, hp, -⟩, ho⟩, hfit, hchain⟩
      refine ⟨⟨hs, hfit.stop_le, hfit.metadata_le, ?_⟩, ho, hchain⟩
      exact forall_mem_cons.mpr ⟨hp, hfit.points_le⟩
    · rintro ⟨hfit, ho, hchain⟩
      obtain ⟨hp, hrest⟩ := forall_mem_cons.mp hfit.points_le
      exact ⟨⟨⟨hfit.start_le, hp, hfit.metadata_le⟩, ho⟩,
        ⟨hp, hfit.stop_le, hfit.metadata_le, hrest⟩, hchain⟩

section Range

variable (alloc : A → ShardSpec → Except SlabFull A) (b : PreallocShardBuilder A)
  (start : Bytes) (points : List Bytes) (stop extra : Bytes)

/-- What a range split promises: with room it succeeds exactly for points that increase inside the
range, its children then partition the range, and an error stages nothing. -/
structure MeetsSplit : Prop where
  succeeds : b.ensureBulkSplitCapacity (points.length + 1) = .ok () →
    ArenaHolds alloc b.arena (specsAt (rangeSpec start stop extra) start points) →
    ((∃ b', splitRangeByBoundaries alloc start points stop extra b = .ok ((), b')) ↔
      PointsInside (rangeSpec start stop extra) start points)
  partitions : ∀ b', splitRangeByBoundaries alloc start points stop extra b = .ok ((), b') →
    b'.specs = b.specs ++ specsAt (rangeSpec start stop extra) start points ∧
      Partitions start stop (specsAt (rangeSpec start stop extra) start points)
  unchanged : ∀ e b', splitRangeByBoundaries alloc start points stop extra b = .err (e, b') →
    b'.specs = b.specs

/-- The inputs of a split that the entry limits admit. Points inside the range meet the size limits,
and without points the range is not inverted. An empty point does not pass for an absent bound: a
limit is exceeded or two other neighbours are out of order. An arena that runs out holds not even
the first child. -/
structure SplitSafe : Prop where
  inside : ArenaHolds alloc b.arena (specsAt (rangeSpec start stop extra) start points) →
    PointsInside (rangeSpec start stop extra) start points →
    PointsFit (rangeSpec start stop extra) start points ∧
      (points = [] → stop = [] ∨ start < stop)
  empty : ArenaHolds alloc b.arena (specsAt (rangeSpec start stop extra) start points) →
    [] ∈ points → PointsFit (rangeSpec start stop extra) start points →
    ¬ (start :: (points ++ [stop])).IsChain InOrder
  full : ¬ ArenaHolds alloc b.arena (specsAt (rangeSpec start stop extra) start points) →
    PointsFit (rangeSpec start stop extra) start points →
    (start :: (points ++ [stop])).IsChain InOrder →
    FirstFails alloc b.arena (specsAt (rangeSpec start stop extra) start points)

variable {alloc b start points stop extra}

theorem rangeChecks_eq_ok :
    rangeChecks (points.length + 1) (specsAt (rangeSpec start stop extra) start points) b = .ok () ↔
      b.ensureBulkSplitCapacity (points.length + 1) = .ok () ∧
      PointsFit (rangeSpec start stop extra) start points ∧
        (start :: (points ++ [stop])).IsChain InOrder := by
  have hvalid : (∀ spec ∈ specsAt (rangeSpec start stop extra) start points, spec.Valid) ↔ _ :=
    valid_specsAt_iff
  simp only [rangeChecks, check_eq_ok, mapErr_eq_ok, each_eq_ok, checkRef_eq_ok, hvalid]
  rfl

theorem valid_of_rangeChecks
    (h : rangeChecks (points.length + 1) (specsAt (rangeSpec start stop extra) start points) b =
      .ok ()) :
    ∀ spec ∈ specsAt (rangeSpec start stop extra) start points, spec.Valid :=
  valid_specsAt_iff.mpr (rangeChecks_eq_ok.mp h).2

theorem splitRange_ok_iff :
    (∃ b', splitRangeByBoundaries alloc start points stop extra b = .ok ((), b')) ↔
      (b.ensureBulkSplitCapacity (points.length + 1) = .ok () ∧
        PointsFit (rangeSpec start stop extra) start points ∧
          (start :: (points ++ [stop])).IsChain InOrder) ∧
      ArenaHolds alloc b.arena (specsAt (rangeSpec start stop extra) start points) := by
  rw [← rangeChecks_eq_ok]
  constructor
  · rintro ⟨b', h⟩
    obtain ⟨hc, hroom, -⟩ := Prog.wp_ok (wp_checkedSplit _ _ valid_of_rangeChecks) h
    exact ⟨hc, hroom⟩
  · intro h
    obtain ⟨b', hok, -⟩ := (checkedSplit_ok_iff valid_of_rangeChecks).mpr h
    exact ⟨b', hok⟩

theorem not_nil_of_inside (h : PointsInside (rangeSpec start stop extra) start points) :
    [] ∉ points := fun hm => absurd (h.2 [] hm).1 (not_lt_nil start)

/-- Neighbours in order without an empty point: the points increase inside the range. -/
theorem inside_of_inOrder (hfit : PointsFit (rangeSpec start stop extra) start points)
    (hchain : (start :: (points ++ [stop])).IsChain InOrder) (hn : [] ∉ points) :
    PointsInside (rangeSpec start stop extra) start points ∧ (stop = [] ∨ start < stop) := by
  obtain ⟨hin, -, hlt⟩ := pointsInside_of_valid (valid_specsAt_iff.mpr ⟨hfit, hchain⟩)
    fun point hm he => hn (he ▸ hm)
  exact ⟨hin, hlt⟩

theorem inOrder_of_inside (hin : PointsInside (rangeSpec start stop extra) start points)
    (hfit : PointsFit (rangeSpec start stop extra) start points)
    (hlt : points = [] → stop = [] ∨ start < stop) :
    Chain start stop (specsAt (rangeSpec start stop extra) start points) := by
  refine chain_specsAt hin hfit ?_
  cases points with
  | nil => exact hlt rfl
  | cons point rest =>
    obtain ⟨hs, hp⟩ := hin.2 point mem_cons_self
    exact hp.imp_right hs.trans

theorem meetsSplit_iff : MeetsSplit alloc b start points stop extra ↔
    (b.ensureBulkSplitCapacity (points.length + 1) = .ok () →
      SplitSafe alloc b start points stop extra) := by
  constructor
  · rintro ⟨hsucceeds, hpartitions, hunchanged⟩ hcap
    refine ⟨fun hroom hin => ?_, fun hroom hm hfit hchain => ?_, fun hroom hfit hchain => ?_⟩
    · obtain ⟨⟨-, hfit, hchain⟩, -⟩ :=
        splitRange_ok_iff.mp ((hsucceeds hcap hroom).mpr hin)
      exact ⟨hfit, fun _ => (inside_of_inOrder hfit hchain (not_nil_of_inside hin)).2⟩
    · have hin := (hsucceeds hcap hroom).mp (splitRange_ok_iff.mpr ⟨⟨hcap, hfit, hchain⟩, hroom⟩)
      exact not_nil_of_inside hin hm
    · have hchecks := rangeChecks_eq_ok.mpr ⟨hcap, hfit, hchain⟩
      obtain ⟨e, b', herr⟩ := checkedSplit_full alloc .rangeInvalid
        valid_of_rangeChecks hchecks hroom
      rcases Prog.wp_err (wp_checkedSplit _ _ valid_of_rangeChecks) herr with ⟨hn, -⟩ | ⟨-, -, hiff⟩
      · exact absurd hchecks hn
      · exact hiff.mp (hunchanged e b' herr)
  · intro hsafe
    refine ⟨fun hcap hroom => ⟨fun hok => ?_, fun hin => ?_⟩, fun b' hok => ?_, fun e b' herr => ?_⟩
    · obtain ⟨⟨-, hfit, hchain⟩, -⟩ := splitRange_ok_iff.mp hok
      exact (inside_of_inOrder hfit hchain
        fun hm => (hsafe hcap).empty hroom hm hfit hchain).1
    · obtain ⟨hfit, hlt⟩ := (hsafe hcap).inside hroom hin
      exact splitRange_ok_iff.mpr ⟨⟨hcap, valid_specsAt_iff.mp
        (inOrder_of_inside hin hfit hlt).valid⟩, hroom⟩
    · obtain ⟨⟨hcap, hfit, hchain⟩, hroom⟩ := splitRange_ok_iff.mp ⟨b', hok⟩
      obtain ⟨hin, hlt⟩ := inside_of_inOrder hfit hchain
        fun hm => (hsafe hcap).empty hroom hm hfit hchain
      exact ⟨(Prog.wp_ok (wp_checkedSplit _ _ valid_of_rangeChecks) hok).2.2,
        (inOrder_of_inside hin hfit fun _ => hlt).partitions⟩
    · rcases Prog.wp_err (wp_checkedSplit _ _ valid_of_rangeChecks) herr with
        ⟨-, rfl⟩ | ⟨hchecks, hroom, hiff⟩
      · rfl
      · obtain ⟨hcap, hfit, hchain⟩ := rangeChecks_eq_ok.mp hchecks
        exact hiff.mpr ((hsafe hcap).full hroom hfit hchain)

end Range

theorem rowChunks_tile (hr : 0 < rows) (hs : stop < 2 ^ 64) (hl : start ≤ stop)
    (hf : stop - start ≤ fuel) :
    Tiles stop start (rowChunks rows stop fuel start) ∧
      ∀ c ∈ rowChunks rows stop fuel start, c.1 < c.2 ∧ c.2 ≤ stop ∧ c.2 - c.1 ≤ rows := by
  induction fuel generalizing start with
  | zero => exact ⟨by rw [rowChunks, Tiles]; omega, nofun⟩
  | succ fuel ih =>
    rw [rowChunks]
    split
    next hlt =>
      obtain ⟨ht, ha⟩ := ih (min_le_right (min (start + rows) (2 ^ 64 - 1)) stop) (by omega)
      refine ⟨⟨rfl, by dsimp only; omega, ht⟩, forall_mem_cons.mpr ⟨?_, ha⟩⟩
      dsimp only
      omega
    next hg => exact ⟨by rw [Tiles]; omega, nofun⟩

theorem beBytes_lt {b} (hb : b < 256 ^ width) (h : a < b) : beBytes width a < beBytes width b := by
  induction width generalizing a b with
  | zero => omega
  | succ width ih =>
    simp only [beBytes, leBytes, reverse_cons]
    rw [append_lt_append_iff (by simp)]
    by_cases hd : a / 256 < b / 256
    · exact .inl (ih (by omega) hd)
    have he : a / 256 = b / 256 := by omega
    refine .inr ⟨by rw [he], cons_lt_cons_iff.mpr (.inl ?_)⟩
    rw [UInt8.lt_iff_toNat_lt]
    simp
    omega

theorem manifestSpec_valid (he : extra.length + 29 ≤ maxMetadataSize) (hr : rows.1 < rows.2)
    (hl : rows.2 < 2 ^ 64) : (manifestSpec manifestId extra rows).Valid := by
  refine ⟨by simp [manifestSpec, manifestRowKey, maxKeySize],
    by simp [manifestSpec, manifestRowKey, maxKeySize], ?_, fun hinv => ?_⟩
  · simp [manifestSpec, metadataEnvelope]
    omega
  · exact absurd hinv.2.2 (not_le.mpr (append_left_lt (beBytes_lt hl hr)))

/-- **Splits in the builder.** A range split that the entry limits admit keeps its promise exactly
for the inputs `SplitSafe` describes. A manifest split that fits stages consecutive row ranges of at
most the given number of rows. -/
theorem splits_exact (alloc : A → ShardSpec → Except SlabFull A) (b : PreallocShardBuilder A)
    (extra : Bytes) :
    (∀ start points stop, MeetsSplit alloc b start points stop extra ↔
      (b.ensureBulkSplitCapacity (points.length + 1) = .ok () →
        SplitSafe alloc b start points stop extra)) ∧
    ∀ manifestId startRow endRow rowsPerShard, ∀ count chunks, startRow < endRow →
      rowChunks rowsPerShard.toNat endRow.toNat (endRow.toNat - startRow.toNat) startRow.toNat =
        chunks →
      manifestSplitCount startRow.toNat endRow.toNat rowsPerShard.toNat = .ok count →
      b.ensureBulkSplitCapacity count = .ok () → extra.length + 29 ≤ maxMetadataSize →
      ArenaHolds alloc b.arena (chunks.map (manifestSpec manifestId.toNat extra)) →
      (∃ b', splitManifestByRows alloc manifestId startRow endRow rowsPerShard extra b =
          .ok ((), b') ∧ b'.specs = b.specs ++ chunks.map (manifestSpec manifestId.toNat extra)) ∧
        Tiles endRow.toNat startRow.toNat chunks ∧
        ∀ rows ∈ chunks, rows.2 - rows.1 ≤ rowsPerShard.toNat := by
  refine ⟨fun start points stop => meetsSplit_iff, ?_⟩
  rintro manifestId startRow endRow rowsPerShard count chunks hlt rfl hcount hcap hextra harena
  have hrows : 0 < rowsPerShard.toNat :=
    Nat.pos_of_ne_zero (ensure_eq_ok.mp (check_eq_ok.mp hcount).1).2
  obtain ⟨htile, hall⟩ := rowChunks_tile hrows endRow.toNat_lt
    (UInt64.lt_iff_toNat_lt.mp hlt).le le_rfl
  refine ⟨(checkedSplit_ok_iff fun _ => ?_).mpr ⟨bind_eq_ok.mpr ⟨count, hcount, hcap⟩, harena⟩,
    htile, fun rows hmem => (hall rows hmem).2.2⟩
  refine forall_mem_map.mpr fun rows hmem => ?_
  obtain ⟨hlt, hle, -⟩ := hall rows hmem
  exact manifestSpec_valid hextra hlt (hle.trans_lt endRow.toNat_lt)

def sample (slots : Nat) : PreallocShardBuilder Nat := ⟨slots, [], 4, 0⟩

def takeSlot (slots : Nat) (_ : ShardSpec) : Except SlabFull Nat :=
  if slots = 0 then .error ⟨1, 0⟩ else .ok (slots - 1)

/-- The range from 1 to 9 cut at 4 and at 6, and the last five rows two by two. -/
theorem splits_exact_at_four :
    MeetsSplit takeSlot (sample 4) [1] [[4], [6]] [9] [] ∧
    ∃ b', splitManifestByRows takeSlot 7 18446744073709551610 18446744073709551615 2 []
      (sample 4) = .ok ((), b') ∧ b'.specs.length = 3 := by
  obtain ⟨hrange, hrows⟩ := splits_exact takeSlot (sample 4) []
  refine ⟨(hrange [1] [[4], [6]] [9]).mpr fun _ => ⟨fun _ _ => ?_, fun _ h => ?_, fun h => ?_⟩, ?_⟩
  · exact ⟨⟨by decide, by decide, by decide, by decide⟩, nofun⟩
  · exact absurd h (by decide)
  · exact absurd ⟨1, rfl⟩ h
  · have hchunks : rowChunks (2 : UInt64).toNat (18446744073709551615 : UInt64).toNat
        ((18446744073709551615 : UInt64).toNat - (18446744073709551610 : UInt64).toNat)
        (18446744073709551610 : UInt64).toNat =
        [(18446744073709551610, 18446744073709551612),
          (18446744073709551612, 18446744073709551614),
          (18446744073709551614, 18446744073709551615)] := by
      decide +kernel
    obtain ⟨⟨b', hok, hspecs⟩, -⟩ := hrows 7 18446744073709551610 18446744073709551615 2 3 _
      (by decide) hchunks (by decide +kernel) (by decide) (by decide) ⟨1, rfl⟩
    exact ⟨b', hok, by rw [hspecs]; rfl⟩

/-- An empty split point is an absent bound on both its sides, so the children overlap and reach
outside the range. -/
theorem splitRange_empty_point :
    ∃ b', splitRangeByBoundaries takeSlot [1] [[]] [9] [] (sample 2) = .ok ((), b') ∧
      coverCount b'.specs [5] = 2 ∧ coverCount b'.specs [0] = 1 :=
  ⟨_, rfl, by decide, by decide⟩

end PreallocShardBuilder

end GossipRs
