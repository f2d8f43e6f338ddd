import GossipRs.Lib.Word

/-! Two readers of the page protocol of a content source: the conformance drain (`conformance.rs`)
and the page loop of a lease (`distributed/execution.rs`). They ask for the same pages and check
them alike. An empty answer behind a page that announced more is the end for the drain, and a broken
contract for the loop. -/

namespace GossipRs.Runtime.PageLoop

open Lib List

/-! ### Pages -/

structure Cursor where
  lastKey : Option Bytes
  token : Option Bytes

inductive PageState where
  | hasMore (cursor : Cursor)
  | complete

structure PageBuf (ι : Type) where
  items : List ι
  state : PageState

structure EnumerateError where
  isRetryable : Bool
  message : String
  retryAfterMs : Option Nat

inductive PageShapeError where
  | emptyPage
  | invertedBounds
  | keyOutsideShardBounds (index : Nat) (belowStart : Bool)
  | unsortedKeys (index : Nat)
  | duplicateKeys (index : Nat)

inductive PageSequenceViolation where
  | shape (error : PageShapeError)
  | cursorDidNotAdvance (previousLast firstKey : Bytes)
  | hasMoreWithoutLastKey
  | cursorPageMismatch (cursorLast pageLast : Bytes)

/-- A source for one shard and its budgets. Every call may change its state. -/
structure Source (σ ι : Type) where
  fillPage : σ → Cursor → Except EnumerateError (Option (PageBuf ι)) × σ
  itemKey : ι → Bytes
  shardStart : Bytes
  shardEnd : Bytes

def validateRest (shardEnd : Bytes) : Nat → Bytes → List Bytes → Except PageShapeError Unit
  | _, _, [] => .ok ()
  | index, previous, key :: rest =>
    if key < previous then .error (.unsortedKeys index)
    else if key = previous then .error (.duplicateKeys index)
    else if shardEnd ≠ [] ∧ ¬ key < shardEnd then .error (.keyOutsideShardBounds index false)
    else validateRest shardEnd (index + 1) key rest

def validateFilledPage (shardStart shardEnd : Bytes) : List Bytes → Except PageShapeError Bytes
  | [] => .error .emptyPage
  | first :: rest =>
    if shardStart ≠ [] ∧ shardEnd ≠ [] ∧ ¬ shardStart < shardEnd then .error .invertedBounds
    else if shardStart ≠ [] ∧ first < shardStart then .error (.keyOutsideShardBounds 0 true)
    else if shardEnd ≠ [] ∧ ¬ first < shardEnd then .error (.keyOutsideShardBounds 0 false)
    else (validateRest shardEnd 1 first rest).map fun _ => first

def validateCursor (keys : List Bytes) : PageState → Except PageSequenceViolation Unit
  | .complete => .ok ()
  | .hasMore cursor =>
    match cursor.lastKey, keys.getLast? with
    | none, _ => .error .hasMoreWithoutLastKey
    | some cursorLast, pageLast =>
      if some cursorLast = pageLast then .ok ()
      else .error (.cursorPageMismatch cursorLast (pageLast.getD []))

def Source.validatePageSequence (src : Source σ ι) (page : PageBuf ι)
    (previousLast : Option Bytes) :
    Except PageSequenceViolation Unit :=
  let keys := page.items.map src.itemKey
  match validateFilledPage src.shardStart src.shardEnd keys with
  | .error error => .error (.shape error)
  | .ok firstKey =>
    match previousLast with
    | none => validateCursor keys page.state
    | some previous =>
      if previous < firstKey then validateCursor keys page.state
      else .error (.cursorDidNotAdvance previous firstKey)

def Source.resumeCursor (src : Source σ ι) (page : PageBuf ι) : Cursor :=
  match page.state with
  | .hasMore cursor => cursor
  | .complete => ⟨(page.items.map src.itemKey).getLast?, none⟩

/-! ### The drain -/

inductive ConformanceError where
  | enumerate (phase : String) (pageIndex : Nat) (source : EnumerateError)
  | violation (pageIndex : Nat) (violation : PageSequenceViolation)
  | cursorDidNotAdvance (pageIndex : Nat) (previousLast observedKey : Option Bytes)
  | noneDidNotExhaust (pageIndex : Nat)
  | completePageDidNotExhaust (pageIndex : Nat)
  | tooManyPages (limit : Nat)

def exhausted (answer : Except EnumerateError (Option (PageBuf ι))) (phase : String)
    (pageIndex : Nat) (more : ConformanceError) (drained : List ι × List Nat) :
    Except ConformanceError (List ι × List Nat) :=
  match answer with
  | .error source => .error (.enumerate phase pageIndex source)
  | .ok (some _) => .error more
  | .ok none => .ok drained

/-- `drain_from_cursor` for the given number of pages: the items and the lengths of the pages. -/
def drainFromCursor (src : Source σ ι) (maxPages : Nat) :
    Nat → Cursor → Option Bytes → List ι × List Nat → σ →
      Except ConformanceError (List ι × List Nat)
  | 0, _, _, _, _ => .error (.tooManyPages maxPages)
  | n + 1, cursor, previousLast, drained, s =>
    let pageIndex := maxPages - (n + 1)
    match src.fillPage s cursor with
    | (.error source, _) => .error (.enumerate "drain" pageIndex source)
    | (.ok none, s) =>
      match previousLast with
      | none => .ok drained
      | some key =>
        exhausted (src.fillPage s ⟨some key, none⟩).1 "post-none-exhaustion-check" pageIndex
          (.noneDidNotExhaust pageIndex) drained
    | (.ok (some page), s) =>
      match src.validatePageSequence page previousLast with
      | .error violation => .error (.violation pageIndex violation)
      | .ok () =>
        let drained := (drained.1 ++ page.items, drained.2 ++ [page.items.length])
        match page.state with
        | .hasMore next =>
          if previousLast.any fun prev => next.lastKey.any fun key => ¬ prev < key then
            .error (.cursorDidNotAdvance pageIndex previousLast next.lastKey)
          else drainFromCursor src maxPages n next next.lastKey drained s
        | .complete =>
          exhausted (src.fillPage s (src.resumeCursor page)).1 "post-complete-exhaustion-check"
            pageIndex (.completePageDidNotExhaust pageIndex) drained

/-! ### The page loop -/

inductive PageLoopPhase where
  | paging
  | awaitingExhaustedEmpty
deriving DecidableEq

inductive PageLoopTermination where
  | exhaustedEmptyConfirmed
  | partialProgress
deriving DecidableEq

inductive LoopError where
  | violation (violation : PageSequenceViolation)
  | exhaustedWithoutTerminalPage
  | pageAfterTerminalPage
  | stoppedBeforeExhausted (stop : EnumerateError)
  | noPriorProgress (stop : EnumerateError)
  | stopped (stop : EnumerateError)
  | driver (message : String)

/-- The rest of the worker. Scanning a page reads its items from the source, and tells whether all
could be submitted; none may be deferred or left for a retry. -/
structure Worker (σ ι : Type) where
  scanPage : σ → List ι → Except String Bool × σ
  isCancelled : List ι → Bool

structure LoopState (σ ι : Type) where
  source : σ
  cursor : Cursor
  phase : PageLoopPhase
  executedAnyPage : Bool
  visited : List ι

def onStop (st : LoopState σ ι) (stop : EnumerateError) :
    Except LoopError (PageLoopTermination × LoopState σ ι) :=
  match st.phase with
  | .awaitingExhaustedEmpty =>
    if stop.isRetryable then .ok (.partialProgress, st) else .error (.stoppedBeforeExhausted stop)
  | .paging =>
    if stop.isRetryable then
      if st.executedAnyPage then .ok (.partialProgress, st) else .error (.noPriorProgress stop)
    else .error (.stopped stop)

def Source.behind (src : Source σ ι) (st : LoopState σ ι) (page : PageBuf ι) (s : σ) :
    LoopState σ ι where
  source := s
  cursor := src.resumeCursor page
  phase := match page.state with
    | .complete => .awaitingExhaustedEmpty
    | .hasMore _ => st.phase
  executedAnyPage := true
  visited := st.visited ++ page.items

/-- `scan_ordered_source_with_engine`, for at most the given number of turns. -/
def scanOrderedSource (src : Source σ ι) (w : Worker σ ι) :
    Nat → LoopState σ ι → Option (Except LoopError (PageLoopTermination × LoopState σ ι))
  | 0, _ => none
  | fuel + 1, st =>
    if w.isCancelled st.visited then some (.ok (.partialProgress, st))
    else
      match src.fillPage st.source st.cursor with
      | (.error stop, _) => some (onStop st stop)
      | (.ok none, _) =>
        if st.phase = .paging ∧ st.executedAnyPage then some (.error .exhaustedWithoutTerminalPage)
        else some (.ok (.exhaustedEmptyConfirmed, st))
      | (.ok (some page), s) =>
        match src.validatePageSequence page st.cursor.lastKey with
        | .error violation => some (.error (.violation violation))
        | .ok () =>
          if st.phase = .awaitingExhaustedEmpty then some (.error .pageAfterTerminalPage)
          else
            match w.scanPage s page.items with
            | (.error message, _) => some (.error (.driver message))
            | (.ok false, _) => some (.ok (.partialProgress, st))
            | (.ok true, s) => scanOrderedSource src w fuel (src.behind st page s)

def LoopState.start (s : σ) (cursor : Cursor) : LoopState σ ι := ⟨s, cursor, .paging, false, []⟩

/-! ### The page loop follows the drain -/

structure Worker.Succeeds (w : Worker σ ι) : Prop where
  running : ∀ visited, w.isCancelled visited = false
  scans : ∀ s items, (w.scanPage s items).1 = .ok true

/-- What the source answers to a sequence of requests. -/
def Source.answers (src : Source σ ι) :
    σ → List Cursor → List (Except EnumerateError (Option (PageBuf ι)))
  | _, [] => []
  | s, cursor :: rest => (src.fillPage s cursor).1 :: src.answers (src.fillPage s cursor).2 rest

/-- The pages are stable for the duration of a scan: reading items does not change them. -/
def Source.Stable (src : Source σ ι) (w : Worker σ ι) : Prop :=
  ∀ s items cursors, src.answers (w.scanPage s items).2 cursors = src.answers s cursors

/-- The pages of a shard from a cursor on, up to the given number: until one is terminal or no page
is returned. -/
def Source.pages (src : Source σ ι) : Nat → σ → Cursor → List (PageBuf ι)
  | 0, _, _ => []
  | n + 1, s, cursor =>
    match src.fillPage s cursor with
    | (.ok (some page), s) =>
      match page.state with
      | .hasMore next => page :: src.pages n s next
      | .complete => [page]
    | _ => []

variable {src : Source σ ι} {w : Worker σ ι} {st : LoopState σ ι}

theorem exhausted_eq_ok (h : exhausted answer phase i more drained = .ok result) :
    answer = .ok none ∧ result = drained := by
  match answer with
  | .error _ | .ok (some _) => cases h
  | .ok none =>
    cases h
    exact ⟨rfl, rfl⟩

/-- Two states that no requests tell apart. -/
def Source.Alike (src : Source σ ι) (s s' : σ) : Prop :=
  ∀ cursors, src.answers s cursors = src.answers s' cursors

theorem Source.Alike.fillPage {s s' : σ} (h : src.Alike s s') (cursor) :
    (src.fillPage s cursor).1 = (src.fillPage s' cursor).1 ∧
      src.Alike (src.fillPage s cursor).2 (src.fillPage s' cursor).2 :=
  ⟨(cons.inj (h [cursor])).1, fun rest => (cons.inj (h (cursor :: rest))).2⟩

/-- An empty answer confirms the end, unless it follows a page that is not terminal. -/
theorem scan_empty (hw : w.Succeeds) (hf : (src.fillPage st.source st.cursor).1 = .ok none) (fuel) :
    scanOrderedSource src w (fuel + 1) st =
      if st.phase = .paging ∧ st.executedAnyPage then some (.error .exhaustedWithoutTerminalPage)
      else some (.ok (.exhaustedEmptyConfirmed, st)) := by
  rw [scanOrderedSource, hw.running, if_neg Bool.false_ne_true]
  cases h : src.fillPage st.source st.cursor with
  | mk answer s =>
    rw [h] at hf
    cases hf
    rfl

theorem scan_page (hw : w.Succeeds) (hf : (src.fillPage st.source st.cursor).1 = .ok (some page))
    (hv : src.validatePageSequence page st.cursor.lastKey = .ok ()) (hp : st.phase = .paging)
      (fuel) :
    scanOrderedSource src w (fuel + 1) st = scanOrderedSource src w fuel
      (src.behind st page (w.scanPage (src.fillPage st.source st.cursor).2 page.items).2) := by
  rw [scanOrderedSource, hw.running, if_neg Bool.false_ne_true]
  cases h : src.fillPage st.source st.cursor with
  | mk answer s =>
    rw [h] at hf
    cases hf
    dsimp only
    rw [hv]
    dsimp only
    rw [if_neg (by rw [hp]; decide)]
    cases hs : w.scanPage s page.items with
    | mk result s' =>
      have := hw.scans s page.items
      rw [hs] at this
      cases this
      rfl

def Confirms (src : Source σ ι) (w : Worker σ ι) (fuel : Nat) (st : LoopState σ ι)
    (items : List ι) : Prop :=
  ∃ st', scanOrderedSource src w fuel st = some (.ok (.exhaustedEmptyConfirmed, st')) ∧
    st'.visited = items

theorem scan_of_drain (hw : w.Succeeds) (hstable : src.Stable w) (hp : st.phase = .paging)
    (hs : src.Alike st.source s)
    (h : drainFromCursor src maxPages n st.cursor st.cursor.lastKey (st.visited, lengths) s =
      .ok (items, lengths')) :
    Confirms src w (n + 1) st items ↔ match (src.pages n s st.cursor).getLast? with
      | none => st.executedAnyPage = false
      | some page => page.state = .complete := by
  -- the turns of both loops correspond; the last turn of the page loop is the drain's final probe
  induction n generalizing st lengths s with
  | zero => cases h
  | succ n ih =>
    rw [drainFromCursor] at h
    rw [Source.pages]
    obtain ⟨hanswer, halike⟩ := hs.fillPage st.cursor
    split at h
    · cases h
    next s' hf =>
      rw [hf] at hanswer ⊢
      have hi : items = st.visited := by
        split at h
        · cases h
          rfl
        · exact (congrArg Prod.fst (exhausted_eq_ok h).2)
      rw [Confirms, scan_empty hw hanswer, hp, hi]
      cases st.executedAnyPage with
      | false => exact ⟨fun _ => rfl, fun _ => ⟨st, rfl, rfl⟩⟩
      | true => exact ⟨fun ⟨_, he, _⟩ => (nomatch he), fun hc => (nomatch hc)⟩
    next page s' hf =>
      rw [hf] at hanswer halike ⊢
      split at h
      · cases h
      next hv =>
        rw [Confirms, scan_page hw hanswer hv hp (n + 1)]
        have hs' : src.Alike (w.scanPage (src.fillPage st.source st.cursor).2 page.items).2 s' :=
          fun cursors => (hstable _ _ cursors).trans (halike cursors)
        generalize (w.scanPage (src.fillPage st.source st.cursor).2 page.items).2 = t at hs'
        cases hst : page.state with
        | hasMore next =>
          rw [hst] at h
          simp only [hst] at h ⊢
          split at h
          · cases h
          have hb : src.behind st page t = ⟨t, next, st.phase, true, st.visited ++ page.items⟩ := by
            rw [Source.behind, Source.resumeCursor, hst]
          rw [hb]
          refine (ih (show (⟨t, next, st.phase, true, st.visited ++ page.items⟩ :
            LoopState σ ι).phase = .paging from hp) hs' h).trans ?_
          rw [getLast?_cons]
          cases (src.pages n s' next).getLast? with
          | none => simp [hst]
          | some last => rfl
        | complete =>
          rw [hst] at h
          obtain ⟨ha, hi⟩ := exhausted_eq_ok h
          cases hi
          have hempty := (hs'.fillPage (src.resumeCursor page)).1.trans ha
          simp only [hst, getLast?_singleton, iff_true]
          refine ⟨src.behind st page t, ?_, rfl⟩
          rw [scan_empty hw hempty, if_neg]
          simp [Source.behind, hst]

/-- The page loop accepts what the drain accepts, and visits the same items, if and only if the
source returns no page or its last page is terminal. -/
theorem loop_accepts_drained (hw : w.Succeeds) (hstable : src.Stable w) (s : σ) (cursor : Cursor)
    (h : drainFromCursor src maxPages maxPages cursor cursor.lastKey ([], []) s =
      .ok (items, lengths)) :
    Confirms src w (maxPages + 1) (.start s cursor) items ↔
      ∀ page ∈ (src.pages maxPages s cursor).getLast?, page.state = .complete := by
  refine (scan_of_drain hw hstable (show (LoopState.start s cursor : LoopState σ ι).phase = _
    from rfl)
    (fun _ => rfl) h).trans ?_
  dsimp only [LoopState.start]
  cases (src.pages maxPages s cursor).getLast? with
  | none => simp
  | some page => simp

/-- A source that answers by the last key only, and counts its calls. -/
def keyed (answer : Option Bytes → Option (PageBuf Bytes)) : Source Nat Bytes where
  fillPage s cursor := (.ok (answer cursor.lastKey), s + 1)
  itemKey := id
  shardStart := []
  shardEnd := []

def scanAll : Worker Nat Bytes := ⟨fun s items => (.ok true, s + items.length), fun _ => false⟩

theorem keyed_stable (answer) : (keyed answer).Stable scanAll := by
  have h : ∀ cursors s s', (keyed answer).answers s cursors =
    (keyed answer).answers s' cursors := by
    intro cursors
    induction cursors with
    | nil => exact fun _ _ => rfl
    | cons cursor rest ih => exact fun s s' => congrArg (_ :: ·) (ih (s + 1) (s' + 1))
  exact fun s items cursors => h cursors _ s

/-- Three pages, the last one terminal. -/
def threePages : Option Bytes → Option (PageBuf Bytes)
  | none => some ⟨[[97], [98]], .hasMore ⟨some [98], none⟩⟩
  | some [98] => some ⟨[[99]], .hasMore ⟨some [99], none⟩⟩
  | some [99] => some ⟨[[100], [101]], .complete⟩
  | some _ => none

theorem loop_accepts_drained_pages :
    Confirms (keyed threePages) scanAll 5 (.start 0 ⟨none, none⟩)
      [[97], [98], [99], [100], [101]] :=
  (loop_accepts_drained ⟨fun _ => rfl, fun _ _ => rfl⟩ (keyed_stable threePages) 0 ⟨none, none⟩
    (show drainFromCursor (keyed threePages) 4 4 _ _ _ _ = .ok (_, [2, 1, 2]) from rfl)).mpr
    (by rintro page ⟨⟩; rfl)

/-- One page that announces more, with nothing behind it. -/
def announcedMore : Option Bytes → Option (PageBuf Bytes)
  | none => some ⟨[[97]], .hasMore ⟨some [97], none⟩⟩
  | some _ => none

/-- The drain accepts the source and the loop does not. -/
theorem announced_more_rejected :
    drainFromCursor (keyed announcedMore) 2 2 ⟨none, none⟩ none ([], []) 0 = .ok ([[97]], [1]) ∧
    scanOrderedSource (keyed announcedMore) scanAll 3 (.start 0 ⟨none, none⟩) =
      some (.error .exhaustedWithoutTerminalPage) :=
  ⟨rfl, rfl⟩

end GossipRs.Runtime.PageLoop
