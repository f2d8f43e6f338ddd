import GossipRs.Git.TreeDiffWalk

/-! Whole calls of `diff_trees`: they end, and without a limit emit exactly the candidates of the
two trees, in path order. -/

namespace GossipRs.Git

open Lib List

variable {s s' : DiffState} {f₁ : DiffFrame} {below : List DiffFrame} {news olds : List TreeEntry}
  {dir : Bytes} {root : Pair} {ls : List Pair}

section Exact

variable {env : DiffEnv} {entries : OidBytes → List TreeEntry} {has : OidBytes → Prop}

def Contributes (entries : OidBytes → List TreeEntry) (l : Pair) (c : DiffCandidate) : Prop :=
  Cand entries l.news l.olds l.dir c

def PathBefore (A B : DiffCandidate → Prop) : Prop := ∀ c, A c → ∀ c', B c' → c.path < c'.path

structure Splits (entries : OidBytes → List TreeEntry) (l : Pair) (em : List DiffCandidate)
    (ls : List Pair) : Prop where
  covers : ∀ c, Contributes entries l c ↔ c ∈ em ∨ ∃ l' ∈ ls, Contributes entries l' c
  ordered : em.Pairwise fun a b => a.path < b.path
  before : ∀ l' ∈ ls, PathBefore (· ∈ em) (Contributes entries l')
  frames : ls.Pairwise fun a b => PathBefore (Contributes entries a) (Contributes entries b)

/-! ### Work -/

/-- The rounds that a tree takes at most, with this much depth left. -/
def diffTreeWork (entries : OidBytes → List TreeEntry) : Nat → OidBytes → Nat
  | 0, _ => 0
  | depth + 1, t => 1 + ((entries t).map fun e => 1 + diffTreeWork entries depth e.oid).sum

def sideWork (entries : OidBytes → List TreeEntry) (depth : Nat) (es : List TreeEntry) : Nat :=
  (es.map fun e => 1 + diffTreeWork entries depth e.oid).sum

def pairsWork (env : DiffEnv) (entries : OidBytes → List TreeEntry) : List Pair → Nat
  | [] => 0
  | l :: ls =>
    1 + sideWork entries (env.maxDepth - (ls.length + 1)) l.news +
      sideWork entries (env.maxDepth - (ls.length + 1)) l.olds + pairsWork env entries ls

theorem sideWork_cons :
    sideWork entries depth (e :: es) =
      1 + diffTreeWork entries depth e.oid + sideWork entries depth es := by
  rw [sideWork, map_cons, List.sum_cons, ← sideWork]

theorem sideWork_append :
    sideWork entries depth (es ++ es') =
      sideWork entries depth es + sideWork entries depth es' := by
  rw [sideWork, map_append, List.sum_append, ← sideWork, ← sideWork]

theorem diffTreeWork_eq {depth k} (h : k < depth) (t) :
    diffTreeWork entries (depth - k) t = 1 + sideWork entries (depth - (k + 1)) (entries t) := by
  obtain ⟨d, hd⟩ : ∃ d, depth - k = d + 1 := ⟨depth - k - 1, by omega⟩
  have hd' : depth - (k + 1) = d := by omega
  rw [hd, diffTreeWork, hd', sideWork]

theorem sideWork_sideOf_le {depth k} {matched : Option TreeEntry} {o} (h : k < depth)
    (hmatched : ∀ t, o = some t → ∃ old, matched = some old ∧ old.oid = t) :
    sideWork entries (depth - (k + 1)) (sideOf entries o) ≤
      sideWork entries (depth - k) matched.toList := by
  cases o with
  | none => exact Nat.zero_le _
  | some t =>
    obtain ⟨old, rfl, rfl⟩ := hmatched t rfl
    rw [Option.toList_some, sideWork_cons, diffTreeWork_eq h old.oid]
    exact Nat.le_trans (Nat.le_add_left _ _) (by
      show 1 + sideWork entries _ (entries old.oid) ≤ _
      omega)

/-! ### One round -/

structure Moved (env : DiffEnv) (entries : OidBytes → List TreeEntry) (has : OidBytes → Prop)
    (s s' : DiffState) (below : List DiffFrame) (l : Pair) (em : List DiffCandidate)
    (fs : List DiffFrame) (ls : List Pair) : Prop where
  out : s'.out = s.out ++ em
  frames : s'.frames = fs ++ below
  frameAt : List.Forall₂ (FrameAt env) fs ls
  ok : ∀ l' ∈ ls, SideOk has l'.news ∧ SideOk has l'.olds
  splits : Splits entries l em ls
  work : ∀ rest : List Pair, rest.length = below.length →
    pairsWork env entries (ls ++ rest) < pairsWork env entries (l :: rest)

theorem moved_of_handles {s₁ n matched} (hou : s₁.out = s.out) (hfr : s₁.frames = f₁ :: below)
    (hf₁ : FrameAt env f₁ ⟨news, olds, dir⟩) (hne : SideOk has (n :: news))
    (holds : SideOk has olds)
    (hs : ∀ c, Cand entries (n :: news) (matched.toList ++ olds) dir c ↔
      Cand entries [n] (matched.toList ++ olds) dir c ∨ Cand entries news olds dir c)
    (h : Handles env entries has n matched (matched.toList ++ olds) dir s₁ s') :
    ∃ em fs ls,
      Moved env entries has s s' below ⟨n :: news, matched.toList ++ olds, dir⟩ em fs ls := by
  have hl := (pairwise_cons.mp hne.sorted).1
  have hb : ∀ {c c' : DiffCandidate}, Cand entries [n] (matched.toList ++ olds) dir c →
      Cand entries news olds dir c' → c.path < c'.path := fun hc hc' =>
    cand_before (hne.clean n mem_cons_self)
      (fun m hm => hne.clean m (mem_cons_of_mem _ hm)) hl hc hc'
  have hok : SideOk has news ∧ SideOk has olds := ⟨hne.tail, holds⟩
  -- the work of the entries that go
  have hg : ∀ d, sideWork entries d (n :: news) + sideWork entries d (matched.toList ++ olds) =
      1 + diffTreeWork entries d n.oid + sideWork entries d matched.toList +
        (sideWork entries d news + sideWork entries d olds) := by
    intro d
    rw [sideWork_cons, sideWork_append]
    omega
  have hst : ∀ rest : List Pair, rest.length = below.length →
      pairsWork env entries ([⟨news, olds, dir⟩] ++ rest) <
        pairsWork env entries (⟨n :: news, matched.toList ++ olds, dir⟩ :: rest) := by
    intro rest _
    have := hg (env.maxDepth - (rest.length + 1))
    rw [singleton_append, pairsWork, pairsWork]
    dsimp only
    omega
  cases h with
  | nothing hf ho hno =>
    refine ⟨[], [f₁], [⟨news, olds, dir⟩], ?_⟩
    refine
      { out := by rw [ho, hou, append_nil]
        frames := by rw [hf, hfr]; rfl
        frameAt := .cons hf₁ .nil
        ok := fun l' hl' => by rw [mem_singleton.mp hl']; exact hok
        splits := ⟨fun c => ?_, List.Pairwise.nil, fun l' _ c hc => (by cases hc),
          pairwise_singleton _ _⟩
        work := hst }
    rw [Contributes, hs]
    refine ⟨fun hc => .inr ⟨_, mem_cons_self, hc.resolve_left (hno c)⟩, fun hc => .inr ?_⟩
    rcases hc with hc | ⟨l', hl', hc⟩
    · cases hc
    · rw [mem_singleton.mp hl'] at hc
      exact hc
  | emitted c₀ hf ho hif =>
    refine ⟨[c₀], [f₁], [⟨news, olds, dir⟩], ?_⟩
    refine
      { out := by rw [ho, hou]
        frames := by rw [hf, hfr]; rfl
        frameAt := .cons hf₁ .nil
        ok := fun l' hl' => by rw [mem_singleton.mp hl']; exact hok
        splits := ⟨fun c => ?_, pairwise_singleton _ _, fun l' hl' c hc c' hc' => ?_,
          pairwise_singleton _ _⟩
        work := hst }
    · rw [Contributes, hs, hif, mem_singleton]
      refine or_congr_right ⟨fun hc => ⟨_, mem_cons_self, hc⟩, fun hc => ?_⟩
      obtain ⟨l', hl', hc⟩ := hc
      rw [mem_singleton.mp hl'] at hc
      exact hc
    · rw [mem_singleton.mp hl'] at hc'
      exact hb ((hif c).mpr (mem_singleton.mp hc)) hc'
  | pushed f o hf ho hd hsub hol hmatched hat hif =>
    refine ⟨[], [f, f₁], [⟨entries n.oid, sideOf entries o, dir ++ n.name ++ [slash]⟩,
      ⟨news, olds, dir⟩], ?_⟩
    refine
      { out := by rw [ho, hou, append_nil]
        frames := by rw [hf, hfr]; rfl
        frameAt := .cons hat (.cons hf₁ .nil)
        ok := fun l' hl' => ?_
        splits := ⟨fun c => ?_, List.Pairwise.nil, fun l' _ c hc => (by cases hc), ?_⟩
        work := fun rest hr => ?_ }
    · rcases mem_cons.mp hl' with rfl | hl'
      · exact ⟨hsub, hol⟩
      · rw [mem_singleton.mp hl']
        exact hok
    · rw [Contributes, hs, hif]
      constructor
      · intro hc
        rcases hc with hc | hc
        · exact .inr ⟨_, mem_cons_self, hc⟩
        · exact .inr ⟨_, mem_cons_of_mem _ mem_cons_self, hc⟩
      intro hc
      rcases hc with hc | ⟨l', hl', hc⟩
      · cases hc
      rcases mem_cons.mp hl' with rfl | hl'
      · exact .inl hc
      · rw [mem_singleton.mp hl'] at hc
        exact .inr hc
    · refine pairwise_cons.mpr ⟨fun l' hl' c hc c' hc' => ?_, pairwise_singleton _ _⟩
      rw [mem_singleton.mp hl'] at hc'
      exact hb ((hif c).mpr hc) hc'
    · rw [hfr, length_cons, ← hr] at hd
      have hn := @diffTreeWork_eq entries env.maxDepth (rest.length + 1) hd n.oid
      have hol := @sideWork_sideOf_le entries _ _ matched o hd hmatched
      have := hg (env.maxDepth - (rest.length + 1))
      rw [cons_append, singleton_append, pairsWork, pairsWork, pairsWork]
      dsimp only
      rw [length_cons]
      omega

theorem moved_of_delete (ho : s'.out = s.out) (hf : s'.frames = f₁ :: below)
    (hf₁ : FrameAt env f₁ ⟨news, olds, dir⟩) (hn : SideOk has news) (holds : SideOk has olds)
    (hne : ∀ n ∈ news, sortKey n ≠ sortKey o) :
    ∃ em fs ls, Moved env entries has s s' below ⟨news, o :: olds, dir⟩ em fs ls := by
  refine ⟨[], [f₁], [⟨news, olds, dir⟩], ?_⟩
  refine
    { out := by rw [ho, append_nil]
      frames := by rw [hf]; rfl
      frameAt := .cons hf₁ .nil
      ok := fun l' hl' => by rw [mem_singleton.mp hl']; exact ⟨hn, holds⟩
      splits := ⟨fun c => ?_, List.Pairwise.nil, fun l' _ c hc => (by cases hc),
        pairwise_singleton _ _⟩
      work := fun rest _ => ?_ }
  · rw [Contributes, cand_drop_old hne]
    refine ⟨fun hc => .inr ⟨_, mem_cons_self, hc⟩, fun hc => ?_⟩
    rcases hc with hc | ⟨l', hl', hc⟩
    · cases hc
    · rw [mem_singleton.mp hl'] at hc
      exact hc
  rw [singleton_append, pairsWork, pairsWork]
  dsimp only
  rw [sideWork_cons]
  omega

theorem moved_of_pop (ho : s'.out = s.out) (hf : s'.frames = below) :
    ∃ em fs ls, Moved env entries has s s' below ⟨[], [], dir⟩ em fs ls := by
  refine ⟨[], [], [], ?_⟩
  refine
    { out := by rw [ho, append_nil]
      frames := hf
      frameAt := .nil
      ok := fun l' hl' => (by cases hl')
      splits := ⟨fun c => ⟨fun hc => absurd hc not_cand_nil, fun hc => ?_⟩, List.Pairwise.nil,
        fun l' hl' => (by cases hl'), List.Pairwise.nil⟩
      work := fun rest _ => ?_ }
  · rcases hc with hc | ⟨l', hl', -⟩
    · cases hc
    · cases hl'
  · rw [nil_append, pairsWork]
    omega

theorem diffStep_of_act {Q : DiffState → Prop}
    (hn : f.newCursor.peekEntry env.oidLen = .ok (new, nc))
    (ho : f.oldCursor.peekEntry env.oidLen = .ok (old, oc)) (hac : ∀ s₀, s₀.out = s.out → ∀ r,
      act env s₀ { f with newCursor := nc, oldCursor := oc } below (computeAction new old) = r →
        (∃ err, r = .error err ∧ Limit env err) ∨ ∃ s', r = .ok s' ∧ Q s') :
    (∃ err, diffStep env s f below = .error err ∧ Limit env err) ∨
      ∃ s', diffStep env s f below = .ok s' ∧ Q s' := by
  rw [diffStep, hn, ho]
  dsimp only
  generalize (if (computeAction new old).isPop then s.entryCount else s.entryCount + 1) = count
  by_cases ha : (!(computeAction new old).isPop && decide (count % 4096 = 0) &&
      env.aborted count) = true
  · exact .inl ⟨_, if_pos ha, .inl ⟨rfl, count, (Bool.and_eq_true_iff.mp ha).2⟩⟩
  · rw [if_neg ha]
    exact hac { s with entryCount := count } rfl _ rfl

theorem added_spec (hwf : WellFormedStore env entries has) (hou : s₁.out = s.out)
    (hf : s₁.frames = f₁ :: below) (hf₁ : FrameAt env f₁ ⟨news, olds, dir⟩)
    (hn : SideOk has (n :: news)) (holds : SideOk has olds)
    (ho : ∀ o ∈ olds, sortKey n ≠ sortKey o) :
    (∃ err, handleNewEntry env s₁ dir n = .error err ∧ Limit env err) ∨
      ∃ s', handleNewEntry env s₁ dir n = .ok s' ∧
        ∃ em fs ls, Moved env entries has s s' below ⟨n :: news, olds, dir⟩ em fs ls := by
  rcases @handleNewEntry_spec s₁ dir n olds env entries has hwf
    (hn.closed n mem_cons_self) ho with ⟨err, he, hl⟩ | ⟨s', he, hh⟩
  · exact .inl ⟨err, he, hl⟩
  · exact .inr ⟨s', he, @moved_of_handles s s' f₁ below news olds dir env entries has s₁ n none
      hou hf hf₁ hn holds (fun c => cand_cons) hh⟩

theorem matched_spec (hwf : WellFormedStore env entries has) (ho : s₁.out = s.out)
    (hf : s₁.frames = f₁ :: below) (hf₁ : FrameAt env f₁ ⟨news, olds, dir⟩)
    (hn : SideOk has (n :: news)) (holds : SideOk has (o :: olds))
    (he : sortKey n = sortKey o) :
    (∃ err, handleMatchedEntries env s₁ dir n o = .error err ∧ Limit env err) ∨
      ∃ s', handleMatchedEntries env s₁ dir n o = .ok s' ∧
        ∃ em fs ls, Moved env entries has s s' below ⟨n :: news, o :: olds, dir⟩ em fs ls := by
  have hnl := (pairwise_cons.mp hn.sorted).1
  have hol := (pairwise_cons.mp holds.sorted).1
  rcases @handleMatchedEntries_spec s₁ dir n olds env entries has hwf o
    (hn.closed n mem_cons_self) (holds.closed o mem_cons_self) he
    (fun o' ho' => he ▸ (hol o' ho').ne) with ⟨err, hr, hl⟩ | ⟨s', hr, hh⟩
  · exact .inl ⟨err, hr, hl⟩
  refine .inr ⟨s', hr, @moved_of_handles s s' f₁ below news olds dir env entries has s₁ n
    (some o) ho hf hf₁ hn holds.tail (fun c => ?_) hh⟩
  refine cand_cons.trans (or_congr_right (cand_drop_old fun m hm => ?_))
  exact he ▸ (hnl m hm).ne'

theorem diffStep_spec (hwf : WellFormedStore env entries has) (ha : FrameAt env f l)
    (hne : SideOk has l.news) (holds : SideOk has l.olds) :
    (∃ err, diffStep env s f below = .error err ∧ Limit env err) ∨
      ∃ s', diffStep env s f below = .ok s' ∧
        ∃ em fs ls, Moved env entries has s s' below l em fs ls := by
  obtain ⟨news, olds, _⟩ := l
  obtain ⟨hnew, hol, rfl⟩ := ha
  dsimp only at hnew hol hne holds
  cases news with
  | nil =>
    obtain ⟨nc, hnp, hnc⟩ := hnew.peek_nil
    cases olds with
    | nil =>
      obtain ⟨oc, hop, hoc⟩ := hol.peek_nil
      exact diffStep_of_act hnp hop fun s₀ hs₀ r hr => .inr ⟨_, hr.symm, moved_of_pop hs₀ rfl⟩
    | cons o olds =>
      obtain ⟨olen, oc, hop, hoc, hoa⟩ := hol.peek_cons
      exact diffStep_of_act hnp hop fun s₀ hs₀ r hr => .inr ⟨_, hr.symm,
        moved_of_delete hs₀ rfl ⟨hnc, hoa, rfl⟩ hne holds.tail (fun n hn => by cases hn)⟩
  | cons n news =>
    obtain ⟨_, nc, hnp, hnc, hna⟩ := hnew.peek_cons
    cases olds with
    | nil =>
      obtain ⟨oc, hop, hoc⟩ := hol.peek_nil
      refine diffStep_of_act hnp hop fun s₀ hs₀ r hr => hr ▸ ?_
      exact added_spec hwf hs₀ rfl ⟨hna, hoc, rfl⟩ hne holds (fun o ho => by cases ho)
    | cons o olds =>
      obtain ⟨olen, oc, hop, hoc, hoa⟩ := hol.peek_cons
      have hnl := (pairwise_cons.mp hne.sorted).1
      have holt := (pairwise_cons.mp holds.sorted).1
      have hcm := gitTreeNameCmp_eq (hne.clean n mem_cons_self)
        (holds.clean o mem_cons_self) n.kind.isTree o.kind.isTree
      refine diffStep_of_act hnp hop fun s₀ hs₀ r hr => hr ▸ ?_
      rw [computeAction]
      cases hc : gitTreeNameCmp n.name n.kind.isTree o.name o.kind.isTree with
      | lt =>
        have hl : sortKey n < sortKey o := orderCmp_lt_iff.mp (hcm.symm.trans hc)
        refine added_spec hwf hs₀ rfl ⟨hna, hoc, rfl⟩ hne holds fun o' ho' => ?_
        rcases mem_cons.mp ho' with rfl | ho'
        · exact hl.ne
        · exact (hl.trans (holt o' ho')).ne
      | gt =>
        have hg : sortKey o < sortKey n := orderCmp_gt_iff.mp (hcm.symm.trans hc)
        refine .inr ⟨_, rfl, moved_of_delete hs₀ rfl ⟨hnc, hoa, rfl⟩ hne holds.tail fun m hm => ?_⟩
        rcases mem_cons.mp hm with rfl | hm
        · exact hg.ne'
        · exact (hg.trans (hnl m hm)).ne'
      | eq =>
        exact matched_spec hwf hs₀ rfl ⟨hna, hoa, rfl⟩ hne holds
          (orderCmp_eq_iff.mp (hcm.symm.trans hc))

/-- Between the rounds the frames hold pairs of sides, and the candidates of the roots are those
emitted and those the frames still have to give, in path order. -/
structure DiffInv (env : DiffEnv) (entries : OidBytes → List TreeEntry) (has : OidBytes → Prop)
    (root : Pair) (s : DiffState) (ls : List Pair) : Prop where
  frameAt : List.Forall₂ (FrameAt env) s.frames ls
  ok : ∀ l ∈ ls, SideOk has l.news ∧ SideOk has l.olds
  covers : ∀ c, Contributes entries root c ↔ c ∈ s.out ∨ ∃ l ∈ ls, Contributes entries l c
  ordered : s.out.Pairwise (fun c c' => c.path < c'.path)
  before : ∀ l ∈ ls, PathBefore (· ∈ s.out) (Contributes entries l)
  stack : ls.Pairwise fun l l' => PathBefore (Contributes entries l) (Contributes entries l')

theorem DiffInv.step {em} (h : DiffInv env entries has root s (l :: ls))
    (hb : Forall₂ (FrameAt env) below ls) (hm : Moved env entries has s s' below l em fs ls') :
    DiffInv env entries has root s' (ls' ++ ls) := by
  have hl := h.before l mem_cons_self
  have hs := pairwise_cons.mp h.stack
  have he : ∀ c ∈ em, Contributes entries l c := fun c hc => (hm.splits.covers c).mpr (.inl hc)
  have hls' : ∀ l' ∈ ls', ∀ c, Contributes entries l' c → Contributes entries l c :=
    fun l' hl' c hc => (hm.splits.covers c).mpr (.inr ⟨l', hl', hc⟩)
  refine
    { frameAt := by rw [hm.frames]; exact rel_append hm.frameAt hb
      ok := fun l' hl' => ?_
      covers := fun c => ?_
      ordered := ?_
      before := fun l' hl' c hc c' hc' => ?_
      stack := pairwise_append.mpr ⟨hm.splits.frames, hs.2, fun l₁ hl₁ l₂ hl₂ c hc c' hc' =>
        hs.1 l₂ hl₂ c (hls' l₁ hl₁ c hc) c' hc'⟩ }
  · rcases mem_append.mp hl' with hl' | hl'
    · exact hm.ok l' hl'
    · exact h.ok l' (mem_cons_of_mem _ hl')
  · rw [h.covers, hm.out, mem_append]
    constructor
    · rintro (hc | ⟨l', hl', hc⟩)
      · exact .inl (.inl hc)
      rcases mem_cons.mp hl' with rfl | hl'
      · rcases (hm.splits.covers c).mp hc with hc | ⟨l'', hl'', hc⟩
        · exact .inl (.inr hc)
        · exact .inr ⟨l'', mem_append_left _ hl'', hc⟩
      · exact .inr ⟨l', mem_append_right _ hl', hc⟩
    rintro ((hc | hc) | ⟨l', hl', hc⟩)
    · exact .inl hc
    · exact .inr ⟨l, mem_cons_self, he c hc⟩
    rcases mem_append.mp hl' with hl' | hl'
    · exact .inr ⟨l, mem_cons_self, hls' l' hl' c hc⟩
    · exact .inr ⟨l', mem_cons_of_mem _ hl', hc⟩
  · rw [hm.out]
    exact pairwise_append.mpr ⟨h.ordered, hm.splits.ordered, fun c hc c' hc' =>
      hl c hc c' (he c' hc')⟩
  · rw [hm.out] at hc
    rcases mem_append.mp hl' with hl' | hl'
    · rcases mem_append.mp hc with hc | hc
      · exact hl c hc c' (hls' l' hl' c' hc')
      · exact hm.splits.before l' hl' c hc c' hc'
    rcases mem_append.mp hc with hc | hc
    · exact h.before l' (mem_cons_of_mem _ hl') c hc c' hc'
    · exact hs.1 l' hl' c (he c hc) c' hc'

theorem DiffInv.round (hwf : WellFormedStore env entries has)
    (h : DiffInv env entries has root s ls) (hf : s.frames = f :: below) :
    (∃ err, diffStep env s f below = .error err ∧ Limit env err) ∨
      ∃ s', diffStep env s f below = .ok s' ∧ ∃ ls', DiffInv env entries has root s' ls' ∧
        pairsWork env entries ls' < pairsWork env entries ls := by
  have ha := h.frameAt
  rw [hf] at ha
  cases ha with
  | cons hl hb =>
    rename_i l ls
    obtain ⟨hn, holds⟩ := h.ok l mem_cons_self
    rcases diffStep_spec hwf (s := s) hl hn holds with hli | ⟨s', he, _, _, ls', hm⟩
    · exact .inl hli
    · exact .inr ⟨s', he, ls' ++ ls, h.step hb hm, hm.work ls hb.length_eq.symm⟩

theorem DiffInv.run (hwf : WellFormedStore env entries has) (h : DiffInv env entries has root s ls)
    (hr : DiffRun env s s') : ∃ ls', DiffInv env entries has root s' ls' := by
  induction hr with
  | refl => exact ⟨ls, h⟩
  | tail _ hstep ih =>
    obtain ⟨ls', hi⟩ := ih
    obtain ⟨hf, heq⟩ := hstep
    rcases hi.round hwf hf with ⟨_, he, -⟩ | ⟨_, ho, ls'', hi', -⟩
    · rw [heq] at he
      cases he
    rw [heq] at ho
    cases ho
    exact ⟨ls'', hi'⟩

theorem DiffInv.ends (hwf : WellFormedStore env entries has)
    (h : DiffInv env entries has root s ls) :
    ∃ s', DiffRun env s s' ∧ (s'.frames = [] ∨ ∃ f below err,
      s'.frames = f :: below ∧ diffStep env s' f below = .error err) := by
  -- by induction on the work the frames hold
  induction hw : pairsWork env entries ls using Nat.strong_induction_on generalizing s ls with
  | _ w ih =>
    cases hf : s.frames with
    | nil => exact ⟨s, .refl, .inl hf⟩
    | cons f below =>
      rcases h.round hwf hf with ⟨err, he, -⟩ | ⟨_, ho, _, hi, hl⟩
      · exact ⟨s, .refl, .inr ⟨f, below, err, hf, he⟩⟩
      · obtain ⟨s', hr, hen⟩ := ih _ (hw ▸ hl) hi rfl
        exact ⟨s', .head ⟨hf, ho⟩ hr, hen⟩

end Exact

end GossipRs.Git
