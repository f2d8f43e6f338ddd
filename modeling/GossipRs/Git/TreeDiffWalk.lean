import GossipRs.Git.TreeDiffMerge

/-! The walk of a tree diff over a well-formed store: what each round contributes and leaves, and
that the rounds end. -/

namespace GossipRs.Git

open Lib List

/-- The trees of a store have these entries: every payload parses, in canonical order, no name
twice, and subtrees are in the store. -/
structure WellFormedStore (env : DiffEnv) (entries : OidBytes → List TreeEntry)
    (has : OidBytes → Prop) : Prop where
  loads : ∀ t, has t → ∃ bytes, env.loadTree t = .ok bytes ∧
    ParsesTo env.oidLen bytes.data (entries t)
  sorted : ∀ t, has t → (entries t).Pairwise fun a b =>
    gitTreeNameCmp a.name a.kind.isTree b.name b.kind.isTree = .lt
  nodup : ∀ t, has t → ((entries t).map TreeEntry.name).Nodup
  closed : ∀ t, has t → ∀ e ∈ entries t, e.kind.isTree = true → has e.oid

def Limit (env : DiffEnv) (err : TreeDiffError) : Prop :=
  (err = .aborted ∧ ∃ count, env.aborted count = true) ∨
    err = .maxTreeDepthExceeded env.maxDepth ∨
    (∃ len, maxPathLen < len ∧ err = .pathTooLong len maxPathLen) ∨
    (∃ loaded, env.treeBytesInFlightLimit < loaded ∧
      err = .treeBytesBudgetExceeded loaded env.treeBytesInFlightLimit) ∨
    ∃ out, env.sinkFull out = some err

structure Pair where
  news : List TreeEntry
  olds : List TreeEntry
  dir : Bytes

def FrameAt (env : DiffEnv) (f : DiffFrame) (l : Pair) : Prop :=
  f.newCursor.At env.oidLen l.news ∧ f.oldCursor.At env.oidLen l.olds ∧ f.dir = l.dir

structure SideOk (has : OidBytes → Prop) (es : List TreeEntry) : Prop where
  sorted : es.Pairwise fun a b => sortKey a < sortKey b
  clean : ∀ e ∈ es, CleanName e.name
  closed : ∀ e ∈ es, e.kind.isTree = true → has e.oid

theorem ParsesTo.clean (h : ParsesTo oidLen data es) : ∀ e ∈ es, CleanName e.name := by
  induction h with
  | nil =>
    intro e he
    cases he
  | cons hparse _ _ ih =>
    intro e he
    rcases mem_cons.mp he with rfl | he
    · exact (parseEntry_pos hparse).2.2
    · exact ih e he

variable {o : Option OidBytes} {s : DiffState} {dir : Bytes} {n : TreeEntry} {olds : List TreeEntry}

section Walk

variable {env : DiffEnv} {entries : OidBytes → List TreeEntry} {has : OidBytes → Prop}

theorem WellFormedStore.side (hwf : WellFormedStore env entries has) (ht : has t) :
    SideOk has (entries t) := by
  obtain ⟨_, -, hp⟩ := hwf.loads t ht
  have hc := hp.clean
  refine ⟨(hwf.sorted t ht).imp_of_mem fun {a b} ha hb hab => ?_, hc, hwf.closed t ht⟩
  rwa [gitTreeNameCmp_eq (hc a ha) (hc b hb), orderCmp_lt_iff] at hab

theorem sideOk_nil : SideOk has [] :=
  ⟨List.Pairwise.nil, fun e he => (by cases he), fun e he => (by cases he)⟩

theorem SideOk.tail (h : SideOk has (e :: es)) : SideOk has es :=
  ⟨(pairwise_cons.mp h.sorted).2, fun e' he' => h.clean e' (mem_cons_of_mem _ he'),
    fun e' he' => h.closed e' (mem_cons_of_mem _ he')⟩

def sideOf (entries : OidBytes → List TreeEntry) : Option OidBytes → List TreeEntry
  | none => []
  | some t => entries t

theorem WellFormedStore.sideOf (hwf : WellFormedStore env entries has)
    (ho : ∀ t, o = some t → has t) : SideOk has (sideOf entries o) := by
  cases o with
  | none => exact sideOk_nil
  | some t => exact hwf.side (ho t rfl)

theorem loadTreeCursor_spec (hwf : WellFormedStore env entries has) {inFlight}
    (ho : ∀ t, o = some t → has t) :
    (∃ err, loadTreeCursor env inFlight o = .error err ∧ Limit env err) ∨
      ∃ r, loadTreeCursor env inFlight o = .ok r ∧ r.1.At env.oidLen (Git.sideOf entries o) := by
  cases o with
  | none => exact .inr ⟨_, rfl, ParsesTo.nil⟩
  | some t =>
    obtain ⟨_, hl, hp⟩ := hwf.loads t (ho t rfl)
    rw [loadTreeCursor, hl]
    dsimp only
    split
    · exact .inl ⟨_, rfl, .inr (.inr (.inr (.inl ⟨_, ‹_›, rfl⟩)))⟩
    · exact .inr ⟨_, rfl, TreeCursor.at_new hp _⟩

theorem pushFrame_spec (hwf : WellFormedStore env entries has) {n} (hn : ∀ t, n = some t → has t)
    (ho : ∀ t, o = some t → has t) :
    (∃ err, pushFrame env s dir n o = .error err ∧ Limit env err) ∨
      ∃ s' f, pushFrame env s dir n o = .ok s' ∧ s'.frames = f :: s.frames ∧ s'.out = s.out ∧
        FrameAt env f ⟨Git.sideOf entries n, Git.sideOf entries o, dir⟩ := by
  rw [pushFrame]
  rcases @loadTreeCursor_spec n env entries has hwf s.treeBytesInFlight hn with
    ⟨err, he, hl⟩ | ⟨r, he, hr⟩
  · rw [he]
    exact .inl ⟨err, rfl, hl⟩
  rw [he]
  dsimp only
  rcases @loadTreeCursor_spec o env entries has hwf r.2.2 ho with
    ⟨err, he, hl⟩ | ⟨r', he, hr'⟩
  · rw [he]
    exact .inl ⟨err, rfl, hl⟩
  · rw [he]
    exact .inr ⟨_, _, rfl, rfl, rfl, hr, hr', rfl⟩

inductive Handles (env : DiffEnv) (entries : OidBytes → List TreeEntry) (has : OidBytes → Prop)
    (n : TreeEntry) (matched : Option TreeEntry) (olds : List TreeEntry) (dir : Bytes)
    (s s' : DiffState) : Prop
  | nothing : s'.frames = s.frames → s'.out = s.out → (∀ c, ¬ Cand entries [n] olds dir c) →
      Handles env entries has n matched olds dir s s'
  | emitted (c : DiffCandidate) : s'.frames = s.frames → s'.out = s.out ++ [c] →
      (∀ c', Cand entries [n] olds dir c' ↔ c' = c) →
        Handles env entries has n matched olds dir s s'
  | pushed (f : DiffFrame) (o : Option OidBytes) : s'.frames = f :: s.frames → s'.out = s.out →
      s.frames.length < env.maxDepth → SideOk has (entries n.oid) →
      SideOk has (sideOf entries o) →
      (∀ t, o = some t → ∃ old, matched = some old ∧ old.oid = t) →
      FrameAt env f ⟨entries n.oid, sideOf entries o, dir ++ n.name ++ [slash]⟩ →
      (∀ c', Cand entries [n] olds dir c' ↔
        Cand entries (entries n.oid) (sideOf entries o) (dir ++ n.name ++ [slash]) c') →
      Handles env entries has n matched olds dir s s'

theorem pushSubtree_handles (hwf : WellFormedStore env entries has) (hn : has n.oid)
    (ho : ∀ t, o = some t → has t)
    (hh : ∀ t, o = some t → ∃ old, matched = some old ∧ old.oid = t)
    (hc : ∀ c', Cand entries [n] olds dir c' ↔
      Cand entries (entries n.oid) (sideOf entries o) (dir ++ n.name ++ [slash]) c') :
    (∃ err, pushSubtreeFrame env s dir n.name n.oid o = .error err ∧ Limit env err) ∨
      ∃ s', pushSubtreeFrame env s dir n.name n.oid o = .ok s' ∧
        Handles env entries has n matched olds dir s s' := by
  rw [pushSubtreeFrame]
  split
  · exact .inl ⟨_, rfl, .inr (.inl rfl)⟩
  next hd =>
    split
    · exact .inl ⟨_, rfl, .inr (.inr (.inl ⟨_, ‹_›, rfl⟩))⟩
    have hn' : ∀ t, some n.oid = some t → has t := fun t ht => Option.some.inj ht ▸ hn
    rcases @pushFrame_spec _ s (dir ++ n.name ++ [slash]) env entries has hwf _ hn' ho with
      ⟨err, he, hl⟩ | ⟨s', f, he, hf, hou, ha⟩
    · exact .inl ⟨err, he, hl⟩
    · exact .inr ⟨s', he, .pushed f o hf hou (Nat.not_le.mp hd) (hwf.side hn)
        (hwf.sideOf ho) hh ha hc⟩

theorem emit_handles (hc : ∀ c', Cand entries [n] olds dir c' ↔
      c' = ⟨n.oid, dir ++ n.name, change, n.mode % 2 ^ 16⟩) :
    (∃ err, emitCandidate env s dir n change = .error err ∧ Limit env err) ∨
      ∃ s', emitCandidate env s dir n change = .ok s' ∧
        Handles env entries has n matched olds dir s s' := by
  rw [emitCandidate]
  split
  · exact .inl ⟨_, rfl, .inr (.inr (.inl ⟨_, ‹_›, rfl⟩))⟩
  split
  next err he =>
    exact .inl ⟨err, rfl, .inr (.inr (.inr (.inr ⟨_, he⟩)))⟩
  · exact .inr ⟨_, rfl, .emitted _ rfl rfl hc⟩

theorem cand_blob_iff (hb : n.kind.isBlobLike = true)
    (hne : ∀ o ∈ olds, o.name = n.name → o.kind.isBlobLike = true → o.oid ≠ n.oid) :
    Cand entries [n] olds dir c ↔ c = ⟨n.oid, dir ++ n.name, changeOf olds n, n.mode % 2 ^ 16⟩ := by
  refine ⟨fun hc => ?_, fun hc => hc ▸ .leaf mem_cons_self hb hne⟩
  cases hc with
  | leaf hn _ _ =>
    obtain rfl := mem_singleton.mp hn
    rfl
  | sub hn ht _ _ =>
    obtain rfl := mem_singleton.mp hn
    rw [isTree_of_isBlobLike hb] at ht
    cases ht

theorem cand_tree_iff (ht : n.kind.isTree = true)
    (hne : ∀ o ∈ olds, o.name = n.name → o.kind.isTree = true → o.oid ≠ n.oid) :
    Cand entries [n] olds dir c ↔
      Cand entries (entries n.oid) (oldSub entries olds n) (dir ++ n.name ++ [slash]) c := by
  refine ⟨fun hc => ?_, fun hc => .sub mem_cons_self ht hne hc⟩
  cases hc with
  | leaf hn hblob _ =>
    obtain rfl := mem_singleton.mp hn
    rw [isTree_of_isBlobLike hblob] at ht
    cases ht
  | sub hn _ _ hsub =>
    obtain rfl := mem_singleton.mp hn
    exact hsub

theorem not_cand_other (htr : ¬ n.kind.isTree = true) (hbl : ¬ n.kind.isBlobLike = true) :
    ¬ Cand entries [n] olds dir c := by
  intro hc
  cases hc with
  | leaf hn hb _ =>
    obtain rfl := mem_singleton.mp hn
    exact hbl hb
  | sub hn ht _ _ =>
    obtain rfl := mem_singleton.mp hn
    exact htr ht

theorem handleNewEntry_spec (hwf : WellFormedStore env entries has)
    (hn : n.kind.isTree = true → has n.oid) (hot : ∀ o ∈ olds, sortKey n ≠ sortKey o) :
    (∃ err, handleNewEntry env s dir n = .error err ∧ Limit env err) ∨
      ∃ s', handleNewEntry env s dir n = .ok s' ∧ Handles env entries has n none olds dir s s' := by
  rw [handleNewEntry]
  split
  next htr =>
    have hnon : oldSub entries olds n = [] := by
      rw [oldSub, List.find?_eq_none.mpr fun o ho hy => ?_]
      rw [Bool.and_eq_true, decide_eq_true_iff] at hy
      exact hot o ho (sortKey_eq_iff.mpr ⟨hy.1.symm, htr.trans hy.2.symm⟩)
    refine pushSubtree_handles hwf (hn htr) (fun t ht => (by cases ht))
      (fun t ht => (by cases ht)) fun c' => ?_
    rw [cand_tree_iff htr, hnon]
    · rfl
    · intro o ho hna ht
      exact absurd (sortKey_eq_iff.mpr ⟨hna.symm, htr.trans ht.symm⟩) (hot o ho)
  next htr =>
    split
    next hbl =>
      have hno : ∀ o ∈ olds, o.name = n.name → ¬ o.kind.isBlobLike = true := fun o ho hna hb =>
        hot o ho (sortKey_eq_iff.mpr ⟨hna.symm,
          (isTree_of_isBlobLike hbl).trans (isTree_of_isBlobLike hb).symm⟩)
      refine emit_handles fun c' => ?_
      rw [cand_blob_iff hbl fun o ho hna hb => absurd hb (hno o ho hna)]
      have ha : changeOf olds n = .add := by
        rw [changeOf, if_neg]
        rw [any_eq_true]
        intro hy
        obtain ⟨o, ho, hy⟩ := hy
        rw [Bool.and_eq_true, decide_eq_true_iff] at hy
        exact hno o ho hy.1 hy.2
      rw [ha]
    next hbl =>
      exact .inr ⟨s, rfl, .nothing rfl rfl fun c => not_cand_other htr hbl⟩

theorem handleMatchedEntries_spec (hwf : WellFormedStore env entries has) {o}
    (hn : n.kind.isTree = true → has n.oid) (ho : o.kind.isTree = true → has o.oid)
    (hke : sortKey n = sortKey o) (hoth : ∀ o' ∈ olds, sortKey n ≠ sortKey o') :
    (∃ err, handleMatchedEntries env s dir n o = .error err ∧ Limit env err) ∨
      ∃ s', handleMatchedEntries env s dir n o = .ok s' ∧
        Handles env entries has n (some o) (o :: olds) dir s s' := by
  obtain ⟨hna, hk⟩ := sortKey_eq_iff.mp hke
  have hr : ∀ o' ∈ olds, o'.name = n.name → o'.kind.isTree ≠ n.kind.isTree := fun o' ho' hn' ht =>
    hoth o' ho' (sortKey_eq_iff.mpr ⟨hn'.symm, ht.symm⟩)
  rw [handleMatchedEntries]
  split
  · -- equal subtrees are skipped
    rename_i hs
    refine .inr ⟨s, rfl, .nothing rfl rfl fun c hc => ?_⟩
    cases hc with
    | leaf hn' hb _ =>
      obtain rfl := mem_singleton.mp hn'
      have := isTree_of_isBlobLike hb
      rw [hs.2.1] at this
      cases this
    | sub hn' _ hnew _ =>
      obtain rfl := mem_singleton.mp hn'
      exact hnew o mem_cons_self hna.symm hs.2.2 hs.1.symm
  next hd =>
    split
    next htr =>
      have hot : o.kind.isTree = true := hk ▸ htr
      rw [if_pos hot]
      have hf : oldSub entries (o :: olds) n = entries o.oid := by
        rw [oldSub, List.find?_cons_of_pos]
        simp [hna, hot]
      refine pushSubtree_handles hwf (hn htr) (fun t ht => Option.some.inj ht ▸ ho hot)
        (fun t ht => ⟨o, rfl, Option.some.inj ht⟩) fun c' => ?_
      rw [cand_tree_iff htr, hf]
      · rfl
      intro o' ho' hna' ht he
      rcases mem_cons.mp ho' with rfl | ho'
      · exact hd ⟨he.symm, htr, ht⟩
      · exact hr o' ho' hna' (ht.trans htr.symm)
    next htr =>
      have hot : ¬ o.kind.isTree = true := hk ▸ htr
      split
      next hbl =>
        have hno : ∀ o' ∈ olds, o'.name = n.name → ¬ o'.kind.isBlobLike = true :=
          fun o' ho' hn' hb => hr o' ho' hn'
            ((isTree_of_isBlobLike hb).trans (isTree_of_isBlobLike hbl).symm)
        have ha : (olds.any fun o' => decide (o'.name = n.name) && o'.kind.isBlobLike) = false := by
          rw [any_eq_false]
          intro o' ho' hy
          rw [Bool.and_eq_true, decide_eq_true_iff] at hy
          exact hno o' ho' hy.1 hy.2
        split
        next hob =>
          have hch : changeOf (o :: olds) n = .modify := by
            rw [changeOf, if_pos]
            simp [hna, hob]
          split
          next hoi =>
            refine emit_handles fun c' => ?_
            rw [cand_blob_iff hbl, hch]
            intro o' ho' hna' hb he
            rcases mem_cons.mp ho' with rfl | ho'
            · exact hoi he.symm
            · exact hno o' ho' hna' hb
          next hoi =>
            refine .inr ⟨s, rfl, .nothing rfl rfl fun c hc => ?_⟩
            cases hc with
            | leaf hn' _ hnew =>
              obtain rfl := mem_singleton.mp hn'
              exact hnew o mem_cons_self hna.symm hob (not_not.mp hoi).symm
            | sub hn' ht _ _ =>
              obtain rfl := mem_singleton.mp hn'
              exact htr ht
        next hob =>
          have hch : changeOf (o :: olds) n = .add := by
            rw [changeOf, if_neg]
            rw [any_cons, ha, Bool.or_false, Bool.and_eq_true]
            exact fun h => hob h.2
          refine emit_handles fun c' => ?_
          rw [cand_blob_iff hbl, hch]
          intro o' ho' hna' hb
          rcases mem_cons.mp ho' with rfl | ho'
          · exact absurd hb hob
          · exact absurd hb (hno o' ho' hna')
      next hbl =>
        exact .inr ⟨s, rfl, .nothing rfl rfl fun c => not_cand_other htr hbl⟩

end Walk

end GossipRs.Git
