import GossipRs.Git.BlobIntro

/-! What one step of a blob introduction worker does, said once for every branch of the walk. -/

namespace GossipRs.Git

open Lib List

/-- A path up to a directory: empty, or with its slash at the end. -/
def IsDir (dir : Bytes) : Prop := dir = [] ∨ ∃ d, dir = d ++ [slash]

variable {dir : Bytes}

theorem gitFilename_append (h : IsDir dir) (name : Bytes) :
    gitFilename (dir ++ name) = gitFilename name := by
  rcases h with rfl | ⟨_, rfl⟩
  · rfl
  rw [gitFilename, gitFilename, reverse_append, reverse_append, reverse_singleton]
  congr 1
  induction name.reverse with
  | nil => simp
  | cons b l ih =>
    by_cases hb : (b != slash) = true
    · rw [cons_append]
      simp only [takeWhile_cons, hb, if_true]
      rw [ih]
    · simp [hb]

theorem excludedPath_congr (h : gitFilename p = gitFilename q) :
    excludedPath env p = excludedPath env q := by
  simp [excludedPath, classifyPath, PathClass.isNonscannable, h]

theorem excludedPath_append (h : IsDir dir) (name : Bytes) :
    excludedPath env (dir ++ name) = excludedPath env name :=
  excludedPath_congr (gitFilename_append h name)

variable {w w' : IntroWorker} {e : TreeEntry} {seen seen' : SeenSets}

section Reach

variable (env : IntroEnv)

inductive TreeAt (root : OidBytes) : Bytes → OidBytes → Prop
  | root : TreeAt root [] root
  | sub {dir : Bytes} {t : OidBytes} {entries : List TreeEntry} {e : TreeEntry} :
      TreeAt root dir t → env.loadTree t = .ok entries → e ∈ entries → e.kind = .tree →
      TreeAt root (dir ++ e.name ++ [slash]) e.oid

theorem TreeAt.isDir {root} (h : TreeAt env root dir t) : IsDir dir := by
  cases h with
  | root => exact .inl rfl
  | sub _ _ _ _ => exact .inr ⟨_, rfl⟩

/-- The id occurs in some planned commit's tree as a blob under a path that is scanned. -/
def Occurs (plan : List Nat) (oid : OidBytes) : Prop :=
  ∃ pos ∈ plan, ∃ dir t entries e, TreeAt env (env.rootTreeOid pos) dir t ∧
    env.loadTree t = .ok entries ∧ e ∈ entries ∧ e.kind.isBlobLike = true ∧ e.oid = oid ∧
    excludedPath env (dir ++ e.name) = false

def SoundFrame (plan : List Nat) (f : TreeFrame) : Prop :=
  (∃ pos ∈ plan, TreeAt env (env.rootTreeOid pos) f.dir f.tree) ∧
    ∃ entries, env.loadTree f.tree = .ok entries ∧ ∀ e ∈ f.rest, e ∈ entries

structure SoundWorker (plan : List Nat) (w : IntroWorker) : Prop where
  frames : ∀ f ∈ w.frames, SoundFrame env plan f
  commits : ∀ pos ∈ w.commits, pos ∈ plan

/-- An entry needs no further work: a tree has been entered, a scanned blob marked by some worker.
-/
def Handled (entered : OidBytes → Prop) (seen : SeenSets) (looseSeen : List OidBytes)
    (e : TreeEntry) : Prop :=
  (e.kind = .tree → entered e.oid) ∧
    (e.kind.isBlobLike = true → excludedPath env e.name = false →
      (∀ idx, env.midx.findOid e.oid = some idx → seen.blobs idx = true) ∧
      (env.midx.findOid e.oid = none → e.oid ∈ looseSeen))

inductive Emits (plan : List Nat) (seen seen' : SeenSets) (w w' : IntroWorker) : Prop
  | nothing : w'.out = w.out → seen'.blobs = seen.blobs → w'.looseSeen.oids = w.looseSeen.oids →
      Emits plan seen seen' w w'
  | packed (c : Candidate) (idx : Nat) : Occurs env plan c.oid →
      env.midx.findOid c.oid = some idx → seen.blobs idx = false →
      seen'.blobs = Function.update seen.blobs idx true → w'.out.packed = w.out.packed ++ [c] →
      w'.out.loose = w.out.loose → w'.looseSeen.oids = w.looseSeen.oids →
      Emits plan seen seen' w w'
  | loose (c : Candidate) : Occurs env plan c.oid → env.midx.findOid c.oid = none →
      c.oid ∉ w.looseSeen.oids → w'.looseSeen.oids = c.oid :: w.looseSeen.oids →
      seen'.blobs = seen.blobs → w'.out.packed = w.out.packed →
      w'.out.loose = w.out.loose ++ [c] → Emits plan seen seen' w w'

/-- Everything a step that does not fail can do. `new` is the tree it enters. -/
structure Effect (plan : List Nat) (chunks : List (List Nat)) (shared shared' : IntroShared)
    (w w' : IntroWorker) (new : Option OidBytes) : Prop where
  entered : ∀ t, new = some t → ∃ f ∈ w'.frames, f.tree = t ∧ env.loadTree t = .ok f.rest
  marked : ∀ t idx, env.midx.findOid t = some idx → shared'.seen.trees idx = true →
    shared.seen.trees idx = true ∨ new = some t
  entries : ∀ f ∈ w.frames, ∀ e ∈ f.rest,
    (∃ f' ∈ w'.frames, f'.tree = f.tree ∧ e ∈ f'.rest) ∨
      Handled env (fun t => new = some t ∨
        ∃ idx, env.midx.findOid t = some idx ∧ shared.seen.trees idx = true)
        shared'.seen w'.looseSeen.oids e
  commits : ∀ pos ∈ w.commits, pos ∈ w'.commits ∨ new = some (env.rootTreeOid pos) ∨
    ∃ idx, env.midx.findOid (env.rootTreeOid pos) = some idx ∧ shared.seen.trees idx = true
  claimed : (shared'.nextChunk = shared.nextChunk) ∨
    (shared'.nextChunk = shared.nextChunk + 1 ∧
      ∀ chunk, chunks[shared.nextChunk]? = some chunk → ∀ pos ∈ chunk, pos ∈ w'.commits)
  emits : Emits env plan shared.seen shared'.seen w w'
  sound : SoundWorker env plan w'
  finished : w'.finished = true →
    w'.frames = [] ∧ w'.commits = [] ∧ chunks.length ≤ shared'.nextChunk

end Reach

section Steps

variable {env : IntroEnv} {plan : List Nat} {chunks : List (List Nat)}

theorem pushTree_eq_ok (h : pushTree env w oid dir = .ok w') :
    ∃ entries, env.loadTree oid = .ok entries ∧
      w' = { w with frames := ⟨oid, dir, entries, env.inFlightLen oid⟩ :: w.frames } := by
  rw [pushTree] at h
  split at h
  · cases h
  split at h
  · cases h
  next entries hl =>
    dsimp only at h
    split at h
    · cases h
    · exact ⟨entries, hl, (Except.ok.inj h).symm⟩

theorem enterDir_eq_ok (h : enterDir env w dir e = .ok w') :
    pushTree env w e.oid (dir ++ e.name ++ [slash]) = .ok w' := by
  rw [enterDir] at h
  split at h
  · cases h
  · exact h

theorem visitTree_eq_ok (h : visitTree env seen w oid enter = (seen', .ok w')) :
    seen'.blobs = seen.blobs ∧
    ((w' = w ∧ seen' = seen ∧ ∃ idx, env.midx.findOid oid = some idx ∧ seen.trees idx = true) ∨
      (enter = .ok w' ∧ ∀ t idx, env.midx.findOid t = some idx → seen'.trees idx = true →
        seen.trees idx = true ∨ t = oid)) := by
  rw [visitTree] at h
  split at h
  · cases h
    exact ⟨rfl, .inr ⟨rfl, fun t idx _ hm => .inl hm⟩⟩
  next idx hid =>
    split at h
    next hs =>
      cases h
      exact ⟨rfl, .inl ⟨rfl, rfl, idx, hid, hs⟩⟩
    · obtain ⟨h1, h2⟩ := Prod.mk.inj h
      refine ⟨by rw [← h1], .inr ⟨h2, fun t i ht hm => ?_⟩⟩
      by_cases hi : i = idx
      · have h1 := MidxView.getElem?_of_findOid ht
        rw [hi, MidxView.getElem?_of_findOid hid] at h1
        exact .inr (Option.some.inj h1).symm
      · rw [← h1] at hm
        exact .inl ((Function.update_of_ne hi _ _).symm.trans hm)

theorem emitPacked_eq_ok (h : emitPacked env w c = .ok w') :
    ∃ arenaLen, w' = { w with out := { w.out with packed := w.out.packed ++ [c], arenaLen } } := by
  rw [emitPacked] at h
  split at h
  · cases h
  split at h
  · cases h
  · exact ⟨_, (Except.ok.inj h).symm⟩

theorem emitLoose_eq_ok (h : emitLoose env w c = .ok w') :
    ∃ arenaLen, w' = { w with out := { w.out with loose := w.out.loose ++ [c], arenaLen } } := by
  rw [emitLoose] at h
  split at h
  · cases h
  split at h
  · cases h
  · exact ⟨_, (Except.ok.inj h).symm⟩

theorem LooseOidSet.insert_eq_ok {set set' : LooseOidSet} {new}
    (h : set.insert oid = .ok (new, set')) :
    (new = false ∧ oid ∈ set.oids ∧ set' = set) ∨
      (new = true ∧ oid ∉ set.oids ∧ set'.oids = oid :: set.oids) := by
  rw [LooseOidSet.insert] at h
  split at h
  · cases h
  split at h
  next hm =>
    cases h
    exact .inl ⟨rfl, hm, rfl⟩
  next hm =>
    cases h
    exact .inr ⟨rfl, hm, rfl⟩

/-- Visiting a blob leaves the walk untouched, emits the candidate at most once and marks a scanned
blob. -/
structure BlobEffect (env : IntroEnv) (plan : List Nat) (seen seen' : SeenSets) (w w' : IntroWorker)
    (dir : Bytes) (e : TreeEntry) : Prop where
  same : w'.frames = w.frames ∧ w'.commits = w.commits ∧ w'.finished = w.finished ∧
    seen'.trees = seen.trees
  emits : Emits env plan seen seen' w w'
  marks : excludedPath env (dir ++ e.name) = false →
    (∀ idx, env.midx.findOid e.oid = some idx → seen'.blobs idx = true) ∧
    (env.midx.findOid e.oid = none → e.oid ∈ w'.looseSeen.oids)

theorem excludeBlob_eq_ok (he : excludedPath env (dir ++ e.name) = true)
    (h : excludeBlob env seen w e.oid = (seen', .ok w')) :
    BlobEffect env plan seen seen' w w' dir e := by
  have hm : excludedPath env (dir ++ e.name) = false →
      (∀ idx, env.midx.findOid e.oid = some idx → seen'.blobs idx = true) ∧
      (env.midx.findOid e.oid = none → e.oid ∈ w'.looseSeen.oids) := fun hn => by
    rw [he] at hn
    cases hn
  rw [excludeBlob] at h
  split at h
  · cases h
    exact ⟨⟨rfl, rfl, rfl, rfl⟩, .nothing rfl rfl rfl, hm⟩
  split at h
  · cases h
    exact ⟨⟨rfl, rfl, rfl, rfl⟩, .nothing rfl rfl rfl, hm⟩
  split at h
  · cases h
  · cases h
    exact ⟨⟨rfl, rfl, rfl, rfl⟩, .nothing rfl rfl rfl, hm⟩

theorem introduceBlob_eq_ok (hc : c.oid = e.oid) (ho : Occurs env plan e.oid)
    (h : introduceBlob env seen w c = (seen', .ok w')) :
    BlobEffect env plan seen seen' w w' dir e := by
  rw [introduceBlob, hc] at h
  split at h
  next idx hid =>
    have hn : env.midx.findOid e.oid = none → e.oid ∈ w'.looseSeen.oids := fun hno => by
      rw [hid] at hno
      cases hno
    split at h
    · cases h
      refine ⟨⟨rfl, rfl, rfl, rfl⟩, .nothing rfl rfl rfl, fun _ => ⟨fun i hi => ?_, hn⟩⟩
      rw [hid] at hi
      rwa [← Option.some.inj hi]
    next hse =>
      obtain ⟨h1, h2⟩ := Prod.mk.inj h
      obtain ⟨arenaLen, rfl⟩ := emitPacked_eq_ok h2
      subst h1
      refine ⟨⟨rfl, rfl, rfl, rfl⟩, .packed c idx (hc ▸ ho) (hc ▸ hid)
        (Bool.eq_false_iff.mpr hse) rfl rfl rfl rfl, fun _ => ⟨fun i hi => ?_, hn⟩⟩
      rw [hid] at hi
      rw [← Option.some.inj hi]
      exact Function.update_self _ _ _
  next hid =>
    have hs : ∀ s : SeenSets, ∀ i, env.midx.findOid e.oid = some i → s.blobs i = true :=
      fun s i hi => by
        rw [hid] at hi
        cases hi
    split at h
    · cases h
    next set hin =>
      rcases LooseOidSet.insert_eq_ok hin with ⟨hne, hm, hset⟩ | ⟨hne, hm, hset⟩
      · rw [hne] at h
        cases h
        refine ⟨⟨rfl, rfl, rfl, rfl⟩, .nothing rfl rfl (congrArg LooseOidSet.oids hset),
          fun _ => ⟨hs _, fun _ => ?_⟩⟩
        rw [hset]
        exact hm
      rw [hne, if_pos rfl] at h
      obtain ⟨h1, h2⟩ := Prod.mk.inj h
      obtain ⟨arenaLen, rfl⟩ := emitLoose_eq_ok h2
      subst h1
      refine ⟨⟨rfl, rfl, rfl, rfl⟩, .loose c (hc ▸ ho) (hc ▸ hid) (hc ▸ hm) (hc ▸ hset) rfl
        rfl rfl, fun _ => ⟨hs _, fun _ => ?_⟩⟩
      have : e.oid ∈ set.2.oids := by
        rw [hset]
        exact mem_cons_self
      exact this

theorem visitBlob_eq_ok (ho : excludedPath env (dir ++ e.name) = false → Occurs env plan e.oid)
    (h : visitBlob env seen w dir e = (seen', .ok w')) :
    BlobEffect env plan seen seen' w w' dir e := by
  rw [visitBlob] at h
  split at h
  · cases h
  split at h
  next he =>
    exact excludeBlob_eq_ok he h
  next he =>
    have he : excludedPath env (dir ++ e.name) = false := Bool.eq_false_iff.mpr he
    exact introduceBlob_eq_ok rfl (ho he) h

/-- The effect of an entry follows from where its frame stays and from the entry being handled. -/
theorem entries_of_handled (hfr : w.frames = frame :: frames) (hr : frame.rest = e :: rest)
    (hk : ∀ f ∈ { frame with rest } :: frames, f ∈ w'.frames)
    (hd : Handled env (fun t => new = some t ∨
      ∃ idx, env.midx.findOid t = some idx ∧ seen.trees idx = true) seen' w'.looseSeen.oids e) :
    ∀ f ∈ w.frames, ∀ e ∈ f.rest, (∃ f' ∈ w'.frames, f'.tree = f.tree ∧ e ∈ f'.rest) ∨
      Handled env (fun t => new = some t ∨
        ∃ idx, env.midx.findOid t = some idx ∧ seen.trees idx = true)
        seen' w'.looseSeen.oids e := by
  intro f hf e' he'
  rw [hfr] at hf
  rcases mem_cons.mp hf with rfl | hf
  · rw [hr] at he'
    rcases mem_cons.mp he' with rfl | he'
    · exact .inr hd
    · exact .inl ⟨_, hk _ mem_cons_self, rfl, he'⟩
  · exact .inl ⟨f, hk f (mem_cons_of_mem _ hf), rfl, he'⟩

theorem Emits.of_worker (h : Emits env plan seen seen' w0 w') (ho : w0.out = w.out)
    (hl : w0.looseSeen = w.looseSeen) : Emits env plan seen seen' w w' := by
  rcases h with ⟨h1, h2, h3⟩ | ⟨c, idx, h1, h2, h3, h4, h5, h6, h7⟩ |
    ⟨c, h1, h2, h3, h4, h5, h6, h7⟩
  · exact .nothing (h1.trans ho) h2 (by rw [h3, hl])
  · exact .packed c idx h1 h2 h3 h4 (by rw [h5, ho]) (by rw [h6, ho]) (by rw [h7, hl])
  · exact .loose c h1 h2 (by rw [← hl]; exact h3) (by rw [h4, hl]) h5 (by rw [h6, ho])
      (by rw [h7, ho])

theorem visitEntry_effect (hs : SoundWorker env plan w) (hnf : w.finished = false)
    (hfr : w.frames = frame :: frames) (hr : frame.rest = e :: rest)
    (hw0 : w0 = { w with frames := { frame with rest } :: frames, entryCount := w.entryCount + 1 })
    (h : visitEntry env shared.seen w0 frame.dir e = (seen', .ok w')) :
    ∃ new, Effect env plan chunks shared { shared with seen := seen' } w w' new := by
  obtain ⟨⟨pos, hp, ha⟩, entries, hlo, hsub⟩ :=
    hs.frames frame (by rw [hfr]; exact mem_cons_self)
  have he : e ∈ entries := hsub e (by rw [hr]; exact mem_cons_self)
  have hfra : SoundFrame env plan { frame with rest } :=
    ⟨⟨pos, hp, ha⟩, entries, hlo, fun e' he' => hsub e' (by
      rw [hr]
      exact mem_cons_of_mem _ he')⟩
  have hs0 : SoundWorker env plan w0 := by
    refine ⟨fun f hf => ?_, by rw [hw0]; exact hs.commits⟩
    rw [hw0] at hf
    rcases mem_cons.mp hf with rfl | hf
    · exact hfra
    · exact hs.frames f (by rw [hfr]; exact mem_cons_of_mem _ hf)
  have hf0 : w0.frames = { frame with rest } :: frames := by rw [hw0]
  have hc0 : w0.commits = w.commits := by rw [hw0]
  have hn0 : ¬ w0.finished = true := by
    rw [hw0, hnf]
    exact Bool.false_ne_true
  have ho0 : w0.out = w.out ∧ w0.looseSeen = w.looseSeen := by rw [hw0]; exact ⟨rfl, rfl⟩
  -- an entry that is no tree leaves the walk as it is
  have stay : ∀ {seen' : SeenSets} {w' : IntroWorker}, e.kind ≠ .tree →
      (e.kind.isBlobLike = true → BlobEffect env plan shared.seen seen' w0 w' frame.dir e) →
      (e.kind.isBlobLike = false → w' = w0 ∧ seen' = shared.seen) →
      ∃ new, Effect env plan chunks shared { shared with seen := seen' } w w' new := by
    intro seen' w' htr hblo hot
    have hsa : w'.frames = w0.frames ∧ w'.commits = w0.commits ∧ w'.finished = w0.finished ∧
        seen'.trees = shared.seen.trees := by
      cases hb : e.kind.isBlobLike with
      | true => exact (hblo hb).same
      | false =>
        obtain ⟨rfl, rfl⟩ := hot hb
        exact ⟨rfl, rfl, rfl, rfl⟩
    obtain ⟨hf, hc, hn, ht⟩ := hsa
    refine ⟨none, ?_⟩
    refine
      { entered := fun t ht => (by cases ht)
        marked := fun t idx _ hm => .inl (by rw [← ht]; exact hm)
        entries := entries_of_handled hfr hr (by rw [hf, hf0]; exact fun _ hf => hf) ?_
        commits := fun pos hp => .inl (by rw [hc, hc0]; exact hp)
        claimed := .inl rfl
        emits := ?_
        sound := ⟨by rw [hf]; exact hs0.frames, by rw [hc]; exact hs0.commits⟩
        finished := fun hfi => absurd (hn ▸ hfi) hn0 }
    · refine ⟨fun hk => absurd hk htr, fun hb hex => (hblo hb).marks ?_⟩
      rw [excludedPath_append ha.isDir, hex]
    cases hb : e.kind.isBlobLike with
    | true => exact (hblo hb).emits.of_worker ho0.1 ho0.2
    | false =>
      obtain ⟨rfl, rfl⟩ := hot hb
      exact .nothing ho0.1 rfl (by rw [ho0.2])
  have hoc : e.kind.isBlobLike = true → excludedPath env (frame.dir ++ e.name) = false →
      Occurs env plan e.oid := fun hb hex =>
    ⟨pos, hp, frame.dir, frame.tree, entries, e, ha, hlo, he, hb, rfl, hex⟩
  rw [visitEntry] at h
  split at h
  next hki =>
    obtain ⟨hblobs, hca⟩ := visitTree_eq_ok h
    have hno : e.kind.isBlobLike = true → excludedPath env e.name = false →
        (∀ idx, env.midx.findOid e.oid = some idx → seen'.blobs idx = true) ∧
        (env.midx.findOid e.oid = none → e.oid ∈ w'.looseSeen.oids) := fun hb => by
      rw [hki] at hb
      cases hb
    rcases hca with ⟨rfl, rfl, idx, hid, hm⟩ | ⟨hen, hma⟩
    · refine ⟨none, ?_⟩
      exact
        { entered := fun t ht => (by cases ht)
          marked := fun t idx _ hm => .inl hm
          entries := entries_of_handled hfr hr (by rw [hf0]; exact fun _ hf => hf)
            ⟨fun _ => .inr ⟨idx, hid, hm⟩, hno⟩
          commits := fun pos hp => .inl (by rw [hc0]; exact hp)
          claimed := .inl rfl
          emits := .nothing ho0.1 rfl (by rw [ho0.2])
          sound := hs0
          finished := fun hfi => absurd hfi hn0 }
    · obtain ⟨sub, hsu, rfl⟩ := pushTree_eq_ok (enterDir_eq_ok hen)
      refine ⟨some e.oid, ?_⟩
      exact
        { entered := fun t ht => by
            obtain rfl := Option.some.inj ht
            exact ⟨_, mem_cons_self, rfl, hsu⟩
          marked := fun t idx ht hm => (hma t idx ht hm).imp_right fun heq => by rw [heq]
          entries := entries_of_handled hfr hr
            (fun f hf => mem_cons_of_mem _ (by rw [hf0]; exact hf))
            ⟨fun _ => .inl rfl, hno⟩
          commits := fun pos hp => .inl (by
            have : pos ∈ w0.commits := by rw [hc0]; exact hp
            exact this)
          claimed := .inl rfl
          emits := .nothing ho0.1 hblobs (congrArg LooseOidSet.oids ho0.2)
          sound := ⟨fun f hf => by
              rcases mem_cons.mp hf with rfl | hf
              · exact ⟨⟨pos, hp, .sub ha hlo he hki⟩, sub, hsu, fun _ h => h⟩
              · exact hs0.frames f hf, hs0.commits⟩
          finished := fun hfi => absurd hfi hn0 }
  next hki =>
    exact stay (by rw [hki]; decide) (fun hb => visitBlob_eq_ok (hoc hb) h)
      (fun hb => by rw [hki] at hb; cases hb)
  next hki =>
    exact stay (by rw [hki]; decide) (fun hb => visitBlob_eq_ok (hoc hb) h)
      (fun hb => by rw [hki] at hb; cases hb)
  next hki =>
    exact stay (by rw [hki]; decide) (fun hb => visitBlob_eq_ok (hoc hb) h)
      (fun hb => by rw [hki] at hb; cases hb)
  next hki =>
    cases h
    exact stay (by rw [hki]; decide) (fun hb => by rw [hki] at hb; cases hb)
      (fun _ => ⟨rfl, rfl⟩)
  next hki =>
    cases h
    exact stay (by rw [hki]; decide) (fun hb => by rw [hki] at hb; cases hb)
      (fun _ => ⟨rfl, rfl⟩)

theorem workerStep_effect (hchu : ∀ chunk ∈ chunks, ∀ pos ∈ chunk, pos ∈ plan)
    (hs : SoundWorker env plan w) (hnf : w.finished = false)
    (h : workerStep env chunks shared w aborted = (shared', .ok w')) :
    ∃ new, Effect env plan chunks shared shared' w w' new := by
  have hu : ¬ w.finished = true := by
    rw [hnf]
    exact Bool.false_ne_true
  rw [workerStep] at h
  split at h
  next hfr =>
    have hn : ∀ f ∈ w.frames, ∀ e ∈ f.rest, (∃ f' ∈ w'.frames, f'.tree = f.tree ∧ e ∈ f'.rest) ∨
        Handled env (fun t => (none : Option OidBytes) = some t ∨
          ∃ idx, env.midx.findOid t = some idx ∧ shared.seen.trees idx = true)
          shared'.seen w'.looseSeen.oids e := by
      intro f hf
      rw [hfr] at hf
      cases hf
    split at h
    next hc =>
      split at h
      next hch =>
        cases h
        exact ⟨none,
          { entered := fun t ht => (by cases ht)
            marked := fun t idx _ hm => .inl hm
            entries := hn
            commits := fun pos hpo => .inl hpo
            claimed := .inr ⟨rfl, fun chunk hg => by
              rw [hch] at hg
              cases hg⟩
            emits := .nothing rfl rfl rfl
            sound := ⟨hs.frames, hs.commits⟩
            finished := fun _ => ⟨hfr, hc,
              Nat.le_succ_of_le (List.getElem?_eq_none_iff.mp hch)⟩ }⟩
      next chunk hch =>
        cases h
        exact ⟨none,
          { entered := fun t ht => (by cases ht)
            marked := fun t idx _ hm => .inl hm
            entries := hn
            commits := fun pos hpo => by
              rw [hc] at hpo
              cases hpo
            claimed := .inr ⟨rfl, fun chunk' hg pos hpo => by
              rw [hch] at hg
              rw [← Option.some.inj hg] at hpo
              exact hpo⟩
            emits := .nothing rfl rfl rfl
            sound := ⟨hs.frames, hchu chunk (mem_of_getElem? hch)⟩
            finished := fun hfi => absurd hfi hu }⟩
    next pos commits hc =>
      split at h
      · cases h
      obtain ⟨h1, h2⟩ := Prod.mk.inj h
      subst h1
      have hpl : ∀ p ∈ pos :: commits, p ∈ plan := hc ▸ hs.commits
      have hv : visitCommit env shared.seen w pos commits =
          ((visitCommit env shared.seen w pos commits).1, .ok w') := by rw [← h2]
      generalize (visitCommit env shared.seen w pos commits).1 = seen' at hv hn ⊢
      obtain ⟨hb, hca⟩ := visitTree_eq_ok hv
      rcases hca with ⟨rfl, rfl, idx, hid, hm⟩ | ⟨hen, hma⟩
      · exact ⟨none,
          { entered := fun t ht => (by cases ht)
            marked := fun t idx _ hm => .inl hm
            entries := hn
            commits := fun p hp => by
              rw [hc] at hp
              rcases mem_cons.mp hp with rfl | hp
              · exact .inr (.inr ⟨idx, hid, hm⟩)
              · exact .inl hp
            claimed := .inl rfl
            emits := .nothing rfl rfl rfl
            sound := ⟨hs.frames, fun p hp => hpl p (mem_cons_of_mem _ hp)⟩
            finished := fun hfi => absurd hfi hu }⟩
      · obtain ⟨entries, hl, rfl⟩ := pushTree_eq_ok hen
        exact ⟨some (env.rootTreeOid pos),
          { entered := fun t ht => by
              obtain rfl := Option.some.inj ht
              exact ⟨_, mem_cons_self, rfl, hl⟩
            marked := fun t idx ht hm =>
              (hma t idx ht hm).imp_right fun heq => by rw [heq]
            entries := fun f hf => by
              rw [hfr] at hf
              cases hf
            commits := fun p hp => by
              rw [hc] at hp
              rcases mem_cons.mp hp with rfl | hp
              · exact .inr (.inl rfl)
              · exact .inl hp
            claimed := .inl rfl
            emits := .nothing rfl hb rfl
            sound := ⟨fun f hf => by
                rcases mem_cons.mp hf with rfl | hf
                · exact ⟨⟨pos, hpl pos mem_cons_self, .root⟩, entries, hl, fun _ h => h⟩
                · exact hs.frames f hf, fun p hp => hpl p (mem_cons_of_mem _ hp)⟩
            finished := fun hfi => absurd hfi hu }⟩
  next frame frames hfr =>
    split at h
    next hr =>
      cases h
      exact ⟨none,
        { entered := fun t ht => (by cases ht)
          marked := fun t idx _ hm => .inl hm
          entries := fun f hf e he => by
            rw [hfr] at hf
            rcases mem_cons.mp hf with rfl | hf
            · rw [hr] at he
              cases he
            · exact .inl ⟨f, hf, rfl, he⟩
          commits := fun pos hpo => .inl hpo
          claimed := .inl rfl
          emits := .nothing rfl rfl rfl
          sound := ⟨fun f hf => hs.frames f (by rw [hfr]; exact mem_cons_of_mem _ hf),
            hs.commits⟩
          finished := fun hfi => absurd hfi hu }⟩
    next e rest hr =>
      dsimp only at h
      split at h
      · cases h
      obtain ⟨h1, h2⟩ := Prod.mk.inj h
      subst h1
      exact visitEntry_effect hs hnf hfr hr rfl (by rw [← h2])

end Steps

end GossipRs.Git
