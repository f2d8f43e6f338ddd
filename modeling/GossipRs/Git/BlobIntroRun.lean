import GossipRs.Git.BlobIntroStep

/-! Whole runs of blob introduction, over any interleaving: when no worker fails, the candidates are
exactly the blobs of the plan, each once. -/

namespace GossipRs.Git

open Lib List
open Function (update update_apply update_of_ne update_self)

theorem Handled.mono (h : Handled env entered seen l e) (he : ∀ t, entered t → entered' t)
    (hbl : ∀ idx, seen.blobs idx = true → seen'.blobs idx = true) (hl : l ⊆ l') :
    Handled env entered' seen' l' e :=
  ⟨fun hk => he _ (h.1 hk), fun hb hex =>
    ⟨fun idx hid => hbl idx ((h.2 hb hex).1 idx hid), fun hn => hl ((h.2 hb hex).2 hn)⟩⟩

section Emitting

variable {env : IntroEnv} {plan : List Nat} {seen seen' : SeenSets} {w w' : IntroWorker}
  (h : Emits env plan seen seen' w w')
include h

theorem Emits.blobs_mono (idx) (hid : seen.blobs idx = true) :
    seen'.blobs idx = true := by
  rcases h with ⟨-, hb, -⟩ | ⟨c, i, -, -, -, hb, -, -, -⟩ | ⟨c, -, -, -, -, hb, -, -⟩
  · rwa [hb]
  · rw [hb]
    by_cases hi : idx = i
    · rw [hi, update_self]
    · rwa [update_of_ne hi]
  · rwa [hb]

theorem Emits.loose_mono : w.looseSeen.oids ⊆ w'.looseSeen.oids := by
  rcases h with ⟨-, -, hl⟩ | ⟨c, _, -, -, -, -, -, -, hl⟩ | ⟨c, -, -, -, hl, -, -, -⟩
  · exact hl ▸ List.Subset.refl _
  · exact hl ▸ List.Subset.refl _
  · exact hl ▸ subset_cons_self _ _

/-- What a step adds to the packed candidates, if anything, had not been marked. -/
theorem Emits.packed_cases :
    w'.out.packed = w.out.packed ∧ seen'.blobs = seen.blobs ∨
      ∃ c idx, Occurs env plan c.oid ∧ env.midx.findOid c.oid = some idx ∧ seen.blobs idx = false ∧
        seen'.blobs = update seen.blobs idx true ∧ w'.out.packed = w.out.packed ++ [c] := by
  rcases h with ⟨ho, hb, -⟩ | ⟨c, idx, h1, h2, h3, h4, h5, -, -⟩ | ⟨c, -, -, -, -, hb, hp, -⟩
  · exact .inl ⟨by rw [ho], hb⟩
  · exact .inr ⟨c, idx, h1, h2, h3, h4, h5⟩
  · exact .inl ⟨hp, hb⟩

theorem Emits.loose_cases :
    w'.out.loose = w.out.loose ∧ w'.looseSeen.oids = w.looseSeen.oids ∨
      ∃ c, Occurs env plan c.oid ∧ env.midx.findOid c.oid = none ∧ c.oid ∉ w.looseSeen.oids ∧
        w'.looseSeen.oids = c.oid :: w.looseSeen.oids ∧ w'.out.loose = w.out.loose ++ [c] := by
  rcases h with ⟨ho, -, hl⟩ | ⟨c, idx, -, -, -, -, -, hl, hs⟩ | ⟨c, h1, h2, h3, h4, -, -, h5⟩
  · exact .inl ⟨by rw [ho], hl⟩
  · exact .inl ⟨hl, hs⟩
  · exact .inr ⟨c, h1, h2, h3, h4, h5⟩

end Emitting

namespace IntroSystem

variable {n : Nat} {env : IntroEnv} {plan : List Nat} {chunks : List (List Nat)}
  {s : IntroSystem n} {entered : OidBytes → Prop}

/-- The walks so far are sound, and what is left to do is on a stack, in a list of commits or in an
unclaimed chunk. -/
structure Covers (env : IntroEnv) (plan : List Nat) (chunks : List (List Nat)) (s : IntroSystem n)
    (entered : OidBytes → Prop) : Prop where
  sound : ∀ k, SoundWorker env plan (s.workers k)
  marks : ∀ t idx, env.midx.findOid t = some idx → s.shared.seen.trees idx = true → entered t
  cover : ∀ t, entered t → ∀ entries, env.loadTree t = .ok entries → ∀ e ∈ entries,
    (∃ k, ∃ f ∈ (s.workers k).frames, f.tree = t ∧ e ∈ f.rest) ∨
      ∃ k, Handled env entered s.shared.seen (s.workers k).looseSeen.oids e
  roots : ∀ pos ∈ plan, entered (env.rootTreeOid pos) ∨ (∃ k, pos ∈ (s.workers k).commits) ∨
    ∃ j chunk, s.shared.nextChunk ≤ j ∧ chunks[j]? = some chunk ∧ pos ∈ chunk
  idle : ∀ k, (s.workers k).finished = true → (s.workers k).frames = [] ∧
    (s.workers k).commits = [] ∧ chunks.length ≤ s.shared.nextChunk

structure Emitted (env : IntroEnv) (plan : List Nat) (s : IntroSystem n) : Prop where
  packed : ∀ k, ∀ c ∈ (s.workers k).out.packed, Occurs env plan c.oid ∧
    ∃ idx, env.midx.findOid c.oid = some idx ∧ s.shared.seen.blobs idx = true
  packedNodup : ∀ k, ((s.workers k).out.packed.map Candidate.oid).Nodup
  packedOnce : ∀ k k', ∀ c ∈ (s.workers k).out.packed, ∀ c' ∈ (s.workers k').out.packed,
    c.oid = c'.oid → k = k'
  packedAll : ∀ oid idx, env.midx.findOid oid = some idx → s.shared.seen.blobs idx = true →
    ∃ k, ∃ c ∈ (s.workers k).out.packed, c.oid = oid
  loose : ∀ k, ∀ c ∈ (s.workers k).out.loose, Occurs env plan c.oid ∧
    env.midx.findOid c.oid = none ∧ c.oid ∈ (s.workers k).looseSeen.oids
  looseNodup : ∀ k, ((s.workers k).out.loose.map Candidate.oid).Nodup
  looseAll : ∀ k, ∀ oid ∈ (s.workers k).looseSeen.oids, ∃ c ∈ (s.workers k).out.loose, c.oid = oid

theorem Covers.step (h : Covers env plan chunks s entered) {shared}
    (he : Effect env plan chunks s.shared shared (s.workers k) w new) :
    Covers env plan chunks { s with shared, workers := update s.workers k w }
      (fun t => entered t ∨ new = some t) := by
  have ho : ∀ j, j ≠ k → update s.workers k w j = s.workers j :=
    fun j hj => update_of_ne hj _ _
  have hs : update s.workers k w k = w := update_self _ _ _
  -- a tree that was marked before has been entered
  have hol : ∀ t, (new = some t ∨
      ∃ idx, env.midx.findOid t = some idx ∧ s.shared.seen.trees idx = true) →
        entered t ∨ new = some t := by
    intro t ht
    rcases ht with ht | ⟨idx, hid, hm⟩
    · exact .inr ht
    · exact .inl (h.marks t idx hid hm)
  refine
    { sound := fun j => ?_
      marks := fun t idx hid hm => ?_
      cover := fun t ht entries hl e hme => ?_
      roots := fun pos hp => ?_
      idle := fun j hfi => ?_ }
  · simp only [update_apply]
    split_ifs
    · exact he.sound
    · exact h.sound j
  · exact (he.marked t idx hid hm).imp_left (h.marks t idx hid)
  · dsimp only
    rcases ht with ht | ht
    · rcases h.cover t ht entries hl e hme with ⟨j, f, hf, hft, hef⟩ | ⟨j, hd⟩
      · by_cases hj : j = k
        · subst hj
          rcases he.entries f hf e hef with ⟨f', hf', hft', he'⟩ | hd
          · exact .inl ⟨j, f', by rw [hs]; exact hf', hft'.trans hft, he'⟩
          refine .inr ⟨j, ?_⟩
          rw [hs]
          exact hd.mono hol (fun _ hb => hb) (List.Subset.refl _)
        · exact .inl ⟨j, f, by rw [ho j hj]; exact hf, hft, hef⟩
      refine .inr ⟨j, hd.mono (fun _ => .inl) he.emits.blobs_mono ?_⟩
      rw [update_apply]
      split_ifs with hj
      · exact hj ▸ he.emits.loose_mono
      · exact List.Subset.refl _
    · obtain ⟨f, hf, hft, hfl⟩ := he.entered t ht
      rw [hfl] at hl
      refine .inl ⟨k, f, by rw [hs]; exact hf, hft, ?_⟩
      rw [Except.ok.inj hl]
      exact hme
  · dsimp only
    rcases h.roots pos hp with hr | ⟨j, hj⟩ | ⟨j, chunk, hle, hg, hin⟩
    · exact .inl (.inl hr)
    · by_cases hjk : j = k
      · subst hjk
        rcases he.commits pos hj with hin | hne
        · exact .inr (.inl ⟨j, by rw [hs]; exact hin⟩)
        · exact .inl (hol _ hne)
      · exact .inr (.inl ⟨j, by rw [ho j hjk]; exact hj⟩)
    rcases he.claimed with hsa | ⟨hn, hcl⟩
    · exact .inr (.inr ⟨j, chunk, by rw [hsa]; exact hle, hg, hin⟩)
    by_cases hj : j = s.shared.nextChunk
    · subst hj
      exact .inr (.inl ⟨k, by rw [hs]; exact hcl chunk hg pos hin⟩)
    · exact .inr (.inr ⟨j, chunk, by rw [hn]; omega, hg, hin⟩)
  · dsimp only at hfi ⊢
    by_cases hj : j = k
    · subst hj
      rw [hs] at hfi ⊢
      exact he.finished hfi
    rw [ho j hj] at hfi ⊢
    obtain ⟨hf, hc, _⟩ := h.idle j hfi
    refine ⟨hf, hc, ?_⟩
    rcases he.claimed with hsa | ⟨hn, -⟩ <;> omega

theorem Emitted.step (h : Emitted env plan s) {shared}
    (he : Emits env plan s.shared.seen shared.seen (s.workers k) w) :
    Emitted env plan { s with shared, workers := update s.workers k w } := by
  have hmono := he.blobs_mono
  have hpa := he.packed_cases
  have hlo := he.loose_cases
  have hf : ∀ c idx, env.midx.findOid c.oid = some idx → s.shared.seen.blobs idx = false →
      ∀ j, ∀ c' ∈ (s.workers j).out.packed, c'.oid ≠ (c : Candidate).oid := by
    intro c idx hid hno j c' hc' heq
    obtain ⟨-, i, hi, hm⟩ := h.packed j c' hc'
    rw [heq, hid] at hi
    rw [← Option.some.inj hi, hno] at hm
    cases hm
  refine
    { packed := fun j c hc => ?_
      packedNodup := fun j => ?_
      packedOnce := fun j j' c hc c' hc' heq => ?_
      packedAll := fun oid idx hid hm => ?_
      loose := fun j c hc => ?_
      looseNodup := fun j => ?_
      looseAll := fun j oid hoi => ?_ }
  · simp only [update_apply] at hc ⊢
    have old : c ∈ (s.workers j).out.packed → Occurs env plan c.oid ∧
        ∃ idx, env.midx.findOid c.oid = some idx ∧ shared.seen.blobs idx = true := by
      intro hc
      obtain ⟨hoc, idx, hid, hm⟩ := h.packed j c hc
      exact ⟨hoc, idx, hid, hmono idx hm⟩
    split_ifs at hc with hj
    · subst hj
      rcases hpa with ⟨hp, -⟩ | ⟨c0, idx, hoc, hid, -, hb, hp⟩
      · exact old (hp ▸ hc)
      rw [hp] at hc
      rcases mem_append.mp hc with hc | hc
      · exact old hc
      · rw [mem_singleton.mp hc]
        exact ⟨hoc, idx, hid, by rw [hb, update_self]⟩
    · exact old hc
  · simp only [update_apply]
    split_ifs with hj
    · subst hj
      rcases hpa with ⟨hp, -⟩ | ⟨c0, idx, -, hid, hno, -, hp⟩
      · rw [hp]
        exact h.packedNodup j
      rw [hp, map_append]
      refine (h.packedNodup j).append (nodup_singleton _) ?_
      rw [map_singleton, disjoint_singleton, mem_map]
      intro hin
      obtain ⟨c', hc', heq⟩ := hin
      exact hf c0 idx hid hno j c' hc' heq
    · exact h.packedNodup j
  · simp only [update_apply] at hc hc'
    -- a new candidate has an id that no worker has emitted
    have hcl : ∀ {i : Fin n} {a b : Candidate}, i ≠ k → a ∈ w.out.packed →
        b ∈ (s.workers i).out.packed → a.oid = b.oid → k = i := by
      intro i a b hi ha hb hab
      rcases hpa with ⟨hp, -⟩ | ⟨c0, idx, -, hid, hno, -, hp⟩
      · exact h.packedOnce k i a (hp ▸ ha) b hb hab
      rw [hp] at ha
      rcases mem_append.mp ha with ha | ha
      · exact h.packedOnce k i a ha b hb hab
      · rw [mem_singleton.mp ha] at hab
        exact absurd hab.symm (hf c0 idx hid hno i b hb)
    split_ifs at hc hc' with hj hj' hj'
    · rw [hj, hj']
    · rw [hj, hcl hj' hc hc' heq]
    · rw [hj', hcl hj hc' hc heq.symm]
    · exact h.packedOnce j j' c hc c' hc' heq
  · dsimp only at hm ⊢
    have old : s.shared.seen.blobs idx = true →
        ∃ j, ∃ c ∈ (update s.workers k w j).out.packed, c.oid = oid := by
      intro hm
      obtain ⟨j, c, hc, heq⟩ := h.packedAll oid idx hid hm
      refine ⟨j, c, ?_, heq⟩
      rw [update_apply]
      split_ifs with hj
      · subst hj
        rcases hpa with ⟨hp, -⟩ | ⟨c0, i, -, -, -, -, hp⟩
        · rwa [hp]
        · rw [hp]
          exact mem_append_left _ hc
      · exact hc
    rcases hpa with ⟨-, hb⟩ | ⟨c0, i, -, hi, -, hb, hp⟩
    · exact old (hb ▸ hm)
    by_cases hii : idx = i
    · have h1 := MidxView.getElem?_of_findOid hid
      rw [hii, MidxView.getElem?_of_findOid hi] at h1
      refine ⟨k, c0, ?_, Option.some.inj h1⟩
      rw [update_self, hp]
      exact mem_append_right _ (mem_singleton_self _)
    · rw [hb, update_of_ne hii] at hm
      exact old hm
  · simp only [update_apply] at hc ⊢
    split_ifs at hc ⊢ with hj
    · subst hj
      rcases hlo with ⟨hl, hs⟩ | ⟨c0, hoc, hno, -, hs, hl⟩
      · rw [hs]
        exact h.loose j c (hl ▸ hc)
      rw [hl] at hc
      rcases mem_append.mp hc with hc | hc
      · obtain ⟨h1, h2, h3⟩ := h.loose j c hc
        exact ⟨h1, h2, by rw [hs]; exact mem_cons_of_mem _ h3⟩
      · rw [mem_singleton.mp hc]
        exact ⟨hoc, hno, by rw [hs]; exact mem_cons_self⟩
    · exact h.loose j c hc
  · simp only [update_apply]
    split_ifs with hj
    · subst hj
      rcases hlo with ⟨hl, -⟩ | ⟨c0, -, -, hn, -, hl⟩
      · rw [hl]
        exact h.looseNodup j
      rw [hl, map_append]
      refine (h.looseNodup j).append (nodup_singleton _) ?_
      rw [map_singleton, disjoint_singleton, mem_map]
      intro hin
      obtain ⟨c', hc', heq⟩ := hin
      exact hn (heq ▸ (h.loose j c' hc').2.2)
    · exact h.looseNodup j
  · simp only [update_apply] at hoi ⊢
    split_ifs at hoi ⊢ with hj
    · subst hj
      rcases hlo with ⟨hl, hs⟩ | ⟨c0, -, -, -, hs, hl⟩
      · rw [hl]
        exact h.looseAll j oid (hs ▸ hoi)
      rw [hs] at hoi
      rw [hl]
      rcases mem_cons.mp hoi with rfl | hoi
      · exact ⟨c0, mem_append_right _ (mem_singleton_self _), rfl⟩
      · obtain ⟨c, hc, heq⟩ := h.looseAll j oid hoi
        exact ⟨c, mem_append_left _ hc, heq⟩
    · exact h.looseAll j oid hoi

theorem Run.invariant {s0 s : IntroSystem n}
    (hch : ∀ chunk ∈ chunks, ∀ pos ∈ chunk, pos ∈ plan)
    (hc : Covers env plan chunks s0 entered) (he : Emitted env plan s0)
    (hr : Run env chunks s0 s) (hcl : s.errors = []) :
    (∃ entered, Covers env plan chunks s entered) ∧ Emitted env plan s := by
  induction hr with
  | refl => exact ⟨⟨entered, hc⟩, he⟩
  | tail _ hs ih =>
    cases hs with
    | ok k aborted hnf _ heq =>
      obtain ⟨⟨_, hco⟩, hem⟩ := ih hcl
      obtain ⟨_, hef⟩ := workerStep_effect hch (hco.sound k) hnf heq
      exact ⟨⟨_, hco.step hef⟩, hem.step hef.emits⟩
    | fail k aborted _ _ _ => cases hcl

theorem Covers.complete (h : Covers env plan chunks s entered) (he : Emitted env plan s)
    (hd : s.Done) (k0 : Fin n) (ho : Occurs env plan oid) :
    ∃ k, ∃ c ∈ (s.workers k).out.packed ++ (s.workers k).out.loose, c.oid = oid := by
  have hn : ∀ t, entered t → ∀ entries, env.loadTree t = .ok entries → ∀ e ∈ entries,
      ∃ k, Handled env entered s.shared.seen (s.workers k).looseSeen.oids e := by
    intro t ht entries hl e hm
    rcases h.cover t ht entries hl e hm with ⟨k, _, hf, -⟩ | hh
    · rw [(h.idle k (hd.2 k)).1] at hf
      cases hf
    · exact hh
  have hr : ∀ pos ∈ plan, entered (env.rootTreeOid pos) := by
    intro pos hpo
    rcases h.roots pos hpo with hr | ⟨k, hk⟩ | ⟨j, _, hle, hg, -⟩
    · exact hr
    · rw [(h.idle k (hd.2 k)).2.1] at hk
      cases hk
    have hlen := (h.idle k0 (hd.2 k0)).2.2
    rw [List.getElem?_eq_none (hlen.trans hle)] at hg
    cases hg
  obtain ⟨pos, hpo, dir, t, entries, e, ha, hl, hm, hb, rfl, hex⟩ := ho
  -- a tree is entered once the tree above it is
  have hen : ∀ dir t, TreeAt env (env.rootTreeOid pos) dir t → entered t := by
    intro dir t ha
    induction ha with
    | root => exact hr pos hpo
    | sub _ hl hm hkind ih =>
      obtain ⟨k, hh⟩ := hn _ ih _ hl _ hm
      exact hh.1 hkind
  obtain ⟨k, hh⟩ := hn t (hen dir t ha) entries hl e hm
  obtain ⟨hp, hlo⟩ := hh.2 hb (by rwa [excludedPath_append ha.isDir] at hex)
  cases hid : env.midx.findOid e.oid with
  | some idx =>
    obtain ⟨j, c, hc, heq⟩ := he.packedAll e.oid idx hid (hp idx hid)
    exact ⟨j, c, mem_append_left _ hc, heq⟩
  | none =>
    obtain ⟨c, hc, heq⟩ := he.looseAll k e.oid (hlo hid)
    exact ⟨k, c, mem_append_right _ hc, heq⟩

theorem emitted_new :
    Emitted env plan
      ({ shared := ⟨.empty, 0⟩, workers := fun _ => .new limits commits, errors := [] } :
        IntroSystem n) where
  packed k c hc := by cases hc
  packedNodup k := nodup_nil
  packedOnce k k' c hc := by cases hc
  packedAll oid idx hidx hm := by cases hm
  loose k c hc := by cases hc
  looseNodup k := nodup_nil
  looseAll k oid ho := by cases ho

theorem covers_new (hs : ∀ pos ∈ commits, pos ∈ plan)
    (ha : ∀ pos ∈ plan, (0 < n ∧ pos ∈ commits) ∨ ∃ chunk ∈ chunks, pos ∈ chunk) :
    Covers env plan chunks
      ({ shared := ⟨.empty, 0⟩, workers := fun _ => .new limits commits, errors := [] } :
        IntroSystem n) (fun _ => False) where
  sound k := ⟨fun f hf => (by cases hf), hs⟩
  marks t idx hidx hm := by cases hm
  cover t ht := ht.elim
  roots pos hp := by
    rcases ha pos hp with ⟨hn, hin⟩ | ⟨chunk, hc, hin⟩
    · exact .inr (.inl ⟨⟨0, hn⟩, hin⟩)
    · obtain ⟨j, hj⟩ := mem_iff_getElem?.mp hc
      exact .inr (.inr ⟨j, chunk, Nat.zero_le _, hj, hin⟩)
  idle k hfi := by cases hfi

theorem mem_chunksOf (hs : 0 < size) :
    ∀ {fuel} {l : List α}, l.length ≤ fuel →
      ((∃ chunk ∈ chunksOf size fuel l, a ∈ chunk) ↔ a ∈ l) := by
  intro fuel
  induction fuel with
  | zero =>
    intro l hl
    rw [length_eq_zero_iff.mp (Nat.le_zero.mp hl)]
    simp [chunksOf]
  | succ fuel ih =>
    intro l hl
    cases l with
    | nil => simp [chunksOf]
    | cons b l =>
      have hd : ((b :: l).drop size).length ≤ fuel := by
        rw [length_drop]
        omega
      rw [chunksOf]
      simp only [mem_cons, exists_eq_or_imp]
      rw [ih hd, ← mem_append, take_append_drop, mem_cons]

theorem mem_planChunks : (∃ chunk ∈ planChunks requested plan, pos ∈ chunk) ↔ pos ∈ plan := by
  cases plan with
  | nil => simp [planChunks, chunksOf]
  | cons p plan =>
    refine mem_chunksOf ?_ (Nat.le_refl _)
    have hl : 0 < (p :: plan).length := Nat.succ_pos _
    have hc : 0 < min (workerCount requested (p :: plan) * 4) (p :: plan).length := by
      rw [workerCount]
      omega
    exact Nat.div_pos (by omega) hc

end IntroSystem

theorem dedupFrom_spec (hs : l.Pairwise fun a b => a.oid.bytes ≤ b.oid.bytes)
    (hla : ∀ c ∈ l, last.oid.bytes ≤ c.oid.bytes) :
    (dedupFrom last l).Pairwise (fun a b => a.oid.bytes < b.oid.bytes) ∧
      (∀ c ∈ dedupFrom last l, c ∈ l ∧ last.oid.bytes < c.oid.bytes) ∧
      ∀ c ∈ l, c.oid = last.oid ∨ ∃ c' ∈ dedupFrom last l, c'.oid = c.oid := by
  induction l generalizing last with
  | nil => exact ⟨List.Pairwise.nil, fun c hc => (by cases hc), fun c hc => (by cases hc)⟩
  | cons a l ih =>
    obtain ⟨ha, hl⟩ := pairwise_cons.mp hs
    rw [dedupFrom]
    by_cases he : a.oid = last.oid
    · rw [if_pos he]
      obtain ⟨h1, h2, h3⟩ := ih hl fun c hc => hla c (mem_cons_of_mem _ hc)
      refine ⟨h1, fun c hc => ⟨mem_cons_of_mem _ (h2 c hc).1, (h2 c hc).2⟩, fun c hc => ?_⟩
      rcases mem_cons.mp hc with rfl | hc
      · exact .inl he
      · exact h3 c hc
    rw [if_neg he]
    have hlt : last.oid.bytes < a.oid.bytes := lt_of_le_of_ne (hla a mem_cons_self)
      fun hb => he (OidBytes.ext_bytes hb.symm)
    obtain ⟨h1, h2, h3⟩ := ih hl ha
    refine ⟨pairwise_cons.mpr ⟨fun c hc => (h2 c hc).2, h1⟩, fun c hc => ?_, fun c hc => ?_⟩
    · rcases mem_cons.mp hc with rfl | hc
      · exact ⟨mem_cons_self, hlt⟩
      · exact ⟨mem_cons_of_mem _ (h2 c hc).1, hlt.trans (h2 c hc).2⟩
    rcases mem_cons.mp hc with rfl | hc
    · exact .inr ⟨c, mem_cons_self, rfl⟩
    rcases h3 c hc with hca | ⟨c', hc', hcc⟩
    · exact .inr ⟨a, mem_cons_self, hca.symm⟩
    · exact .inr ⟨c', mem_cons_of_mem _ hc', hcc⟩

theorem dedupLooseByOid_spec (l) :
    ((dedupLooseByOid l).map Candidate.oid).Nodup ∧ (∀ c ∈ dedupLooseByOid l, c ∈ l) ∧
      ∀ c ∈ l, ∃ c' ∈ dedupLooseByOid l, c'.oid = c.oid := by
  have hs : (l.mergeSort fun a b => decide (looseKey a ≤ looseKey b)).Pairwise
      fun a b => a.oid.bytes ≤ b.oid.bytes := by
    refine (pairwise_mergeSort (fun a b c hab hb => ?_) (fun a b => ?_) l).imp fun hab => ?_
    · exact decide_eq_true ((of_decide_eq_true hab).trans (of_decide_eq_true hb))
    · rcases le_total (looseKey a) (looseKey b) with h | h
      · simp [h]
      · simp [h]
    · exact Prod.Lex.monotone_fst _ _ (of_decide_eq_true hab)
  have hm : ∀ c, c ∈ l.mergeSort (fun a b => decide (looseKey a ≤ looseKey b)) ↔ c ∈ l :=
    fun c => mem_mergeSort
  rw [dedupLooseByOid]
  generalize l.mergeSort (fun a b => decide (looseKey a ≤ looseKey b)) = sorted at hs hm
  simp only [← hm]
  cases sorted with
  | nil => exact ⟨nodup_nil, fun c hc => hc, fun c hc => (by cases hc)⟩
  | cons a sorted =>
    obtain ⟨ha, hl⟩ := pairwise_cons.mp hs
    obtain ⟨h1, h2, h3⟩ := dedupFrom_spec hl ha
    refine ⟨?_, fun c hc => ?_, fun c hc => ?_⟩
    · rw [Nodup, pairwise_map]
      refine (pairwise_cons.mpr ⟨fun c hc => (h2 c hc).2, h1⟩).imp fun hlt he => ?_
      rw [he] at hlt
      exact lt_irrefl _ hlt
    · rcases mem_cons.mp hc with rfl | hc
      · exact mem_cons_self
      · exact mem_cons_of_mem _ (h2 c hc).1
    rcases mem_cons.mp hc with rfl | hc
    · exact ⟨c, mem_cons_self, rfl⟩
    rcases h3 c hc with hca | ⟨c', hc', hcc⟩
    · exact ⟨a, mem_cons_self, hca.symm⟩
    · exact ⟨c', mem_cons_of_mem _ hc', hcc⟩

theorem mergeWorkerResults_eq_ok (h : mergeWorkerResults caps results = .ok (packed, loose)) :
    packed = results.flatMap Collector.packed ∧
      loose = dedupLooseByOid (results.flatMap Collector.loose) := by
  rw [mergeWorkerResults] at h
  split at h
  · cases h
  split at h
  · cases h
  split at h
  · cases h
  · obtain ⟨h1, h2⟩ := Prod.mk.inj (Except.ok.inj h)
    exact ⟨h1.symm, h2.symm⟩

def Exact (env : IntroEnv) (plan : List Nat) (out : List Candidate) : Prop :=
  (out.map Candidate.oid).Nodup ∧ ∀ oid, (∃ c ∈ out, c.oid = oid) ↔ Occurs env plan oid

namespace IntroSystem

variable {n : Nat} {env : IntroEnv} {plan : List Nat} {chunks : List (List Nat)}
  {s : IntroSystem n} {entered : OidBytes → Prop}

theorem exact_serial {s} (hr : Run env [] (serial env plan) s) (hd : s.Done) :
    Exact env plan ((s.workers 0).out.packed ++ (s.workers 0).out.loose) := by
  obtain ⟨⟨_, hco⟩, he⟩ := Run.invariant (fun chunk hch => by cases hch)
    (covers_new (fun _ h => h) fun pos hpo => .inl ⟨Nat.one_pos, hpo⟩) emitted_new hr hd.1
  refine ⟨?_, fun oid => ⟨fun hin => ?_, fun ho => ?_⟩⟩
  · rw [map_append]
    refine (he.packedNodup 0).append (he.looseNodup 0) fun oid hp hl => ?_
    obtain ⟨c, hc, rfl⟩ := mem_map.mp hp
    obtain ⟨c', hc', heq⟩ := mem_map.mp hl
    obtain ⟨-, _, hid, -⟩ := he.packed 0 c hc
    rw [← heq, (he.loose 0 c' hc').2.1] at hid
    cases hid
  · obtain ⟨c, hc, rfl⟩ := hin
    rcases mem_append.mp hc with hc | hc
    · exact (he.packed 0 c hc).1
    · exact (he.loose 0 c hc).1
  obtain ⟨k, c, hc, heq⟩ := hco.complete he hd 0 ho
  rw [Subsingleton.elim k 0] at hc
  exact ⟨c, hc, heq⟩

theorem exact_parallel {s}
    (hr : Run env (planChunks requested plan) (parallel env requested plan) s) (hd : s.Done)
    (hm : mergeWorkerResults caps
      ((finRange _).map fun k => (s.workers k).out) = .ok (packed, loose)) :
    Exact env plan (packed ++ loose) := by
  have hpo : 0 < workerCount requested plan := by
    rw [workerCount]
    omega
  obtain ⟨⟨_, hco⟩, he⟩ := Run.invariant
    (fun chunk hch pos hpo => mem_planChunks.mp ⟨chunk, hch, hpo⟩)
    (covers_new (fun pos hpo => by cases hpo) fun pos hpo => .inr (mem_planChunks.mpr hpo))
    emitted_new hr hd.1
  obtain ⟨rfl, rfl⟩ := mergeWorkerResults_eq_ok hm
  have hpa : ∀ c, c ∈ ((finRange _).map fun k => (s.workers k).out).flatMap
      Collector.packed ↔ ∃ k, c ∈ (s.workers k).out.packed := by
    simp
  have hlo : ∀ c, c ∈ ((finRange _).map fun k => (s.workers k).out).flatMap
      Collector.loose ↔ ∃ k, c ∈ (s.workers k).out.loose := by
    simp
  obtain ⟨hn, hs, hal⟩ := dedupLooseByOid_spec
    (((finRange _).map fun k => (s.workers k).out).flatMap Collector.loose)
  refine ⟨?_, fun oid => ⟨fun hin => ?_, fun ho => ?_⟩⟩
  · rw [map_append]
    refine Nodup.append ?_ hn fun oid hp hl => ?_
    · rw [flatMap_map, map_flatMap, nodup_flatMap]
      refine ⟨fun k _ => he.packedNodup k, (nodup_finRange _).imp fun {a b} hne => ?_⟩
      intro oid ha hb
      obtain ⟨c, hc, rfl⟩ := mem_map.mp ha
      obtain ⟨c', hc', heq⟩ := mem_map.mp hb
      exact hne (he.packedOnce a b c hc c' hc' heq.symm)
    obtain ⟨c, hc, rfl⟩ := mem_map.mp hp
    obtain ⟨c', hc', heq⟩ := mem_map.mp hl
    obtain ⟨k, hk⟩ := (hpa c).mp hc
    obtain ⟨k', hk'⟩ := (hlo c').mp (hs c' hc')
    obtain ⟨-, _, hid, -⟩ := he.packed k c hk
    rw [← heq, (he.loose k' c' hk').2.1] at hid
    cases hid
  · obtain ⟨c, hc, rfl⟩ := hin
    rcases mem_append.mp hc with hc | hc
    · obtain ⟨k, hk⟩ := (hpa c).mp hc
      exact (he.packed k c hk).1
    · obtain ⟨k, hk⟩ := (hlo c).mp (hs c hc)
      exact (he.loose k c hk).1
  · obtain ⟨k, c, hc, heq⟩ := hco.complete he hd ⟨0, hpo⟩ ho
    rcases mem_append.mp hc with hc | hc
    · exact ⟨c, mem_append_left _ ((hpa c).mpr ⟨k, hc⟩), heq⟩
    · obtain ⟨c', hc', hcc⟩ := hal c ((hlo c).mpr ⟨k, hc⟩)
      exact ⟨c', mem_append_right _ hc', hcc.trans heq⟩

end IntroSystem

end GossipRs.Git
