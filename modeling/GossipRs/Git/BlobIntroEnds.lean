import GossipRs.Git.BlobIntroRun

/-! Every run of blob introduction ends: depth is limited, and each step uses up work that is left.
-/

namespace GossipRs.Git

open Lib List

variable {w w' : IntroWorker}

section Work

variable (env : IntroEnv)

/-- The steps that walking a tree takes at most, with this much depth left. -/
def treeWork : Nat → OidBytes → Nat
  | 0, _ => 0
  | depth + 1, t =>
    match env.loadTree t with
    | .error _ => 1
    | .ok entries => 1 + (entries.map fun e => 1 + treeWork depth e.oid).sum

def restWork (depth : Nat) (rest : List TreeEntry) : Nat :=
  (rest.map fun e => 1 + treeWork env depth e.oid).sum

def framesWork : List TreeFrame → Nat
  | [] => 0
  | f :: frames =>
    1 + restWork env (env.limits.maxTreeDepth - (frames.length + 1)) f.rest + framesWork frames

def commitsWork (commits : List Nat) : Nat :=
  (commits.map fun pos => 1 + treeWork env env.limits.maxTreeDepth (env.rootTreeOid pos)).sum

def workerWork (w : IntroWorker) : Nat :=
  framesWork env w.frames + commitsWork env w.commits + if w.finished then 0 else 1

def unclaimedWork (chunks : List (List Nat)) (next : Nat) : Nat :=
  ((chunks.drop next).map fun chunk => 1 + commitsWork env chunk).sum

end Work

section Steps

variable {env : IntroEnv} {chunks : List (List Nat)}

theorem pushTree_work (h : pushTree env w oid dir = .ok w') :
    framesWork env w'.frames =
        treeWork env (env.limits.maxTreeDepth - w.frames.length) oid + framesWork env w.frames ∧
      w'.commits = w.commits ∧ w'.finished = w.finished := by
  have hde : w.frames.length < env.limits.maxTreeDepth := by
    rw [pushTree] at h
    split at h
    · cases h
    next hlt =>
      exact Nat.not_le.mp hlt
  obtain ⟨_, hl, rfl⟩ := pushTree_eq_ok h
  refine ⟨?_, rfl, rfl⟩
  obtain ⟨d, hd⟩ : ∃ d, env.limits.maxTreeDepth - w.frames.length = d + 1 :=
    ⟨env.limits.maxTreeDepth - w.frames.length - 1, by omega⟩
  have hd' : env.limits.maxTreeDepth - (w.frames.length + 1) = d := by omega
  rw [framesWork, hd, treeWork, hl, hd', restWork]

theorem visitBlob_same (h : visitBlob env seen w dir e = (seen', .ok w')) :
    w'.frames = w.frames ∧ w'.commits = w.commits ∧ w'.finished = w.finished := by
  rw [visitBlob] at h
  split at h
  · cases h
  split at h
  next he =>
    have hs := (@excludeBlob_eq_ok dir _ _ e _ _ env [] he h).same
    exact ⟨hs.1, hs.2.1, hs.2.2.1⟩
  · rw [introduceBlob] at h
    split at h
    · split at h
      · cases h
        exact ⟨rfl, rfl, rfl⟩
      · obtain ⟨arenaLen, rfl⟩ := emitPacked_eq_ok (Prod.mk.inj h).2
        exact ⟨rfl, rfl, rfl⟩
    split at h
    · cases h
    split at h
    · obtain ⟨arenaLen, rfl⟩ := emitLoose_eq_ok (Prod.mk.inj h).2
      exact ⟨rfl, rfl, rfl⟩
    · cases h
      exact ⟨rfl, rfl, rfl⟩

theorem visitEntry_work (h : visitEntry env seen w dir e = (seen', .ok w')) :
    framesWork env w'.frames ≤
        treeWork env (env.limits.maxTreeDepth - w.frames.length) e.oid + framesWork env w.frames ∧
      w'.commits = w.commits ∧ w'.finished = w.finished := by
  have stay : (w'.frames = w.frames ∧ w'.commits = w.commits ∧ w'.finished = w.finished) →
      framesWork env w'.frames ≤
        treeWork env (env.limits.maxTreeDepth - w.frames.length) e.oid + framesWork env w.frames ∧
      w'.commits = w.commits ∧ w'.finished = w.finished := by
    intro hs
    rw [hs.1]
    exact ⟨Nat.le_add_left _ _, hs.2⟩
  rw [visitEntry] at h
  split at h
  · obtain ⟨-, ⟨rfl, -⟩ | ⟨he, -⟩⟩ := visitTree_eq_ok h
    · exact stay ⟨rfl, rfl, rfl⟩
    · obtain ⟨hw, hc, hf⟩ := pushTree_work (enterDir_eq_ok he)
      exact ⟨hw.le, hc, hf⟩
  · exact stay (visitBlob_same h)
  · exact stay (visitBlob_same h)
  · exact stay (visitBlob_same h)
  · cases h
    exact stay ⟨rfl, rfl, rfl⟩
  · cases h
    exact stay ⟨rfl, rfl, rfl⟩

theorem workerStep_work (hnf : w.finished = false)
    (h : workerStep env chunks shared w aborted = (shared', .ok w')) :
    workerWork env w' + unclaimedWork env chunks shared'.nextChunk <
      workerWork env w + unclaimedWork env chunks shared.nextChunk := by
  rw [workerStep] at h
  split at h
  next hfr =>
    split at h
    next hco =>
      split at h
      next hch =>
        have hl := List.getElem?_eq_none_iff.mp hch
        cases h
        simp only [workerWork, unclaimedWork, hnf, drop_eq_nil_of_le hl,
          drop_eq_nil_of_le (Nat.le_succ_of_le hl)]
        simp
      next chunk hch =>
        cases h
        have hd : chunks.drop shared.nextChunk = chunk :: chunks.drop (shared.nextChunk + 1) := by
          obtain ⟨hlt, hg⟩ := List.getElem?_eq_some_iff.mp hch
          rw [drop_eq_getElem_cons hlt, hg]
        have hn : commitsWork env [] = 0 := rfl
        simp only [workerWork, unclaimedWork, hd, hfr, hco, map_cons, List.sum_cons, hn]
        omega
    next pos commits hco =>
      split at h
      · cases h
      obtain ⟨h1, h2⟩ := Prod.mk.inj h
      subst h1
      have hv : visitCommit env shared.seen w pos commits =
          ((visitCommit env shared.seen w pos commits).1, .ok w') := by rw [← h2]
      have hcos : commitsWork env w.commits =
          1 + treeWork env env.limits.maxTreeDepth (env.rootTreeOid pos) +
            commitsWork env commits := by
        rw [hco, commitsWork, map_cons, List.sum_cons, ← commitsWork]
      obtain ⟨-, ⟨rfl, -⟩ | ⟨he, -⟩⟩ := visitTree_eq_ok hv
      · simp only [workerWork, hcos]
        omega
      obtain ⟨hw, hc, hf⟩ := pushTree_work he
      simp only [workerWork, hcos, hw, hc, hf, hfr, length_nil, Nat.sub_zero]
      omega
  next frame frames hfr =>
    split at h
    · cases h
      simp only [workerWork, hfr, framesWork]
      omega
    next e rest hr =>
      dsimp only at h
      split at h
      · cases h
      obtain ⟨h1, h2⟩ := Prod.mk.inj h
      subst h1
      obtain ⟨hw, hc, hf⟩ := visitEntry_work (Prod.ext rfl h2)
      have hrw : ∀ d, restWork env d (e :: rest) =
          1 + treeWork env d e.oid + restWork env d rest := fun d => by
        rw [restWork, map_cons, List.sum_cons, ← restWork]
      simp only [framesWork, length_cons] at hw
      simp only [workerWork, hfr, framesWork, hr, hrw, hc, hf]
      omega

theorem workerStep_fail (h : workerStep env chunks shared w aborted = (shared', .error err)) :
    shared'.nextChunk = shared.nextChunk := by
  rw [workerStep] at h
  split at h
  · split at h
    · split at h
      · cases h
      · cases h
    split at h
    · cases h
      rfl
    obtain ⟨h1, -⟩ := Prod.mk.inj h
    subst h1
    rfl
  · split at h
    · cases h
    dsimp only at h
    split at h
    · cases h
      rfl
    obtain ⟨h1, -⟩ := Prod.mk.inj h
    subst h1
    rfl

end Steps

namespace IntroSystem

variable {n : Nat} {env : IntroEnv} {plan : List Nat} {chunks : List (List Nat)}

def work (env : IntroEnv) (chunks : List (List Nat)) (s : IntroSystem n) : Nat :=
  (∑ k, workerWork env (s.workers k)) + unclaimedWork env chunks s.shared.nextChunk +
    (Finset.univ.filter fun k => k ∉ s.errors.map Prod.fst).card

theorem sum_update (workers : Fin n → IntroWorker) (k : Fin n) (w : IntroWorker) :
    (∑ j, workerWork env (Function.update workers k w j)) + workerWork env (workers k) =
      (∑ j, workerWork env (workers j)) + workerWork env w := by
  have hc : (fun j => workerWork env (Function.update workers k w j)) =
      Function.update (fun j => workerWork env (workers j)) k (workerWork env w) := by
    funext j
    by_cases hj : j = k
    · subst hj
      rw [Function.update_self, Function.update_self]
    · rw [Function.update_of_ne hj, Function.update_of_ne hj]
  rw [hc, Finset.sum_update_of_mem (Finset.mem_univ k),
    Finset.sum_eq_add_sum_sdiff_singleton_of_mem (Finset.mem_univ k)
      fun j => workerWork env (workers j)]
  omega

theorem Step.work_lt {s s' : IntroSystem n} (h : Step env chunks s s') :
    work env chunks s' < work env chunks s := by
  cases h with
  | ok k aborted hnf _ heq =>
    have hw := workerStep_work hnf heq
    rename_i shared w _
    have hs := @sum_update _ env s.workers k w
    simp only [work]
    omega
  | fail k aborted _ hnew heq =>
    have hn := workerStep_fail heq
    rename_i err _
    have hl : (Finset.univ.filter fun j => j ∉ ((k, err) :: s.errors).map Prod.fst).card <
        (Finset.univ.filter fun j => j ∉ s.errors.map Prod.fst).card := by
      refine Finset.card_lt_card (Finset.ssubset_iff_of_subset ?_ |>.mpr ⟨k, ?_, ?_⟩)
      · intro j hj
        rw [Finset.mem_filter] at hj ⊢
        exact ⟨hj.1, fun hin => hj.2 (mem_cons_of_mem _ hin)⟩
      · rw [Finset.mem_filter]
        refine ⟨Finset.mem_univ _, fun hin => ?_⟩
        obtain ⟨p, hp, rfl⟩ := mem_map.mp hin
        exact hnew p.2 hp
      · rw [Finset.mem_filter]
        exact fun hin => hin.2 mem_cons_self
    simp only [work, hn]
    omega

/-- No run goes on for ever, and the property holds where a run without failures stops. -/
def Ends (env : IntroEnv) (chunks : List (List Nat)) (s₀ : IntroSystem n)
    (Q : IntroSystem n → Prop) : Prop :=
  Acc (fun s' s => Step env chunks s s') s₀ ∧
    ∀ s, Run env chunks s₀ s → (∀ s', ¬ Step env chunks s s') → s.errors = [] → Q s

theorem done_of_stuck {s : IntroSystem n} (hs : ∀ s', ¬ Step env chunks s s')
    (hc : s.errors = []) : s.Done := by
  refine ⟨hc, fun k => ?_⟩
  by_contra hn
  have hn : (s.workers k).finished = false := Bool.eq_false_iff.mpr hn
  have hno : ∀ err, (k, err) ∉ s.errors := fun err hin => by
    rw [hc] at hin
    cases hin
  cases hst : workerStep env chunks s.shared (s.workers k) false with
  | mk shared result =>
    cases result with
    | error err => exact hs _ (.fail k false hn hno hst)
    | ok w => exact hs _ (.ok k false hn hno hst)

theorem ends_of {Q : IntroSystem n → Prop} (h : ∀ s, Run env chunks s0 s → s.Done → Q s) :
    Ends env chunks s0 Q := by
  refine ⟨?_, fun s hr hs hc => h s hr (done_of_stuck hs hc)⟩
  have hwf : WellFounded fun s' s : IntroSystem n => Step env chunks s s' :=
    Subrelation.wf (fun hst => Step.work_lt hst) (InvImage.wf (work env chunks) Nat.lt_wfRel.wf)
  exact hwf.apply s0

/-- Serial or parallel, blob introduction ends, and when nothing fails its candidates are the blobs
of the planned commits under scanned paths, each once. -/
theorem blobIntroduction_exact (env : IntroEnv) (plan : List Nat) (requested : Nat)
    (caps : MergeCaps) :
    Ends env [] (serial env plan) (fun s =>
      Exact env plan ((s.workers 0).out.packed ++ (s.workers 0).out.loose)) ∧
    Ends env (planChunks requested plan) (parallel env requested plan) (fun s =>
      ∀ packed loose, mergeWorkerResults caps
          ((List.finRange _).map fun k => (s.workers k).out) = .ok (packed, loose) →
        Exact env plan (packed ++ loose)) :=
  ⟨ends_of fun _ hrun hdone => exact_serial hrun hdone,
    ends_of fun _ hrun hdone _ _ hmerge => exact_parallel hrun hdone hmerge⟩

theorem mergeWorkerResults_ok
    (harena : (results.map Collector.arenaLen).sum ≤ caps.pathArenaCapacity)
    (hpacked : (results.flatMap Collector.packed).length ≤ caps.maxPacked)
    (hloose : (results.flatMap Collector.loose).length ≤ caps.maxLoose) :
    mergeWorkerResults caps results = .ok (results.flatMap Collector.packed,
      dedupLooseByOid (results.flatMap Collector.loose)) := by
  obtain ⟨hnodup, hsub, -⟩ := dedupLooseByOid_spec (results.flatMap Collector.loose)
  have hle := (hnodup.of_map.subperm hsub).length_le
  rw [mergeWorkerResults, if_neg (not_lt.mpr harena), if_neg (not_lt.mpr hpacked),
    if_neg (not_lt.mpr (hle.trans hloose))]

/-! Two commits, walked by two workers: the trees share the packed blob 3 and the loose blob 4. -/

def advance (env : IntroEnv) (chunks : List (List Nat)) (s : IntroSystem n) (k : Fin n) :
    Option (IntroSystem n) :=
  match workerStep env chunks s.shared (s.workers k) false with
  | (shared, .ok w) =>
    if (s.workers k).finished = false ∧ s.errors = [] then
      some { s with shared, workers := Function.update s.workers k w }
    else none
  | (_, .error _) => none

theorem run_of_advance {s' : IntroSystem n} {ks : List (Fin n)}
    (h : ks.foldlM (advance env chunks) s = some s') : Run env chunks s s' := by
  induction ks generalizing s with
  | nil =>
    cases h
    exact .refl
  | cons k ks ih =>
    obtain ⟨next, hnext, hrest⟩ := Option.bind_eq_some_iff.mp h
    refine .head ?_ (ih hrest)
    unfold advance at hnext
    split at hnext
    next hstep =>
      split at hnext
      next hgo =>
        cases hnext
        exact .ok k false hgo.1 (by simp [hgo.2]) hstep
      next => cases hnext
    next => cases hnext

theorem sampleOid_length (b : UInt8) :
    (List.replicate 20 b).length = 20 ∨ (List.replicate 20 b).length = 32 :=
  .inl length_replicate

def sampleOid (b : UInt8) : OidBytes := ⟨List.replicate 20 b, sampleOid_length b⟩

def sampleFile (name oid : UInt8) : TreeEntry := ⟨[name], .regularFile, 0o100644, sampleOid oid⟩

def sampleEnv : IntroEnv where
  tables := ⟨fun _ => false, fun _ => false, fun _ => false, fun _ => false, fun _ => false,
    fun _ => false⟩
  scanBinary := false
  midx := ⟨20, [sampleOid 3], by simp [sampleOid, OidBytes.len], pairwise_singleton _ _⟩
  loadTree t := .ok (if t = sampleOid 1 then [sampleFile 102 3, sampleFile 103 4]
    else [sampleFile 102 3, sampleFile 104 4, sampleFile 105 5])
  inFlightLen _ := 64
  rootTreeOid pos := if pos = 0 then sampleOid 1 else sampleOid 2
  limits := ⟨8, 1024, 8, 64, 8, 8⟩

/-- The workers in turns. -/
def sampleTurns : List (Fin (workerCount 2 [0, 1])) :=
  [0, 1, 0, 1, 0, 1, 0, 1, 0, 1, 0, 1, 1].map fun k => ⟨k % 2, by
    show k % 2 < 2
    omega⟩

/-- In these turns both workers finish, with less than the merge may hold. -/
theorem sampleTurns_done : ∃ s, sampleTurns.foldlM (advance sampleEnv (planChunks 2 [0, 1]))
      (parallel sampleEnv 2 [0, 1]) = some s ∧ s.Done ∧
    ∃ packed loose, mergeWorkerResults ⟨64, 8, 8⟩
      ((List.finRange _).map fun k => (s.workers k).out) = .ok (packed, loose) := by
  have h : (sampleTurns.foldlM (advance sampleEnv (planChunks 2 [0, 1]))
      (parallel sampleEnv 2 [0, 1])).any (fun s =>
        let results := (List.finRange _).map fun k => (s.workers k).out
        s.errors.isEmpty && ((List.finRange _).all fun k => (s.workers k).finished) &&
          (decide ((results.map Collector.arenaLen).sum ≤ 64) &&
          decide ((results.flatMap Collector.packed).length ≤ 8) &&
          decide ((results.flatMap Collector.loose).length ≤ 8))) = true := by
    decide +kernel
  cases hs : sampleTurns.foldlM (advance sampleEnv (planChunks 2 [0, 1]))
      (parallel sampleEnv 2 [0, 1]) with
  | none =>
    rw [hs] at h
    cases h
  | some s =>
    rw [hs, Option.any_some] at h
    simp only [Bool.and_eq_true, List.isEmpty_iff, all_eq_true, mem_finRange, true_imp_iff,
      decide_eq_true_iff] at h
    obtain ⟨⟨herrors, hfinished⟩, ⟨harena, hpacked⟩, hloose⟩ := h
    exact ⟨s, rfl, ⟨herrors, hfinished⟩, _, _, mergeWorkerResults_ok harena hpacked hloose⟩

theorem blobIntroduction_exact_turns :
    ∃ s packed loose, Run sampleEnv (planChunks 2 [0, 1]) (parallel sampleEnv 2 [0, 1]) s ∧
      mergeWorkerResults ⟨64, 8, 8⟩ ((List.finRange _).map fun k => (s.workers k).out) =
        .ok (packed, loose) ∧ Exact sampleEnv [0, 1] (packed ++ loose) := by
  obtain ⟨s, hs, ⟨herrors, hfinished⟩, packed, loose, hmerge⟩ := sampleTurns_done
  have hrun := run_of_advance hs
  have hstuck : ∀ s', ¬ Step sampleEnv (planChunks 2 [0, 1]) s s' := by
    intro s' hstep
    cases hstep with
    | ok k _ hk | fail k _ hk => exact absurd ((hfinished k).symm.trans hk) (by decide)
  exact ⟨s, packed, loose, hrun, hmerge, (blobIntroduction_exact sampleEnv [0, 1] 2
    ⟨64, 8, 8⟩).2.2 s hrun hstuck herrors packed loose hmerge⟩

end IntroSystem

end GossipRs.Git
