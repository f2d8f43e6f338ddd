import GossipRs.Git.CommitReach

/-! The topological order of a commit plan: Kahn's algorithm takes every commit once, after its
parents. -/

namespace GossipRs.Git

open Lib Outcome List

structure Relaxed (children : List Nat) (state state' : (Nat → Nat) × List Nat) : Prop where
  degree : ∀ c, state'.1 c = state.1 c - children.count c
  queued : ∃ fresh : List Nat, state'.2 = state.2 ++ fresh ∧ fresh.Nodup ∧
    ∀ c, c ∈ fresh ↔ c ∈ children ∧ state.1 c = children.count c

theorem relaxed_foldl :
    ∀ {state}, (∀ c ∈ children, children.count c ≤ state.1 c) →
      Relaxed children state (children.foldl relaxChild state) := by
  induction children with
  | nil => exact fun _ => ⟨fun c => rfl, [], by simp⟩
  | cons x children ih =>
    intro state hl
    have hx : children.count x + 1 ≤ state.1 x := by
      have := hl x mem_cons_self
      rwa [count_cons_self] at this
    have hd : ∀ c, (relaxChild state x).1 c =
        if c = x then state.1 x - 1 else state.1 c := by
      intro c
      rw [relaxChild]
      dsimp only
      by_cases hc : c = x
      · rw [hc, Function.update_self, if_pos rfl]
      · rw [Function.update_of_ne hc, if_neg hc]
    have hr : Relaxed children (relaxChild state x) _ := ih fun c hc => by
      rw [hd]
      split
      next he =>
        rw [he]
        omega
      next hne =>
        have := hl c (mem_cons_of_mem _ hc)
        rwa [count_cons_of_ne (Ne.symm hne)] at this
    obtain ⟨fresh, hq, hn, hm⟩ := hr.queued
    rw [foldl_cons]
    refine ⟨fun c => ?_, ?_⟩
    · rw [hr.degree, hd]
      by_cases hc : c = x
      · rw [if_pos hc, hc, count_cons_self]
        omega
      · rw [if_neg hc, count_cons_of_ne (Ne.symm hc)]
    have hm' : ∀ c, c ∈ fresh ↔ c ∈ children ∧
        (if c = x then state.1 x - 1 else state.1 c) = children.count c := by
      intro c
      rw [hm, hd]
    by_cases hz : state.1 x - 1 = 0
    · -- the last edge to `x`
      have hno : x ∉ children := fun hin => by
        have := count_pos_iff.mpr hin
        omega
      refine ⟨x :: fresh, ?_, nodup_cons.mpr ⟨fun hin => hno ((hm' x).mp hin).1, hn⟩, fun c => ?_⟩
      · have hp : (relaxChild state x).2 = state.2 ++ [x] := by
          rw [relaxChild]
          rw [Function.update_self, if_pos hz]
        rw [hq, hp, append_assoc]
        rfl
      rw [mem_cons, mem_cons, hm']
      by_cases hc : c = x
      · rw [hc, count_cons_self, count_eq_zero.mpr hno]
        have : state.1 x = 0 + 1 := by omega
        simp [this]
      · rw [if_neg hc, count_cons_of_ne (Ne.symm hc)]
        simp [hc]
    · refine ⟨fresh, ?_, hn, fun c => ?_⟩
      · have hk : (relaxChild state x).2 = state.2 := by
          rw [relaxChild]
          rw [Function.update_self, if_neg hz]
        rw [hq, hk]
      rw [hm', mem_cons]
      by_cases hc : c = x
      · rw [if_pos hc, hc, count_cons_self]
        constructor
        · exact fun h => ⟨.inl rfl, by omega⟩
        · intro h
          exact ⟨count_pos_iff.mp (by omega), by omega⟩
      · rw [if_neg hc, count_cons_of_ne (Ne.symm hc)]
        simp [hc]

section Kahn

variable {cg : CommitGraph} {positions : List Nat}

theorem mem_childrenOf : c ∈ childrenOf cg positions p ↔ c ∈ positions ∧ p ∈ cg.parents c := by
  rw [childrenOf, mem_flatMap]
  constructor
  · intro h
    obtain ⟨_, hp, hm⟩ := h
    obtain ⟨_, rfl⟩ := mem_replicate.mp hm
    exact ⟨hp, count_pos_iff.mp (by omega)⟩
  intro h
  refine ⟨c, h.1, mem_replicate.mpr ⟨?_, rfl⟩⟩
  have := count_pos_iff.mpr h.2
  omega

theorem count_childrenOf (hn : positions.Nodup) (hc : c ∈ positions) :
    (childrenOf cg positions p).count c = (cg.parents c).count p := by
  induction positions with
  | nil => exact absurd hc not_mem_nil
  | cons x positions ih =>
    obtain ⟨hx, hn⟩ := nodup_cons.mp hn
    rw [childrenOf, flatMap_cons, count_append, count_replicate]
    by_cases hxc : x = c
    · -- no later position contributes to `c`
      have hno : (childrenOf cg positions p).count c = 0 :=
        count_eq_zero.mpr fun hm => hx (hxc ▸ (mem_childrenOf.mp hm).1)
      rw [childrenOf] at hno
      rw [hno, hxc, beq_self_eq_true, if_pos rfl, Nat.add_zero]
    have hr := ih hn ((mem_cons.mp hc).resolve_left (Ne.symm hxc))
    rw [childrenOf] at hr
    rw [hr, beq_false_of_ne hxc]
    simp

def openEdges (cg : CommitGraph) (positions ordered : List Nat) (c : Nat) : Nat :=
  (cg.parents c).countP fun p => decide (p ∈ positions ∧ p ∉ ordered)

/-- What the loop keeps: degrees are the open edges, and what has none is queued or ordered. -/
structure KahnInv (cg : CommitGraph) (positions : List Nat) (degree : Nat → Nat)
    (queue ordered : List Nat) : Prop where
  degree_eq : ∀ c ∈ positions, degree c = openEdges cg positions ordered c
  mem_iff : ∀ c, c ∈ queue ∨ c ∈ ordered ↔ c ∈ positions ∧ openEdges cg positions ordered c = 0
  nodup : (queue ++ ordered).Nodup
  after : ordered.Pairwise fun later earlier => later ∉ cg.parents earlier
  parents : ∀ c ∈ ordered, ∀ p ∈ cg.parents c, p ∈ positions → p ∈ ordered

theorem openEdges_cons (hp : pos ∈ positions) (hn : pos ∉ ordered) :
    openEdges cg positions (pos :: ordered) c + (cg.parents c).count pos =
      openEdges cg positions ordered c := by
  refine RefScratch.countP_add_count ?_ (decide_eq_true ⟨hp, hn⟩) (fun x hx => ?_) _
  · exact decide_eq_false fun h => h.2 mem_cons_self
  · simp [hx]

theorem openEdges_eq_zero_iff :
    openEdges cg positions ordered c = 0 ↔ ∀ p ∈ cg.parents c, p ∈ positions → p ∈ ordered := by
  rw [openEdges, countP_eq_zero]
  refine forall_congr' fun p => forall_congr' fun _ => ?_
  rw [decide_eq_true_iff]
  tauto

theorem KahnInv.step (hn : positions.Nodup)
    (h : KahnInv cg positions degree (pos :: queue) ordered)
    (hr : (childrenOf cg positions pos).foldl relaxChild (degree, queue) = relaxed) :
    KahnInv cg positions relaxed.1 relaxed.2 (pos :: ordered) := by
  obtain ⟨hpo, hze⟩ := (h.mem_iff pos).mp (.inl mem_cons_self)
  obtain ⟨hf, _⟩ := nodup_cons.mp h.nodup
  have hne : pos ∉ ordered := fun hm => hf (mem_append_right _ hm)
  have he : ∀ c, openEdges cg positions (pos :: ordered) c + (cg.parents c).count pos =
      openEdges cg positions ordered c := fun c => openEdges_cons hpo hne
  have hs : Relaxed (childrenOf cg positions pos) (degree, queue) relaxed := by
    rw [← hr]
    refine relaxed_foldl fun c hc => ?_
    obtain ⟨hcp, -⟩ := mem_childrenOf.mp hc
    rw [count_childrenOf hn hcp]
    dsimp only
    rw [h.degree_eq c hcp, ← he c]
    omega
  obtain ⟨fresh, hqu, hfr, hm⟩ := hs.queued
  have hfm : ∀ c, c ∈ fresh ↔ c ∈ positions ∧ pos ∈ cg.parents c ∧
      openEdges cg positions (pos :: ordered) c = 0 := by
    intro c
    rw [hm, mem_childrenOf]
    dsimp only
    constructor
    · intro hc
      obtain ⟨⟨hcp, hpa⟩, hco⟩ := hc
      rw [count_childrenOf hn hcp, h.degree_eq c hcp, ← he c] at hco
      exact ⟨hcp, hpa, by omega⟩
    intro hc
    obtain ⟨hcp, hpa, hop⟩ := hc
    refine ⟨⟨hcp, hpa⟩, ?_⟩
    rw [count_childrenOf hn hcp, h.degree_eq c hcp, ← he c, hop, Nat.zero_add]
  -- a commit that waits for `pos` was neither queued nor ordered
  have hw : ∀ c ∈ fresh, c ∉ pos :: queue ∧ c ∉ ordered := by
    intro c hc
    obtain ⟨hcp, hpa, -⟩ := (hfm c).mp hc
    have hop : openEdges cg positions ordered c ≠ 0 := fun hz =>
      hne (openEdges_eq_zero_iff.mp hz pos hpa hpo)
    exact ⟨fun hq => hop ((h.mem_iff c).mp (.inl hq)).2,
      fun ho => hop ((h.mem_iff c).mp (.inr ho)).2⟩
  refine ⟨fun c hc => ?_, fun c => ?_, ?_, ?_, ?_⟩
  · rw [hs.degree, count_childrenOf hn hc]
    dsimp only
    rw [h.degree_eq c hc, ← he c]
    omega
  · rw [hqu]
    constructor
    · intro hc
      have hol : c ∈ pos :: queue ∨ c ∈ ordered → c ∈ positions ∧
          openEdges cg positions (pos :: ordered) c = 0 := by
        intro hc
        obtain ⟨hcp, hop⟩ := (h.mem_iff c).mp hc
        refine ⟨hcp, ?_⟩
        have := he c
        omega
      rcases hc with hc | hc
      · rcases mem_append.mp hc with hc | hc
        · exact hol (.inl (mem_cons_of_mem _ hc))
        · exact ⟨((hfm c).mp hc).1, ((hfm c).mp hc).2.2⟩
      rcases mem_cons.mp hc with rfl | hc
      · exact hol (.inl mem_cons_self)
      · exact hol (.inr hc)
    · intro hc
      obtain ⟨hcp, hop⟩ := hc
      by_cases hpa : pos ∈ cg.parents c
      · exact .inl (mem_append_right _ ((hfm c).mpr ⟨hcp, hpa, hop⟩))
      have hsa := he c
      rw [count_eq_zero.mpr hpa, Nat.add_zero, hop] at hsa
      rcases (h.mem_iff c).mpr ⟨hcp, hsa.symm⟩ with hq | ho
      · rcases mem_cons.mp hq with rfl | hq
        · exact .inr mem_cons_self
        · exact .inl (mem_append_left _ hq)
      · exact .inr (mem_cons_of_mem _ ho)
  · rw [hqu]
    have hpe : (queue ++ fresh ++ pos :: ordered).Perm (fresh ++ (pos :: (queue ++ ordered))) := by
      rw [append_assoc]
      refine (perm_append_comm_assoc _ _ _).trans (Perm.append_left _ ?_)
      exact perm_middle
    rw [hpe.nodup_iff]
    refine nodup_append.mpr ⟨hfr, h.nodup, fun c hc d hd heq => ?_⟩
    obtain ⟨hnq, hno⟩ := hw c hc
    rw [← heq] at hd
    rcases mem_cons.mp hd with rfl | hd
    · exact hnq mem_cons_self
    · exact (mem_append.mp hd).elim (fun hq => hnq (mem_cons_of_mem _ hq)) hno
  · refine pairwise_cons.mpr ⟨fun c hc hpa => ?_, h.after⟩
    exact hne (h.parents c hc pos hpa hpo)
  · intro c hc p hp hpp
    rcases mem_cons.mp hc with rfl | hc
    · exact mem_cons_of_mem _ (openEdges_eq_zero_iff.mp hze p hp hpp)
    · exact mem_cons_of_mem _ (h.parents c hc p hp hpp)

/-- With an empty queue every commit is ordered: one of smallest generation among the others would
have no open edge. -/
theorem KahnInv.complete (hl : ∀ c ∈ positions, c < cg.numCommits)
    (h : KahnInv cg positions degree [] ordered) : ∀ c, c ∈ ordered ↔ c ∈ positions := by
  have hm : ∀ c, c ∈ ordered ↔ c ∈ positions ∧ openEdges cg positions ordered c = 0 := by
    intro c
    rw [← h.mem_iff]
    simp
  have ha : ∀ gen c, cg.generation c < gen → c ∈ positions → c ∈ ordered := by
    intro gen
    induction gen with
    | zero => exact fun c hc => absurd hc (Nat.not_lt_zero _)
    | succ gen ih =>
      intro c hg hc
      refine (hm c).mpr ⟨hc, openEdges_eq_zero_iff.mpr fun p hp hpp => ih p ?_ hpp⟩
      have := cg.generation_lt c (hl c hc) p hp
      omega
  exact fun c => ⟨fun hc => ((hm c).mp hc).1, ha _ c (Nat.lt_succ_self _)⟩

def ParentsFirst (cg : CommitGraph) (plan : List Nat) : Prop :=
  ∀ before c after, plan = before ++ c :: after → ∀ p ∈ cg.parents c, p ∈ plan → p ∈ before

theorem parentsFirst_of_pairwise (hl : ∀ c ∈ plan, c < cg.numCommits)
    (h : plan.Pairwise fun earlier later => later ∉ cg.parents earlier) : ParentsFirst cg plan := by
  intro before c after he p hp hm
  have hc : c < cg.numCommits := hl c (by simp [he])
  rw [he] at hm h
  rcases mem_append.mp hm with hm | hm
  · exact hm
  rcases mem_cons.mp hm with rfl | hm
  · exact absurd (cg.generation_lt p hc p hp) (lt_irrefl _)
  · exact absurd hp ((pairwise_cons.mp (pairwise_append.mp h).2.1).1 p hm)

theorem kahnLoop_eq (hn : positions.Nodup) (hl : ∀ c ∈ positions, c < cg.numCommits) (fuel) :
    ∀ {degree queue ordered},
      KahnInv cg positions degree queue ordered → ordered.length + fuel = positions.length →
      ∃ plan, kahnLoop cg positions fuel degree queue ordered = .ok plan ∧ plan.Nodup ∧
        (∀ c, c ∈ plan ↔ c ∈ positions) ∧ ParentsFirst cg plan := by
  have hd : ∀ {degree : Nat → Nat} {ordered : List Nat},
      KahnInv cg positions degree [] ordered → ordered.reverse.Nodup ∧
        (∀ c, c ∈ ordered.reverse ↔ c ∈ positions) ∧ ParentsFirst cg ordered.reverse := by
    intro degree ordered h
    have hm : ∀ c, c ∈ ordered.reverse ↔ c ∈ positions := fun c =>
      mem_reverse.trans (h.complete hl c)
    refine ⟨nodup_reverse.mpr h.nodup, hm, ?_⟩
    exact parentsFirst_of_pairwise (fun c hc => hl c ((hm c).mp hc)) (pairwise_reverse.mpr h.after)
  induction fuel with
  | zero =>
    intro degree queue ordered h hf
    have hs : (queue ++ ordered) ⊆ positions := fun c hc =>
      ((h.mem_iff c).mp (mem_append.mp hc)).1
    have hle := (subperm_of_subset h.nodup hs).length_le
    rw [length_append] at hle
    have hni : queue = [] := length_eq_zero_iff.mp (by omega)
    rw [hni] at h ⊢
    exact ⟨_, by rw [kahnLoop], hd h⟩
  | succ fuel ih =>
    intro degree queue ordered h hf
    cases queue with
    | nil => exact ⟨_, by rw [kahnLoop], hd h⟩
    | cons pos queue =>
      refine ih (h.step hn rfl) ?_
      rw [length_cons]
      omega

variable {limits : CommitWalkLimits}

theorem ends_checkParents (l : List Nat) :
    Ends cg limits (checkParents cg limits l) fun _ => True := by
  induction l with
  | nil => exact trivial
  | cons pos l ih => exact ends_collectParents ih

theorem ends_topoOrderPositions (hlt : ∀ c ∈ given, c < cg.numCommits) :
    Ends cg limits (topoOrderPositions cg limits given)
      fun plan => plan.Nodup ∧ (∀ c, c ∈ plan ↔ c ∈ given) ∧ ParentsFirst cg plan := by
  rw [topoOrderPositions]
  by_cases hni : given = []
  · rw [if_pos hni, hni]
    refine ⟨nodup_nil, fun c => Iff.rfl, fun before c after heq => ?_⟩
    exact absurd heq (by simp)
  rw [if_neg hni, Ends, post_bind, Outcome.ensure]
  split
  case isFalse hla => exact ⟨rfl, rfl, not_le.mp hla⟩
  rw [post_ok, post_bind]
  refine Outcome.Post.mono (ends_checkParents _) (fun _ _ _ => ?_) (fun _ _ he => he)
    (fun _ _ hp => hp)
  have hs : ∀ c, c ∈ (given.insertionSort (· ≤ ·)).dedup ↔ c ∈ given := fun c =>
    mem_dedup.trans (mem_insertionSort _)
  have hn := nodup_dedup (given.insertionSort (· ≤ ·))
  dsimp only
  generalize (given.insertionSort (· ≤ ·)).dedup = positions at hs hn
  have hed : ∀ c, (cg.parents c).countP (fun p => decide (p ∈ positions)) =
      openEdges cg positions [] c := by
    intro c
    refine countP_congr fun p _ => ?_
    simp
  have hinv : KahnInv cg positions
      (fun pos => (cg.parents pos).countP fun p => decide (p ∈ positions))
      (positions.filter fun pos =>
        decide ((cg.parents pos).countP (fun p => decide (p ∈ positions)) = 0)) [] := by
    refine ⟨fun c _ => hed c, fun c => ?_, ?_, List.Pairwise.nil, fun p hp => by cases hp⟩
    · rw [mem_filter, decide_eq_true_iff, hed]
      simp
    · rw [append_nil]
      exact hn.filter _
  obtain ⟨plan, hpl, hpn, hpm, hf⟩ := kahnLoop_eq hn
    (fun c hc => hlt c ((hs c).mp hc)) positions.length hinv (Nat.zero_add _)
  have hl : plan.length = positions.length :=
    ((perm_ext_iff_of_nodup hpn hn).mpr hpm).length_eq
  rw [hpl, ok_bind, Outcome.ensure, if_pos hl]
  exact ⟨hpn, fun c => (hpm c).trans (hs c), hf⟩

end Kahn

end GossipRs.Git
