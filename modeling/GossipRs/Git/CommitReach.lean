import GossipRs.Git.CommitWalk
import Mathlib.Logic.Relation

/-! Ancestry checks and the range walk of one ref visit exactly what they should. A search flags
what it has seen; what is seen and no longer on the frontier has its parents seen. -/

namespace GossipRs.Git

open Lib Outcome List

namespace CommitGraph

def Reach (cg : CommitGraph) : Nat → Nat → Prop :=
  Relation.ReflTransGen fun c p => p ∈ cg.parents c

variable {cg : CommitGraph}

theorem Reach.lt (h : cg.Reach c p) (hc : c < cg.numCommits) : p < cg.numCommits := by
  induction h with
  | refl => exact hc
  | tail _ hp ih => exact cg.parents_lt _ ih _ hp

theorem Reach.generation_le (h : cg.Reach c p) (hc : c < cg.numCommits) :
    cg.generation p ≤ cg.generation c := by
  induction h with
  | refl => exact le_rfl
  | tail hreach hp ih => exact (cg.generation_lt _ (Reach.lt hreach hc) _ hp).le.trans ih

theorem Reach.carries (h : cg.Reach c p) {P : Nat → Prop} (hc : P c)
    (hs : ∀ x y, P x → y ∈ cg.parents x → cg.Reach y p → P y) : P p := by
  induction h using Relation.ReflTransGen.head_induction_on with
  | refl => exact hc
  | head hedge hrest ih => exact ih (hs _ _ hc hedge hrest)

end CommitGraph

namespace RefScratch

variable {s : RefScratch} {p q n : Nat} {f g : Flag}

def Tracked (s : RefScratch) : Prop := ∀ p, s.state p ≠ [] → p ∈ s.touched

theorem tracked_new : Tracked new := fun _ hp => absurd rfl hp

theorem has_setBit_iff : (s.setBit p f).has q g = true ↔ (q = p ∧ g = f) ∨ s.has q g = true := by
  rw [has, has, decide_eq_true_iff, decide_eq_true_iff, setBit]
  dsimp only
  by_cases hq : q = p
  · rw [hq, Function.update_self, mem_cons]
    simp
  · simp [hq]

theorem Tracked.setBit (h : s.Tracked) : (s.setBit p f).Tracked := by
  intro q hq
  rw [RefScratch.setBit] at hq ⊢
  by_cases hqp : q = p
  · rw [hqp]
    by_cases hc : s.state p = []
    · simp [hc]
    · simp [hc, h p hc]
  dsimp only at hq
  rw [Function.update_of_ne hqp] at hq
  have hm := h q hq
  split
  · exact mem_cons_of_mem _ hm
  · exact hm

theorem state_foldl_update (touched : List Nat) :
    ∀ (state : Nat → List Flag) (q : Nat),
      touched.foldl (fun state p => Function.update state p []) state q =
        if q ∈ touched then [] else state q := by
  induction touched with
  | nil => simp
  | cons p touched ih =>
    intro state q
    rw [foldl_cons, ih]
    by_cases hq : q ∈ touched
    · simp [hq]
    by_cases hqp : q = p
    · simp [hqp]
    · simp [hq, hqp]

theorem has_clear (h : s.Tracked) : s.clear.has q g = false := by
  rw [has, clear, decide_eq_false_iff_not]
  dsimp only
  rw [state_foldl_update]
  split
  · exact not_mem_nil
  next hq =>
    have hn : s.state q = [] := by
      by_contra hne
      exact hq (h q hne)
    rw [hn]
    exact not_mem_nil

theorem Tracked.clear (h : s.Tracked) : s.clear.Tracked := by
  intro p hp
  refine absurd ?_ hp
  rw [RefScratch.clear]
  dsimp only
  rw [state_foldl_update]
  split
  · rfl
  next hm =>
    by_contra hne
    exact hm (h p hne)

/-- How many of the first `n` commits do not have a flag. -/
def unseen (n : Nat) (f : Flag) (s : RefScratch) : Nat :=
  (List.range n).countP fun p => !s.has p f

theorem unseen_le : s.unseen n f ≤ n :=
  countP_le_length.trans_eq length_range

theorem countP_add_count (ha : a pos = false) (hb : b pos = true) (hab : ∀ x, x ≠ pos → a x = b x)
    (l : List Nat) : l.countP a + l.count pos = l.countP b := by
  induction l with
  | nil => rfl
  | cons x l ih =>
    rw [countP_cons, countP_cons, count_cons, ← ih]
    by_cases hx : x = pos
    · rw [hx, ha, hb, beq_self_eq_true]
      simp only [if_true, Bool.false_eq_true, if_false]
      omega
    rw [hab x hx, beq_false_of_ne hx]
    simp only [Bool.false_eq_true, if_false]
    omega

theorem unseen_congr {s' : RefScratch} (h : ∀ q, s'.has q f = true ↔ s.has q f = true) :
    s'.unseen n f = s.unseen n f :=
  countP_congr fun q _ => by rw [Bool.eq_iff_iff.mpr (h q)]

theorem unseen_setBit (hp : p < n) (hn : s.has p f = false) :
    (s.setBit p f).unseen n f + 1 = s.unseen n f := by
  rw [← count_eq_one_of_mem nodup_range (mem_range.mpr hp)]
  refine countP_add_count ?_ (by simp [hn]) (fun x hx => ?_) _
  · have hs : (s.setBit p f).has p f = true := has_setBit_iff.mpr (.inl ⟨rfl, rfl⟩)
    simp [hs]
  have hif : (s.setBit p f).has x f = true ↔ s.has x f = true :=
    has_setBit_iff.trans (or_iff_right fun h => hx h.1)
  rw [Bool.eq_iff_iff.mpr hif]

end RefScratch

structure VisitedParents (n : Nat) (flag : Flag) (parents : List Nat) (s s' : RefScratch)
    (l l' : List Nat) : Prop where
  has_iff : ∀ q g, s'.has q g = true ↔ s.has q g = true ∨ (g = flag ∧ q ∈ parents)
  mem_iff : ∀ q, q ∈ l' ↔ q ∈ l ∨ (q ∈ parents ∧ s.has q flag = false)
  budget : l'.length + s'.unseen n flag = l.length + s.unseen n flag
  tracked : s.Tracked → s'.Tracked

theorem visitParents_spec (hpu : ∀ p l, (push p l).Perm (p :: l)) :
    ∀ {s l}, (∀ p ∈ parents, p < n) →
      VisitedParents n flag parents s (visitParents flag push parents s l).1 l
        (visitParents flag push parents s l).2 := by
  induction parents with
  | nil => exact fun _ => ⟨by simp [visitParents], by simp [visitParents], rfl, id⟩
  | cons p parents ih =>
    intro s l hl
    have hp := hl p mem_cons_self
    have hr := fun q hq => hl q (mem_cons_of_mem p hq)
    rw [visitParents]
    by_cases hs : s.has p flag = true
    · rw [if_pos hs]
      have hih := ih (s := s) (l := l) hr
      refine ⟨fun q g => ?_, fun q => ?_, hih.budget, hih.tracked⟩
      · rw [hih.has_iff, mem_cons]
        constructor
        · exact fun h => h.imp id fun h => ⟨h.1, .inr h.2⟩
        rintro (h | ⟨rfl, rfl | h⟩)
        · exact .inl h
        · exact .inl hs
        · exact .inr ⟨rfl, h⟩
      rw [hih.mem_iff, mem_cons]
      constructor
      · exact fun h => h.imp id fun h => ⟨.inr h.1, h.2⟩
      rintro (h | ⟨rfl | h, hq⟩)
      · exact .inl h
      · rw [hs] at hq
        cases hq
      · exact .inr ⟨h, hq⟩
    · rw [if_neg hs]
      rw [Bool.not_eq_true] at hs
      have hih := ih (s := s.setBit p flag) (l := push p l) hr
      refine ⟨fun q g => ?_, fun q => ?_, ?_, fun ht => hih.tracked ht.setBit⟩
      · rw [hih.has_iff, RefScratch.has_setBit_iff, mem_cons]
        tauto
      · have hse : ∀ q, (s.setBit p flag).has q flag = false ↔ q ≠ p ∧ s.has q flag = false := by
          intro q
          rw [← Bool.not_eq_true, RefScratch.has_setBit_iff, ← Bool.not_eq_true]
          tauto
        rw [hih.mem_iff, (hpu p l).mem_iff, hse, mem_cons, mem_cons]
        by_cases hq : q = p
        · simp [hq, hs]
        · simp [hq]
      · rw [hih.budget, (hpu p l).length_eq, ← RefScratch.unseen_setBit hp hs, length_cons]
        omega

def CommitPlanError.Exceeds (cg : CommitGraph) (limits : CommitWalkLimits) :
    CommitPlanError → Prop
  | .commitGraphTooLarge commits max =>
    commits = cg.numCommits ∧ max = limits.maxCommitsInGraph ∧ max < commits
  | .heapLimitExceeded entries max => max = limits.maxHeapEntries ∧ max < entries
  | .tooManyParents _ max =>
    max = limits.maxParentsPerCommit ∧ ∃ c, max < (cg.parents c).length
  | .tipNotFound | .topoSortCycle _ => False

variable {ancestor descendant : Nat} {w : RefRangeWalker}

section Searches

variable {cg : CommitGraph} {limits : CommitWalkLimits}

abbrev Ends (cg : CommitGraph) (limits : CommitWalkLimits) {α : Type} (x : Walk α)
    (Q : α → Prop) : Prop :=
  x.Post Q (CommitPlanError.Exceeds cg limits) fun _ => False

theorem ends_collectParents {Q : α → Prop} (h : Ends cg limits (k (cg.parents pos)) Q) :
    Ends cg limits (collectParents cg limits pos >>= k) Q := by
  rw [collectParents, Ends, post_bind, post_bind, Outcome.ensure]
  split
  · exact h
  next hm =>
    exact ⟨rfl, pos, not_le.mp hm⟩

structure AncestorInv (cg : CommitGraph) (ancestor descendant : Nat) (s : RefScratch)
    (stack : List Nat) : Prop where
  tracked : s.Tracked
  root : s.has descendant .seenI = true
  sound : ∀ q, s.has q .seenI = true → cg.Reach descendant q
  onStack : ∀ q ∈ stack, s.has q .seenI = true
  closed : ∀ q, s.has q .seenI = true → q ∈ stack ∨ (q ≠ ancestor ∧
    (cg.generation q < cg.generation ancestor ∨ ∀ p ∈ cg.parents q, s.has p .seenI = true))

/-- With an empty stack, a path to the ancestor would have been followed to its end. -/
theorem AncestorInv.not_reach (h : AncestorInv cg ancestor descendant s [])
    (hd : descendant < cg.numCommits) : ¬ cg.Reach descendant ancestor := by
  intro hr
  have hs : s.has ancestor .seenI = true := by
    refine hr.carries (P := fun q => s.has q .seenI = true) h.root fun x y hx hy hre => ?_
    rcases h.closed x hx with hm | ⟨-, _ | hp⟩
    · exact absurd hm not_mem_nil
    · have hxl : x < cg.numCommits := (h.sound x hx).lt hd
      have hl := hre.generation_le (cg.parents_lt x hxl y hy)
      have hlt := cg.generation_lt x hxl y hy
      omega
    · exact hp y hy
  rcases h.closed ancestor hs with hm | ⟨hn, -⟩
  · exact absurd hm not_mem_nil
  · exact hn rfl

theorem ends_ancestorLoop (hd : descendant < cg.numCommits) (fuel) :
    ∀ {s stack}, AncestorInv cg ancestor descendant s stack →
      stack.length + s.unseen cg.numCommits .seenI ≤ fuel →
      Ends cg limits (ancestorLoop cg limits ancestor fuel s stack)
        fun r => (r.1 = true ↔ cg.Reach descendant ancestor) ∧ r.2.Tracked := by
  induction fuel with
  | zero =>
    intro s stack hinv hf
    cases stack with
    | nil => exact ⟨⟨nofun, fun h => absurd h (hinv.not_reach hd)⟩, hinv.tracked⟩
    | cons cur stack => exact absurd hf (by simp)
  | succ fuel ih =>
    intro s stack hinv hf
    cases stack with
    | nil => exact ⟨⟨nofun, fun h => absurd h (hinv.not_reach hd)⟩, hinv.tracked⟩
    | cons cur stack =>
      have hc := hinv.onStack cur mem_cons_self
      have hl : cur < cg.numCommits := (hinv.sound cur hc).lt hd
      rw [length_cons] at hf
      rw [ancestorLoop]
      by_cases he : cur = ancestor
      · rw [if_pos he]
        exact ⟨⟨fun _ => he ▸ hinv.sound cur hc, fun _ => rfl⟩, hinv.tracked⟩
      rw [if_neg he]
      by_cases hg : cg.generation cur < cg.generation ancestor
      · rw [if_pos hg]
        refine ih ⟨hinv.tracked, hinv.root, hinv.sound,
          fun q hq => hinv.onStack q (mem_cons_of_mem _ hq), fun q hq => ?_⟩ (by omega)
        rcases hinv.closed q hq with hm | hdo
        · rcases mem_cons.mp hm with rfl | hm
          · exact .inr ⟨he, .inl hg⟩
          · exact .inl hm
        · exact .inr hdo
      rw [if_neg hg]
      refine ends_collectParents ?_
      have hs : VisitedParents cg.numCommits .seenI (cg.parents cur) s
          (visitParents .seenI List.cons (cg.parents cur) s stack).1 stack
          (visitParents .seenI List.cons (cg.parents cur) s stack).2 :=
        visitParents_spec (fun p l => Perm.refl (p :: l)) (cg.parents_lt cur hl)
      refine ih ⟨hs.tracked hinv.tracked, (hs.has_iff _ _).mpr (.inl hinv.root),
        fun q hq => ?_, fun q hq => ?_, fun q hq => ?_⟩ ?_
      · rcases (hs.has_iff q _).mp hq with hq | ⟨-, hq⟩
        · exact hinv.sound q hq
        · exact (hinv.sound cur hc).tail hq
      · rw [hs.has_iff]
        rcases (hs.mem_iff q).mp hq with hq | ⟨hq, -⟩
        · exact .inl (hinv.onStack q (mem_cons_of_mem _ hq))
        · exact .inr ⟨rfl, hq⟩
      · by_cases ho : s.has q .seenI = true
        · rcases hinv.closed q ho with hm | ⟨hn, hdo⟩
          · rcases mem_cons.mp hm with rfl | hm
            · exact .inr ⟨he, .inr fun p hp => (hs.has_iff p _).mpr (.inr ⟨rfl, hp⟩)⟩
            · exact .inl ((hs.mem_iff q).mpr (.inl hm))
          · exact .inr ⟨hn, hdo.imp id fun hp p hm =>
              (hs.has_iff p _).mpr (.inl (hp p hm))⟩
        -- a parent seen for the first time is on the stack
        rcases (hs.has_iff q _).mp hq with hq | ⟨-, hq⟩
        · exact absurd hq ho
        · exact .inl ((hs.mem_iff q).mpr (.inr ⟨hq, Bool.not_eq_true _ ▸ ho⟩))
      · have hb := hs.budget
        omega

theorem ends_isAncestor (hd : descendant < cg.numCommits) (hs : s.Tracked) :
    Ends cg limits (isAncestor cg limits ancestor descendant s)
      fun r => (r.1 = true ↔ cg.Reach descendant ancestor) ∧ r.2.Tracked := by
  rw [isAncestor]
  by_cases he : ancestor = descendant
  · rw [if_pos he, he]
    exact ⟨⟨fun _ => Relation.ReflTransGen.refl, fun _ => rfl⟩, hs⟩
  rw [if_neg he]
  by_cases hg : cg.generation ancestor > cg.generation descendant
  · rw [if_pos hg]
    refine ⟨⟨nofun, fun hr => ?_⟩, hs⟩
    exact absurd (hr.generation_le hd) (not_le.mpr hg)
  rw [if_neg hg]
  have hh : ∀ q, (s.clear.setBit descendant .seenI).has q .seenI = true ↔ q = descendant := by
    intro q
    rw [RefScratch.has_setBit_iff, RefScratch.has_clear hs]
    simp
  refine ends_ancestorLoop hd _ ⟨hs.clear.setBit, (hh _).mpr rfl, fun q hq => ?_, fun q hq => ?_,
    fun q hq => ?_⟩ ?_
  · rw [(hh q).mp hq]
    exact Relation.ReflTransGen.refl
  · exact (hh q).mpr (mem_singleton.mp hq)
  · exact .inl (mem_singleton.mpr ((hh q).mp hq))
  have hu := RefScratch.unseen_setBit hd (RefScratch.has_clear hs (q := descendant) (g := .seenI))
  have hl := RefScratch.unseen_le (s := s.clear) (n := cg.numCommits) (f := .seenI)
  rw [length_singleton]
  omega

theorem heapPush_perm (p) (l) : (heapPush cg p l).Perm (p :: l) := by
  have h : (heapPush cg p l).Perm (p :: (l.takeWhile (fun other => heapBefore cg other p) ++
        l.dropWhile fun other => heapBefore cg other p)) := perm_middle
  rwa [takeWhile_append_dropWhile] at h

abbrev HeapSorted (cg : CommitGraph) (heap : List Nat) : Prop :=
  heap.Pairwise fun a b => cg.generation b ≤ cg.generation a

theorem HeapSorted.heapPush (h : HeapSorted cg l) : HeapSorted cg (heapPush cg p l) := by
  have hbe : ∀ x ∈ l.takeWhile (fun other => heapBefore cg other p),
      cg.generation p ≤ cg.generation x := by
    intro x hx
    have hb := mem_takeWhile_imp hx
    have hb := of_decide_eq_true hb
    omega
  have ha : ∀ x ∈ l.dropWhile (fun other => heapBefore cg other p),
      cg.generation x ≤ cg.generation p := by
    intro x hx
    have hs : HeapSorted cg (l.dropWhile fun other => heapBefore cg other p) :=
      h.sublist (dropWhile_sublist _)
    cases hd : l.dropWhile (fun other => heapBefore cg other p) with
    | nil =>
      rw [hd] at hx
      exact absurd hx not_mem_nil
    | cons first rest =>
      have hf : heapBefore cg first p = false := by
        have hh := List.head?_dropWhile_not (fun other => heapBefore cg other p) l
        rw [hd] at hh
        exact hh
      have hl : cg.generation first ≤ cg.generation p := by
        have hn := of_decide_eq_false hf
        omega
      rw [hd] at hx hs
      rcases mem_cons.mp hx with rfl | hx
      · exact hl
      · exact ((pairwise_cons.mp hs).1 x hx).trans hl
  refine pairwise_append.mpr ⟨h.sublist (takeWhile_sublist _),
    pairwise_cons.mpr ⟨ha, h.sublist (dropWhile_sublist _)⟩, ?_⟩
  intro x hx y hy
  rcases mem_cons.mp hy with rfl | hy
  · exact hbe x hx
  · exact (ha y hy).trans (hbe x hx)

theorem HeapSorted.visitParents :
    ∀ {s l}, HeapSorted cg l →
      HeapSorted cg (visitParents flag (Git.heapPush cg) parents s l).2 := by
  induction parents with
  | nil => exact fun h => h
  | cons p parents ih =>
    intro s l h
    rw [Git.visitParents]
    split
    · exact ih h
    · exact ih h.heapPush

def Excluded (cg : CommitGraph) (watermark : Option Nat) (c : Nat) : Prop :=
  ∃ w ∈ watermark, cg.Reach w c

structure Uninteresting (cg : CommitGraph) (watermark : Option Nat) (w : RefRangeWalker) :
    Prop where
  sorted : HeapSorted cg w.heapUninteresting
  root : ∀ p ∈ watermark, w.scratch.has p .seenU = true
  sound : ∀ q, w.scratch.has q .seenU = true → Excluded cg watermark q
  marked : ∀ q, w.scratch.has q .markU = true → Excluded cg watermark q
  onHeap : ∀ q ∈ w.heapUninteresting, w.scratch.has q .seenU = true
  closed : ∀ q, w.scratch.has q .seenU = true → q ∈ w.heapUninteresting ∨
    (w.scratch.has q .markU = true ∧ ∀ p ∈ cg.parents q, w.scratch.has p .seenU = true)
  budget : w.heapUninteresting.length + w.scratch.unseen cg.numCommits .seenU ≤ cg.numCommits

variable {watermark : Option Nat}

/-- Down to the generations left on the heap, the marks are what the watermark reaches. -/
theorem Uninteresting.mark_iff (h : Uninteresting cg watermark w)
    (hw : ∀ p ∈ watermark, p < cg.numCommits)
    (hd : ∀ q ∈ w.heapUninteresting, cg.generation q < target) (hc : target ≤ cg.generation c) :
    w.scratch.has c .markU = true ↔ Excluded cg watermark c := by
  refine ⟨h.marked c, fun he => ?_⟩
  obtain ⟨p, hp, hr⟩ := he
  have hs : ∀ q, w.scratch.has q .seenU = true → target ≤ cg.generation q →
      w.scratch.has q .markU = true ∧ ∀ p ∈ cg.parents q, w.scratch.has p .seenU = true := by
    intro q hq hl
    rcases h.closed q hq with hme | hm
    · exact absurd (hd q hme) (not_lt.mpr hl)
    · exact hm
  -- every commit on the way has a generation of at least that of `c`
  have hca : w.scratch.has c .seenU = true ∧ cg.Reach p c := by
    refine hr.carries (P := fun q => w.scratch.has q .seenU = true ∧ cg.Reach p q)
      ⟨h.root p hp, Relation.ReflTransGen.refl⟩ fun x y hx hy hre => ?_
    have hxl : x < cg.numCommits := hx.2.lt (hw p hp)
    have hl := hre.generation_le (cg.parents_lt x hxl y hy)
    have hlt := cg.generation_lt x hxl y hy
    exact ⟨(hs x hx.1 (by omega)).2 y hy, hx.2.tail hy⟩
  exact (hs c hca.1 hc).1

/-- What an advance of the uninteresting frontier leaves alone. -/
structure SameInterest (w w' : RefRangeWalker) : Prop where
  heap : w'.heapInteresting = w.heapInteresting
  seen : ∀ q, w'.scratch.has q .seenI = true ↔ w.scratch.has q .seenI = true
  tracked : w.scratch.Tracked → w'.scratch.Tracked

theorem SameInterest.trans (h1 : SameInterest a b) (h2 : SameInterest b c) : SameInterest a c where
  heap := h2.heap.trans h1.heap
  seen q := (h2.seen q).trans (h1.seen q)
  tracked h := h2.tracked (h1.tracked h)

theorem ends_checkHeap {Q : α → Prop} (h : Ends cg limits (k ()) Q) :
    Ends cg limits (checkHeap limits w >>= k) Q := by
  rw [checkHeap, Ends, post_bind, Outcome.ensure]
  split
  · exact h
  next hl =>
    exact ⟨rfl, not_le.mp hl⟩

theorem Uninteresting.step (h : Uninteresting cg watermark w)
    (hw : ∀ p ∈ watermark, p < cg.numCommits) (hh : w.heapUninteresting = pos :: rest)
    (hv : visitParents .seenU (heapPush cg) (cg.parents pos)
      (w.scratch.setBit pos .markU) rest = visited) : Uninteresting cg watermark
        { w with heapUninteresting := visited.2, scratch := visited.1 } ∧
      SameInterest w { w with heapUninteresting := visited.2, scratch := visited.1 } ∧
      visited.2.length + visited.1.unseen cg.numCommits .seenU + 1 =
        w.heapUninteresting.length + w.scratch.unseen cg.numCommits .seenU := by
  have hpo : w.scratch.has pos .seenU = true := h.onHeap pos (hh ▸ mem_cons_self)
  have hr : Excluded cg watermark pos := h.sound pos hpo
  obtain ⟨p0, hp0, hr0⟩ := hr
  have hl : pos < cg.numCommits := hr0.lt (hw p0 hp0)
  have hs : VisitedParents cg.numCommits .seenU (cg.parents pos)
      (w.scratch.setBit pos .markU) visited.1 rest visited.2 := by
    rw [← hv]
    exact visitParents_spec heapPush_perm (cg.parents_lt pos hl)
  have hso : HeapSorted cg visited.2 := by
    rw [← hv]
    refine HeapSorted.visitParents ?_
    have hc := h.sorted
    rw [hh] at hc
    exact (pairwise_cons.mp hc).2
  -- the flags after the step, in terms of those before it
  have hU : ∀ q, visited.1.has q .seenU = true ↔
      w.scratch.has q .seenU = true ∨ q ∈ cg.parents pos := by
    intro q
    rw [hs.has_iff, RefScratch.has_setBit_iff]
    simp
  have hM : ∀ q, visited.1.has q .markU = true ↔ q = pos ∨ w.scratch.has q .markU = true := by
    intro q
    rw [hs.has_iff, RefScratch.has_setBit_iff]
    simp
  have hI : ∀ q, visited.1.has q .seenI = true ↔ w.scratch.has q .seenI = true := by
    intro q
    rw [hs.has_iff, RefScratch.has_setBit_iff]
    simp
  have hme : ∀ q, q ∈ visited.2 ↔
      q ∈ rest ∨ (q ∈ cg.parents pos ∧ ¬ w.scratch.has q .seenU = true) := by
    intro q
    rw [hs.mem_iff, ← Bool.not_eq_true, RefScratch.has_setBit_iff]
    simp
  have hb : visited.2.length + visited.1.unseen cg.numCommits .seenU + 1 =
      w.heapUninteresting.length + w.scratch.unseen cg.numCommits .seenU := by
    have hsa : (w.scratch.setBit pos .markU).unseen cg.numCommits .seenU =
        w.scratch.unseen cg.numCommits .seenU :=
      RefScratch.unseen_congr fun q => by rw [RefScratch.has_setBit_iff]; simp
    rw [hs.budget, hsa, hh, length_cons]
    omega
  refine ⟨⟨hso, fun p hp => (hU p).mpr (.inl (h.root p hp)), fun q hq => ?_, fun q hq => ?_,
    fun q hq => ?_, fun q hq => ?_, ?_⟩,
    ⟨rfl, hI, fun ht => hs.tracked ht.setBit⟩, hb⟩
  · rcases (hU q).mp hq with hq | hq
    · exact h.sound q hq
    · exact ⟨p0, hp0, hr0.tail hq⟩
  · rcases (hM q).mp hq with rfl | hq
    · exact ⟨p0, hp0, hr0⟩
    · exact h.marked q hq
  · rcases (hme q).mp hq with hq | ⟨hq, -⟩
    · exact (hU q).mpr (.inl (h.onHeap q (hh ▸ mem_cons_of_mem _ hq)))
    · exact (hU q).mpr (.inr hq)
  · by_cases ho : w.scratch.has q .seenU = true
    · rcases h.closed q ho with hq' | ⟨hm, hpa⟩
      · rw [hh] at hq'
        rcases mem_cons.mp hq' with rfl | hq'
        · exact .inr ⟨(hM q).mpr (.inl rfl), fun p hp => (hU p).mpr (.inr hp)⟩
        · exact .inl ((hme q).mpr (.inl hq'))
      · exact .inr ⟨(hM q).mpr (.inr hm), fun p hp => (hU p).mpr (.inl (hpa p hp))⟩
    · exact .inl ((hme q).mpr (.inr ⟨((hU q).mp hq).resolve_left ho, ho⟩))
  dsimp only
  have := h.budget
  omega

theorem ends_advance (hw : ∀ p ∈ watermark, p < cg.numCommits) (target fuel : Nat) :
    ∀ {w}, Uninteresting cg watermark w →
      w.heapUninteresting.length + w.scratch.unseen cg.numCommits .seenU ≤ fuel →
      Ends cg limits (advanceUninteresting cg limits target fuel w)
        fun w' => Uninteresting cg watermark w' ∧ SameInterest w w' ∧
          ∀ q ∈ w'.heapUninteresting, cg.generation q < target := by
  have hsa : ∀ w : RefRangeWalker, SameInterest w w := fun w => ⟨rfl, fun _ => Iff.rfl, id⟩
  induction fuel with
  | zero =>
    intro w h hf
    have hni : w.heapUninteresting = [] := length_eq_zero_iff.mp (by omega)
    rw [advanceUninteresting, hni]
    refine ⟨h, hsa w, fun q hq => ?_⟩
    rw [hni] at hq
    exact absurd hq not_mem_nil
  | succ fuel ih =>
    intro w h hf
    cases hh : w.heapUninteresting with
    | nil =>
      rw [advanceUninteresting, hh]
      refine ⟨h, hsa w, fun q hq => ?_⟩
      rw [hh] at hq
      exact absurd hq not_mem_nil
    | cons pos rest =>
      rw [advanceUninteresting, hh]
      dsimp only
      by_cases hg : cg.generation pos < target
      · rw [if_pos hg]
        refine ⟨h, hsa w, fun q hq => ?_⟩
        have hs := h.sorted
        rw [hh] at hq hs
        rcases mem_cons.mp hq with rfl | hq
        · exact hg
        · exact ((pairwise_cons.mp hs).1 q hq).trans_lt hg
      rw [if_neg hg]
      refine ends_collectParents (ends_checkHeap ?_)
      obtain ⟨hn, hin, _⟩ := h.step hw hh rfl
      refine Outcome.Post.mono (ih hn (by dsimp only; omega)) (fun w' _ hw' => ?_)
        (fun _ _ he => he) (fun _ _ hp => hp)
      exact ⟨hw'.1, hin.trans hw'.2.1, hw'.2.2⟩

def InRange (cg : CommitGraph) (tip : Nat) (watermark : Option Nat) (c : Nat) : Prop :=
  cg.Reach tip c ∧ ¬ Excluded cg watermark c

/-- What the walk from the tip keeps; `start` was emitted for earlier refs. -/
structure Interesting (cg : CommitGraph) (tip : Nat) (watermark : Option Nat) (start : Emitted)
    (w : RefRangeWalker) (emitted : Emitted) : Prop where
  tracked : w.scratch.Tracked
  root : w.scratch.has tip .seenI = true
  sound : ∀ q, w.scratch.has q .seenI = true → cg.Reach tip q
  onHeap : ∀ q ∈ w.heapInteresting, w.scratch.has q .seenI = true
  closed : ∀ q, w.scratch.has q .seenI = true → q ∈ w.heapInteresting ∨
    Excluded cg watermark q ∨
      (q ∈ emitted ∧ ∀ p ∈ cg.parents q, w.scratch.has p .seenI = true)
  kept : ∀ c ∈ start, c ∈ emitted
  grown : ∀ c ∈ emitted, c ∈ start ∨ InRange cg tip watermark c
  nodup : emitted.Nodup

variable {tip : Nat} {start emitted : Emitted}

section

variable (h : Interesting cg tip watermark start w emitted)

include h

theorem Interesting.complete (hh : w.heapInteresting = []) (hc : InRange cg tip watermark c) :
    c ∈ emitted := by
  have hd : ∀ q, w.scratch.has q .seenI = true → cg.Reach q c →
      q ∈ emitted ∧ ∀ p ∈ cg.parents q, w.scratch.has p .seenI = true := by
    intro q hq hr
    rcases h.closed q hq with hm | ⟨p, hp, hre⟩ | hd
    · rw [hh] at hm
      exact absurd hm not_mem_nil
    · -- the watermark would reach `c` through `q`
      exact absurd ⟨p, hp, hre.trans hr⟩ hc.2
    · exact hd
  have hs : w.scratch.has c .seenI = true := by
    refine hc.1.carries (P := fun q => w.scratch.has q .seenI = true) h.root fun x y hx hy hr => ?_
    exact (hd x hx (Relation.ReflTransGen.head hy hr)).2 y hy
  exact (hd c hs Relation.ReflTransGen.refl).1

theorem Interesting.of_same (hs : SameInterest w w') :
    Interesting cg tip watermark start w' emitted where
  tracked := hs.tracked h.tracked
  root := (hs.seen _).mpr h.root
  sound q hq := h.sound q ((hs.seen q).mp hq)
  onHeap q hq := (hs.seen q).mpr (h.onHeap q (hs.heap ▸ hq))
  closed q hq := by
    rw [hs.heap]
    refine (h.closed q ((hs.seen q).mp hq)).imp id fun h => h.imp id fun h => ⟨h.1, ?_⟩
    exact fun p hp => (hs.seen p).mpr (h.2 p hp)
  kept := h.kept
  grown := h.grown
  nodup := h.nodup

theorem Interesting.drop (hh : w.heapInteresting = pos :: rest)
    (hp : Excluded cg watermark pos) :
    Interesting cg tip watermark start { w with heapInteresting := rest } emitted where
  tracked := h.tracked
  root := h.root
  sound := h.sound
  onHeap q hq := h.onHeap q (hh ▸ mem_cons_of_mem _ hq)
  closed q hq := by
    rcases h.closed q hq with hm | hd
    · rw [hh] at hm
      rcases mem_cons.mp hm with rfl | hm
      · exact .inr (.inl hp)
      · exact .inl hm
    · exact .inr hd
  kept := h.kept
  grown := h.grown
  nodup := h.nodup

end

theorem Interesting.emit (ht : tip < cg.numCommits)
    (h : Interesting cg tip watermark start w emitted) (hh : w.heapInteresting = pos :: rest)
    (hpo : ¬ Excluded cg watermark pos)
    (hv : visitParents .seenI (heapPush cg) (cg.parents pos) w.scratch rest = visited) :
    Interesting cg tip watermark start { w with heapInteresting := visited.2, scratch := visited.1 }
        (if pos ∈ emitted then emitted else pos :: emitted) ∧
      (∀ q f, f ≠ .seenI → (visited.1.has q f = true ↔ w.scratch.has q f = true)) ∧
      visited.2.length + visited.1.unseen cg.numCommits .seenI + 1 =
        w.heapInteresting.length + w.scratch.unseen cg.numCommits .seenI := by
  have hse : w.scratch.has pos .seenI = true := h.onHeap pos (hh ▸ mem_cons_self)
  have hr : cg.Reach tip pos := h.sound pos hse
  have hs : VisitedParents cg.numCommits .seenI (cg.parents pos) w.scratch visited.1 rest
      visited.2 := by
    rw [← hv]
    exact visitParents_spec heapPush_perm (cg.parents_lt pos (hr.lt ht))
  have hI : ∀ q, visited.1.has q .seenI = true ↔
      w.scratch.has q .seenI = true ∨ q ∈ cg.parents pos := by
    intro q
    rw [hs.has_iff]
    simp
  have he : ∀ c, c ∈ (if pos ∈ emitted then emitted else pos :: emitted) ↔
      c = pos ∨ c ∈ emitted := by
    intro c
    split
    next hm =>
      exact ⟨.inr, fun hc => hc.elim (fun heq => heq ▸ hm) id⟩
    · exact mem_cons
  refine ⟨⟨hs.tracked h.tracked, (hI _).mpr (.inl h.root), fun q hq => ?_, fun q hq => ?_,
    fun q hq => ?_, fun c hc => (he c).mpr (.inr (h.kept c hc)), fun c hc => ?_, ?_⟩,
    fun q f hf => ?_, ?_⟩
  · exact ((hI q).mp hq).elim (h.sound q) fun hq => hr.tail hq
  · rcases (hs.mem_iff q).mp hq with hq | ⟨hq, -⟩
    · exact (hI q).mpr (.inl (h.onHeap q (hh ▸ mem_cons_of_mem _ hq)))
    · exact (hI q).mpr (.inr hq)
  · by_cases ho : w.scratch.has q .seenI = true
    · rcases h.closed q ho with hq' | hq' | ⟨hm, hpa⟩
      · rw [hh] at hq'
        rcases mem_cons.mp hq' with rfl | hq'
        · exact .inr (.inr ⟨(he q).mpr (.inl rfl), fun p hp => (hI p).mpr (.inr hp)⟩)
        · exact .inl ((hs.mem_iff q).mpr (.inl hq'))
      · exact .inr (.inl hq')
      · exact .inr (.inr ⟨(he q).mpr (.inr hm), fun p hp =>
          (hI p).mpr (.inl (hpa p hp))⟩)
    · exact .inl ((hs.mem_iff q).mpr (.inr ⟨((hI q).mp hq).resolve_left ho,
        Bool.not_eq_true _ ▸ ho⟩))
  · rcases (he c).mp hc with rfl | hc
    · exact .inr ⟨hr, hpo⟩
    · exact h.grown c hc
  · split
    · exact h.nodup
    next hn =>
      exact nodup_cons.mpr ⟨hn, h.nodup⟩
  · rw [hs.has_iff]
    exact or_iff_left fun hq => hf hq.1
  · rw [hs.budget, hh, length_cons]
    omega

theorem Uninteresting.of_same (h : Uninteresting cg watermark w)
    (hh : w'.heapUninteresting = w.heapUninteresting)
    (hha : ∀ q f, f ≠ .seenI → (w'.scratch.has q f = true ↔ w.scratch.has q f = true)) :
    Uninteresting cg watermark w' := by
  have hU := fun q => hha q .seenU nofun
  have hM := fun q => hha q .markU nofun
  refine ⟨hh ▸ h.sorted, fun p hp => (hU p).mpr (h.root p hp),
    fun q hq => h.sound q ((hU q).mp hq), fun q hq => h.marked q ((hM q).mp hq),
    fun q hq => (hU q).mpr (h.onHeap q (hh ▸ hq)), fun q hq => ?_, ?_⟩
  · rw [hh]
    refine (h.closed q ((hU q).mp hq)).imp id fun h => ⟨(hM q).mpr h.1, ?_⟩
    exact fun p hp => (hU p).mpr (h.2 p hp)
  · rw [hh, RefScratch.unseen_congr hU]
    exact h.budget

theorem ends_walkRef (ht : tip < cg.numCommits) (hw : ∀ p ∈ watermark, p < cg.numCommits)
    (fuel) :
    ∀ {w emitted}, Uninteresting cg watermark w → Interesting cg tip watermark start w emitted →
      w.heapInteresting.length + w.scratch.unseen cg.numCommits .seenI ≤ fuel →
      Ends cg limits (walkRef cg limits fuel w emitted) fun r => r.1.scratch.Tracked ∧ r.2.Nodup ∧
          ∀ c, c ∈ r.2 ↔ c ∈ start ∨ InRange cg tip watermark c := by
  have hd : ∀ {w : RefRangeWalker} {emitted : Emitted},
      Interesting cg tip watermark start w emitted → w.heapInteresting = [] →
      w.scratch.Tracked ∧ emitted.Nodup ∧
        ∀ c, c ∈ emitted ↔ c ∈ start ∨ InRange cg tip watermark c := by
    intro w emitted h hni
    exact ⟨h.tracked, h.nodup, fun c => ⟨h.grown c, fun hc => hc.elim (h.kept c) (h.complete hni)⟩⟩
  induction fuel with
  | zero =>
    intro w emitted hU hI hf
    have hni : w.heapInteresting = [] := length_eq_zero_iff.mp (by omega)
    rw [walkRef, hni]
    exact hd hI hni
  | succ fuel ih =>
    intro w emitted hU hI hf
    cases hh : w.heapInteresting with
    | nil =>
      rw [walkRef, hh]
      exact hd hI hh
    | cons pos rest =>
      rw [walkRef, hh]
      rw [Ends, post_bind]
      refine Outcome.Post.mono (ends_advance hw (cg.generation pos) cg.numCommits hU hU.budget)
        (fun w' _ hw' => ?_) (fun _ _ he => he) (fun _ _ hp => hp)
      obtain ⟨hU', hs, hg⟩ := hw'
      have hI' := hI.of_same hs
      have hh' : w'.heapInteresting = pos :: rest := hs.heap.trans hh
      have hu := RefScratch.unseen_congr (n := cg.numCommits) hs.seen
      have hm := hU'.mark_iff hw hg le_rfl
      rw [hh, length_cons] at hf
      by_cases hex : w'.scratch.has pos .markU = true
      · rw [if_pos hex]
        refine ih (hU'.of_same rfl fun _ _ _ => Iff.rfl) (hI'.drop hh' (hm.mp hex)) ?_
        dsimp only
        omega
      rw [if_neg hex]
      refine ends_collectParents (ends_checkHeap ?_)
      obtain ⟨hn, ho, hb⟩ :=
        hI'.emit ht hh' (fun h => hex (hm.mpr h)) rfl
      refine ih (hU'.of_same rfl ho) hn ?_
      rw [hh', length_cons] at hb
      dsimp only
      omega

end Searches

end GossipRs.Git
