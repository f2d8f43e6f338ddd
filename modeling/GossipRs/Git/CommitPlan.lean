import GossipRs.Git.TopoOrder

/-! The commit plan of a start set: what the refs introduce, once each, parents first. -/

namespace GossipRs.Git

open Lib Outcome List
open Relation.ReflTransGen (refl)
open Outcome.Post (mono)

variable {watermark : Option Nat} {tip : Nat} {refs : List StartSetRef} {r : StartSetRef}
  {s : RefScratch}

section Plan

variable {cg : CommitGraph} {limits : CommitWalkLimits}

/-- The watermark of `r` bounds the walk from `tip`: it is in the graph with its stored generation
and an ancestor of the tip. -/
def BoundedBy (cg : CommitGraph) (r : StartSetRef) (tip wm : Nat) : Prop :=
  ∃ watermark ∈ r.watermark, resolveWatermark cg watermark = some wm ∧ cg.Reach tip wm

/-- A ref without a watermark is left out if its tip is an ancestor of one of the first valid
watermarks. -/
def LeftOut (cg : CommitGraph) (limits : CommitWalkLimits) (refs : List StartSetRef)
    (r : StartSetRef) (tip : Nat) : Prop :=
  r.watermark = none ∧
    ∃ watermark ∈ (refs.filterMap StartSetRef.watermark).take limits.maxNewRefSkipChecks,
      ∃ pos, resolveWatermark cg watermark = some pos ∧ cg.Reach pos tip

def Introduces (cg : CommitGraph) (limits : CommitWalkLimits) (refs : List StartSetRef)
    (r : StartSetRef) (c : Nat) : Prop :=
  ∃ tip, cg.lookup r.tip = some tip ∧ ¬ LeftOut cg limits refs r tip ∧ cg.Reach tip c ∧
    ∀ wm, BoundedBy cg r tip wm → ¬ cg.Reach wm c

theorem resolveWatermark_lt {watermark} (h : resolveWatermark cg watermark = some pos) :
    pos < cg.numCommits :=
  cg.lookup_lt _ pos (Option.filter_eq_some_iff.mp h).1

theorem ends_skipCheck :
    ∀ {checks s}, s.Tracked → Ends cg limits (skipCheck cg limits tip checks watermarks s)
        fun r => (r.1 = true ↔ ∃ watermark ∈ watermarks.take checks, ∃ pos,
          resolveWatermark cg watermark = some pos ∧ cg.Reach pos tip) ∧ r.2.Tracked := by
  induction watermarks with
  | nil =>
    intro checks s hs
    rw [skipCheck]
    exact ⟨by simp, hs⟩
  | cons watermark watermarks ih =>
    intro checks s hs
    cases checks with
    | zero =>
      rw [skipCheck]
      exact ⟨by simp, hs⟩
    | succ checks =>
      rw [skipCheck, take_succ_cons]
      cases hre : resolveWatermark cg watermark with
      | none =>
        refine mono (ih hs) (fun r _ hr => ⟨hr.1.trans ?_, hr.2⟩) (fun _ _ he => he)
          (fun _ _ hp => hp)
        simp [hre]
      | some pos =>
        rw [Ends, post_bind]
        refine mono (ends_isAncestor (resolveWatermark_lt hre) hs)
          (fun r _ hr => ?_) (fun _ _ he => he) (fun _ _ hp => hp)
        by_cases hf : r.1 = true
        · rw [if_pos hf]
          refine ⟨⟨fun _ => ?_, fun _ => hf⟩, hr.2⟩
          exact ⟨watermark, mem_cons_self, pos, hre, hr.1.mp hf⟩
        rw [if_neg hf]
        refine mono (ih hr.2) (fun r' _ hr' => ⟨hr'.1.trans ?_, hr'.2⟩)
          (fun _ _ he => he) (fun _ _ hp => hp)
        have hn : ¬ cg.Reach pos tip := fun h => hf (hr.1.mpr h)
        simp [hre, hn]

theorem ends_skipRef (hs : s.Tracked) : Ends cg limits (skipRef cg limits refs r tip s)
      fun skip => (skip.1 = true ↔ LeftOut cg limits refs r tip) ∧ skip.2.Tracked := by
  rw [skipRef]
  by_cases hw : r.watermark = none
  · rw [if_pos hw]
    refine mono (ends_skipCheck hs) (fun skip _ h => ⟨h.1.trans ?_, h.2⟩)
      (fun _ _ he => he) (fun _ _ hp => hp)
    exact ⟨fun h => ⟨hw, h⟩, And.right⟩
  · rw [if_neg hw]
    exact ⟨⟨nofun, fun h => absurd h.1 hw⟩, hs⟩

theorem ends_boundingWatermark (hti : tip < cg.numCommits) (hs : s.Tracked) :
    Ends cg limits (boundingWatermark cg limits tip s r.watermark)
      fun b => (∀ wm, wm ∈ b.1 ↔ BoundedBy cg r tip wm) ∧ b.2.Tracked := by
  cases hw : r.watermark with
  | none =>
    refine ⟨fun wm => ?_, hs⟩
    simp [BoundedBy, hw]
  | some watermark =>
    rw [boundingWatermark]
    cases hre : resolveWatermark cg watermark with
    | none =>
      refine ⟨fun wm => ?_, hs⟩
      simp [BoundedBy, hw, hre]
    | some pos =>
      rw [Ends, post_bind]
      refine mono (ends_isAncestor hti hs) (fun r' _ hr => ?_) (fun _ _ he => he) (fun _ _ hp => hp)
      refine ⟨fun wm => ?_, hr.2⟩
      have hb : BoundedBy cg r tip wm ↔ wm = pos ∧ cg.Reach tip pos := by
        simp only [BoundedBy, hw, Option.mem_def, Option.some.injEq, exists_eq_left', hre]
        constructor
        · intro h
          exact ⟨h.1.symm, h.1 ▸ h.2⟩
        · intro h
          exact ⟨h.1.symm, h.1.symm ▸ h.2⟩
      rw [hb, ← hr.1]
      split
      next ht =>
        simp [ht, eq_comm]
      next hf =>
        simp [hf]

theorem has_seedWalker (hs : s.Tracked) (q) :
    ((seedWalker tip watermark s).scratch.has q .seenI = true ↔ q = tip) ∧
      ((seedWalker tip watermark s).scratch.has q .seenU = true ↔ q ∈ watermark) ∧
      ((seedWalker tip watermark s).scratch.has q .markU = true ↔ q ∈ watermark) := by
  cases watermark with
  | none => simp [seedWalker, RefScratch.has_setBit_iff, RefScratch.has_clear hs]
  | some wm =>
    have hm : q ∈ some wm ↔ q = wm := Option.mem_some_iff.trans eq_comm
    rw [hm]
    simp [seedWalker, RefScratch.has_setBit_iff, RefScratch.has_clear hs]

theorem seedWalker_heaps (tip) (watermark) (s) :
    (seedWalker tip watermark s).heapInteresting = [tip] ∧
      (seedWalker tip watermark s).heapUninteresting = watermark.toList := by
  cases watermark <;> exact ⟨rfl, rfl⟩

theorem tracked_seedWalker (hs : s.Tracked) : (seedWalker tip watermark s).scratch.Tracked := by
  cases watermark with
  | none => exact hs.clear.setBit
  | some wm => exact hs.clear.setBit.setBit.setBit

theorem unseen_lt (hp : p < n) (h : s.has p f = true) : s.unseen n f + 1 ≤ n := by
  have hl : (List.range n).countP (fun q => !s.has q f) < (List.range n).length := by
    refine countP_lt_length_iff.mpr ⟨p, mem_range.mpr hp, ?_⟩
    simp [h]
  rw [length_range] at hl
  exact hl

theorem uninteresting_seedWalker (hw : ∀ p ∈ watermark, p < cg.numCommits) (hs : s.Tracked) :
    Uninteresting cg watermark (seedWalker tip watermark s) := by
  have hha : ∀ q, ((seedWalker tip watermark s).scratch.has q .seenU = true ↔ q ∈ watermark) ∧
      ((seedWalker tip watermark s).scratch.has q .markU = true ↔ q ∈ watermark) :=
    fun q => (has_seedWalker hs q).2
  have hh := (seedWalker_heaps tip watermark s).2
  refine ⟨?_, fun p hp => (hha p).1.mpr hp, fun q hq => ?_, fun q hq => ?_, fun q hq => ?_,
    fun q hq => .inl ?_, ?_⟩
  · rw [hh]
    cases watermark with
    | none => exact List.Pairwise.nil
    | some wm => exact pairwise_singleton _ _
  · exact ⟨q, (hha q).1.mp hq, refl⟩
  · exact ⟨q, (hha q).2.mp hq, refl⟩
  · rw [hh, Option.mem_toList] at hq
    exact (hha q).1.mpr hq
  · rw [hh, Option.mem_toList]
    exact (hha q).1.mp hq
  rw [hh]
  cases watermark with
  | none => exact (Nat.zero_add _).trans_le RefScratch.unseen_le
  | some wm =>
    have hl := unseen_lt (hw wm rfl) ((hha wm).1.mpr rfl)
    rw [Option.toList_some, length_singleton]
    omega

theorem interesting_seedWalker (hs : s.Tracked) (hn : emitted.Nodup) :
    Interesting cg tip watermark emitted (seedWalker tip watermark s) emitted := by
  have hha : ∀ q, (seedWalker tip watermark s).scratch.has q .seenI = true ↔ q = tip :=
    fun q => (has_seedWalker hs q).1
  have hh := (seedWalker_heaps tip watermark s).1
  refine ⟨tracked_seedWalker hs, (hha tip).mpr rfl, fun q hq => ?_, fun q hq => ?_,
    fun q hq => .inl ?_, fun _ hc => hc, fun _ hc => .inl hc, hn⟩
  · rw [(hha q).mp hq]
    exact refl
  · rw [hh] at hq
    exact (hha q).mpr (mem_singleton.mp hq)
  · rw [hh]
    exact mem_singleton.mpr ((hha q).mp hq)

abbrev Plans (cg : CommitGraph) (limits : CommitWalkLimits) (refs : List StartSetRef) {α : Type}
    (x : Walk α) (Q : α → Prop) : Prop :=
  x.Post Q
    (fun e => e.Exceeds cg limits ∨ e = .tipNotFound ∧ ∃ r ∈ refs, cg.lookup r.tip = none)
    fun _ => False

theorem Ends.plans {P : α → Prop} {Q : β → Prop} (h : Ends cg limits x P)
    (hk : ∀ a, P a → Plans cg limits refs (k a) Q) : Plans cg limits refs (x >>= k) Q := by
  rw [Plans, post_bind]
  exact mono h (fun a _ ha => hk a ha) (fun _ _ he => .inl he) (fun _ _ hp => hp)

theorem plans_planRef (hr : r ∈ refs) (hs : s.Tracked) (hn : emitted.Nodup) :
    Plans cg limits refs (planRef cg limits refs r s emitted)
      fun next => next.1.Tracked ∧ next.2.Nodup ∧
        ∀ c, c ∈ next.2 ↔ c ∈ emitted ∨ Introduces cg limits refs r c := by
  rw [planRef, Plans, post_bind]
  cases hlo : cg.lookup r.tip with
  | none => exact .inr ⟨rfl, r, hr, hlo⟩
  | some tip =>
    have ht := cg.lookup_lt r.tip tip hlo
    have hin : ∀ c, Introduces cg limits refs r c ↔ ¬ LeftOut cg limits refs r tip ∧
        cg.Reach tip c ∧ ∀ wm, BoundedBy cg r tip wm → ¬ cg.Reach wm c := by
      intro c
      constructor
      · intro h
        obtain ⟨_, ht', hres⟩ := h
        cases hlo.symm.trans ht'
        exact hres
      · exact fun h => ⟨tip, hlo, h⟩
    refine (ends_skipRef hs.clear).plans fun skip hsk => ?_
    by_cases hle : skip.1 = true
    · rw [if_pos hle]
      refine ⟨hsk.2, hn, fun c => ?_⟩
      rw [hin]
      exact ⟨.inl, fun h => h.elim id fun h => absurd (hsk.1.mp hle) h.1⟩
    rw [if_neg hle]
    refine (ends_boundingWatermark ht hsk.2).plans fun bound hbo => ?_
    have hwm : ∀ p ∈ bound.1, p < cg.numCommits := fun p hp =>
      (((hbo.1 p).mp hp).choose_spec.2.2).lt ht
    have hI : Interesting cg tip bound.1 emitted (seedWalker tip bound.1 bound.2) emitted :=
      interesting_seedWalker hbo.2 hn
    have hf : (seedWalker tip bound.1 bound.2).heapInteresting.length +
        (seedWalker tip bound.1 bound.2).scratch.unseen cg.numCommits .seenI ≤ cg.numCommits := by
      have hlt := unseen_lt ht hI.root
      rw [(seedWalker_heaps tip bound.1 bound.2).1, length_singleton]
      omega
    refine (ends_walkRef ht hwm _ (uninteresting_seedWalker hwm hbo.2) hI hf).plans
      fun walked hw => ?_
    refine ⟨hw.1, hw.2.1, fun c => (hw.2.2 c).trans (or_congr_right ?_)⟩
    rw [hin]
    constructor
    · intro h
      exact ⟨fun hl => hle (hsk.1.mpr hl), h.1, fun wm hb hre =>
        h.2 ⟨wm, (hbo.1 wm).mpr hb, hre⟩⟩
    intro h
    refine ⟨h.2.1, fun he => ?_⟩
    obtain ⟨wm, hm, hre⟩ := he
    exact h.2.2 wm ((hbo.1 wm).mp hm) hre

theorem plans_planRefs :
    ∀ {s emitted}, (∀ r ∈ todo, r ∈ refs) → s.Tracked → emitted.Nodup →
      Plans cg limits refs (planRefs cg limits refs todo s emitted) fun emitted' => emitted'.Nodup ∧
          ∀ c, c ∈ emitted' ↔ c ∈ emitted ∨ ∃ r ∈ todo, Introduces cg limits refs r c := by
  induction todo with
  | nil => exact fun _ _ hn => ⟨hn, by simp⟩
  | cons r todo ih =>
    intro s emitted ht hs hn
    rw [planRefs, Plans, post_bind]
    refine mono (plans_planRef (ht r mem_cons_self) hs hn)
      (fun next _ hne => ?_) (fun _ _ he => he) (fun _ _ hp => hp)
    refine mono (ih (fun r' hr' => ht r' (mem_cons_of_mem _ hr')) hne.1
      hne.2.1) (fun emitted' _ h => ⟨h.1, fun c => ?_⟩) (fun _ _ he => he) (fun _ _ hp => hp)
    rw [h.2, hne.2.2, exists_mem_cons_iff, or_assoc]

structure PlanExact (cg : CommitGraph) (limits : CommitWalkLimits) (refs : List StartSetRef)
    (plan : List Nat) : Prop where
  nodup : plan.Nodup
  mem_iff : ∀ c, c ∈ plan ↔ ∃ r ∈ refs, Introduces cg limits refs r c
  parentsFirst : ParentsFirst cg plan
  unscanned : ∀ c, (∃ r ∈ refs, ∃ tip, cg.lookup r.tip = some tip ∧ cg.Reach tip c) →
    (∀ r ∈ refs, ∀ watermark ∈ r.watermark, ∀ wm, cg.lookup watermark.oid = some wm →
      ¬ cg.Reach wm c) → c ∈ plan

theorem introduces_of_unreached (hr : r ∈ refs) (ht : cg.lookup r.tip = some tip)
    (hrea : cg.Reach tip c)
    (hn : ∀ r ∈ refs, ∀ watermark ∈ r.watermark, ∀ wm, cg.lookup watermark.oid = some wm →
      ¬ cg.Reach wm c) : Introduces cg limits refs r c := by
  have hl : ∀ {watermark : RefWatermark} {pos : Nat},
      resolveWatermark cg watermark = some pos → cg.lookup watermark.oid = some pos :=
    fun h => (Option.filter_eq_some_iff.mp h).1
  refine ⟨tip, ht, fun hle => ?_, hrea, fun wm hb => ?_⟩
  · obtain ⟨-, watermark, hm, pos, hre, hp⟩ := hle
    obtain ⟨other, ho, hw⟩ := mem_filterMap.mp (mem_of_mem_take hm)
    exact hn other ho watermark hw pos (hl hre) (hp.trans hrea)
  · obtain ⟨watermark, hw, hre, -⟩ := hb
    exact hn r hr watermark hw wm (hl hre)

/-- `introduced_by_plan` returns the exact plan, unless a limit is exceeded or a tip is not in the
graph. -/
theorem introducedByPlan_exact (cg : CommitGraph) (limits : CommitWalkLimits)
    (refs : List StartSetRef) :
    Plans cg limits refs (introducedByPlan cg limits refs) (PlanExact cg limits refs) := by
  rw [introducedByPlan, Plans, post_bind, Outcome.ensure]
  split
  case isFalse hlarge => exact .inl ⟨rfl, rfl, not_le.mp hlarge⟩
  rw [post_ok, post_bind]
  refine Outcome.Post.mono (plans_planRefs (fun _ hr => hr) RefScratch.tracked_new nodup_nil)
    (fun emitted _ hemitted => ?_) (fun _ _ he => he) (fun _ _ hp => hp)
  have hmem : ∀ c, c ∈ emitted.reverse ↔ ∃ r ∈ refs, Introduces cg limits refs r c := by
    intro c
    rw [mem_reverse, hemitted.2]
    simp
  have hlt : ∀ c ∈ emitted.reverse, c < cg.numCommits := by
    intro c hc
    obtain ⟨r, -, tip, htip, -, hreach, -⟩ := (hmem c).mp hc
    exact hreach.lt (cg.lookup_lt r.tip tip htip)
  refine Outcome.Post.mono (ends_topoOrderPositions hlt) (fun plan _ hplan => ?_)
    (fun _ _ he => .inl he) (fun _ _ hp => hp)
  have hplanMem := fun c => (hplan.2.1 c).trans (hmem c)
  refine ⟨hplan.1, hplanMem, hplan.2.2, fun c hc hno => ?_⟩
  obtain ⟨r, hr, tip, htip, hreach⟩ := hc
  exact (hplanMem c).mpr ⟨r, hr, introduces_of_unreached hr htip hreach hno⟩

end Plan

namespace MergeDemo

def oid (n : UInt8) : OidBytes := ⟨List.replicate 20 n, .inl rfl⟩

/-- A root, two branches, their merge, and a commit on the merge. -/
def parents : Nat → List Nat
  | 1 | 2 => [0]
  | 3 => [1, 2]
  | 4 => [3]
  | _ => []

def generation : Nat → Nat
  | 0 => 1
  | 1 | 2 => 2
  | 3 => 3
  | _ => 4

def graph : CommitGraph where
  numCommits := 5
  generation := generation
  parents := parents
  lookup := fun o => (List.range 5).find? fun n => decide (o = oid (.ofNat n))
  parents_lt := by decide
  generation_lt := by decide
  lookup_lt := fun _ _ h => List.mem_range.mp (List.mem_of_find?_eq_some h)

/-- The main branch with one side of the merge scanned before, and a new ref on the root. -/
def startSet : List StartSetRef := [⟨oid 4, some ⟨oid 1, 2⟩⟩, ⟨oid 0, none⟩]

def limits : CommitWalkLimits := ⟨100, 100, 4, 4⟩

end MergeDemo

/-- The merge brings in its other side; the scanned side and the new ref below it add nothing. -/
theorem introducedByPlan_exact_merge :
    introducedByPlan MergeDemo.graph MergeDemo.limits MergeDemo.startSet = .ok [2, 3, 4] ∧
      PlanExact MergeDemo.graph MergeDemo.limits MergeDemo.startSet [2, 3, 4] := by
  have hrun : introducedByPlan MergeDemo.graph MergeDemo.limits MergeDemo.startSet =
    .ok [2, 3, 4] := by
    have hok : (introducedByPlan MergeDemo.graph MergeDemo.limits MergeDemo.startSet).okAnd
        (fun plan => decide (plan = [2, 3, 4])) = true := by decide +kernel
    obtain ⟨plan, hplan, heq⟩ := Outcome.exists_of_okAnd hok
    rw [hplan, of_decide_eq_true heq]
  have hexact := introducedByPlan_exact MergeDemo.graph MergeDemo.limits MergeDemo.startSet
  rw [Plans, hrun] at hexact
  exact ⟨hrun, hexact⟩

end GossipRs.Git
