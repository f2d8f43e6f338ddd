import Mathlib

/-! A dense multi-pattern automaton: patterns are inserted into a trie, and a breadth-first pass
gives every node a fallback and every missing transition the one of its fallback. After the pass a
run stands at the node with the longest word that ends the text. -/

namespace GossipRs.Lib

open List
open Function (update update_of_ne update_self)

variable {σ : Type}

/-- Transitions, fallback, and whether a pattern ends here. -/
structure AcNode (σ : Type) where
  next : σ → Option Nat
  fail : Nat
  out : Bool

def AcNode.new : AcNode σ := ⟨fun _ => none, 0, false⟩

structure AcNodes (σ : Type) where
  node : Nat → AcNode σ
  count : Nat

namespace AcNodes

def root : AcNodes σ := ⟨fun _ => AcNode.new, 1⟩

def modify (t : AcNodes σ) (i : Nat) (f : AcNode σ → AcNode σ) : AcNodes σ :=
  { t with node := Function.update t.node i (f (t.node i)) }

def setFail (t : AcNodes σ) (i fail : Nat) : AcNodes σ :=
  t.modify i fun n => { n with fail := fail }

def setOut (t : AcNodes σ) (i : Nat) : AcNodes σ := t.modify i fun n => { n with out := true }

def push (t : AcNodes σ) : AcNodes σ :=
  ⟨Function.update t.node t.count AcNode.new, t.count + 1⟩

section Updates

variable (t : AcNodes σ) (i j : Nat) (fail : Nat)

@[simp] theorem setFail_next : ((t.setFail i fail).node j).next = (t.node j).next := by
  by_cases h : j = i
  · subst h; simp [setFail, modify]
  · simp [setFail, modify, h]

@[simp] theorem setFail_out : ((t.setFail i fail).node j).out = (t.node j).out := by
  by_cases h : j = i
  · subst h; simp [setFail, modify]
  · simp [setFail, modify, h]

@[simp] theorem setFail_fail_self : ((t.setFail i fail).node i).fail = fail := by
  simp [setFail, modify]

theorem setFail_fail_of_ne (h : j ≠ i) : ((t.setFail i fail).node j).fail = (t.node j).fail := by
  simp [setFail, modify, h]

@[simp] theorem setOut_next : ((t.setOut i).node j).next = (t.node j).next := by
  by_cases h : j = i
  · subst h; simp [setOut, modify]
  · simp [setOut, modify, h]

@[simp] theorem setOut_fail : ((t.setOut i).node j).fail = (t.node j).fail := by
  by_cases h : j = i
  · subst h; simp [setOut, modify]
  · simp [setOut, modify, h]

@[simp] theorem setOut_out_self : ((t.setOut i).node i).out = true := by simp [setOut, modify]

theorem setOut_out_of_ne (h : j ≠ i) : ((t.setOut i).node j).out = (t.node j).out := by
  simp [setOut, modify, h]

theorem push_node_of_lt (h : i < t.count) : t.push.node i = t.node i := by
  simp [push, Nat.ne_of_lt h]

@[simp] theorem push_node_self : t.push.node t.count = AcNode.new := by simp [push]

end Updates

structure Trie (t : AcNodes σ) (word : Nat → List σ) (patterns : List (List σ)) : Prop where
  count_pos : 0 < t.count
  root_word : word 0 = []
  inj : ∀ {i j}, i < t.count → j < t.count → word i = word j → i = j
  next_iff : ∀ {i}, i < t.count → ∀ {c j},
    (t.node i).next c = some j ↔ j < t.count ∧ word j = word i ++ [c]
  parent : ∀ {j}, j < t.count → word j ≠ [] → ∃ i c, i < t.count ∧ word j = word i ++ [c]
  out_iff : ∀ {i}, i < t.count → ((t.node i).out = true ↔ word i ∈ patterns)
  covers : ∀ p ∈ patterns, ∃ i, i < t.count ∧ word i = p

theorem trie_root : Trie (root : AcNodes σ) (fun _ => []) [] where
  count_pos := Nat.one_pos
  root_word := rfl
  inj hi hj _ := by
    simp only [root] at hi hj
    omega
  next_iff _ := by simp [root, AcNode.new]
  parent _ h := absurd rfl h
  out_iff _ := by simp [root, AcNode.new]
  covers := by simp

section Suffixes

variable {t : AcNodes σ} {word : Nat → List σ} {patterns : List (List σ)}

/-- Node `i` has the longest word of the trie that ends `text`. -/
structure IsLongest (n : Nat) (word : Nat → List σ) (text : List σ) (i : Nat) : Prop where
  lt : i < n
  suffix : word i <:+ text
  longest : ∀ j < n, word j <:+ text → (word j).length ≤ (word i).length

/-- Node `i` has the longest word of another node that ends the word of `v`. -/
structure IsFail (n : Nat) (word : Nat → List σ) (v i : Nat) : Prop where
  lt : i < n
  ne : i ≠ v
  suffix : word i <:+ word v
  longest : ∀ j < n, j ≠ v → word j <:+ word v → (word j).length ≤ (word i).length

theorem IsLongest.suffix_of (h : IsLongest n word text i) (hj : j < n) (hs : word j <:+ text) :
    word j <:+ word i :=
  suffix_of_suffix_length_le hs h.suffix (h.longest j hj hs)

theorem IsFail.suffix_of (h : IsFail n word v i) (hj : j < n) (hn : j ≠ v)
    (hs : word j <:+ word v) : word j <:+ word i :=
  suffix_of_suffix_length_le hs h.suffix (h.longest j hj hn hs)

theorem IsFail.length_lt (h : Trie t word patterns) (hv : v < t.count)
    (hf : IsFail t.count word v i) : (word i).length < (word v).length := by
  refine Nat.lt_of_le_of_ne hf.suffix.length_le fun he => hf.ne ?_
  exact h.inj hf.lt hv (hf.suffix.eq_of_length he)

theorem Trie.suffix_append (h : Trie t word patterns) (hk : k < t.count)
    (hs : word k <:+ text ++ [c]) :
    word k = [] ∨ ∃ m < t.count, word k = word m ++ [c] ∧ word m <:+ text := by
  by_cases hn : word k = []
  · exact .inl hn
  obtain ⟨m, _, hm, hw⟩ := h.parent hk hn
  rw [hw] at hs
  obtain ⟨rest, hr⟩ := hs
  rw [← append_assoc] at hr
  obtain ⟨ht, hsy⟩ := append_inj' hr rfl
  cases hsy
  exact .inr ⟨m, hm, hw, rest, ht⟩

theorem IsLongest.append (h : Trie t word patterns) (hs : IsLongest t.count word text s)
    (hi : IsLongest t.count word (word s ++ [c]) i) : IsLongest t.count word (text ++ [c]) i where
  lt := hi.lt
  suffix := hi.suffix.trans (suffix_append_self_iff.mpr hs.suffix)
  longest := by
    intro k hk hsu
    rcases h.suffix_append hk hsu with he | ⟨_, hm, hw, hms⟩
    · rw [he]
      exact Nat.zero_le _
    refine hi.longest k hk ?_
    rw [hw]
    exact suffix_append_self_iff.mpr (hs.suffix_of hm hms)

theorem IsLongest.of_child (hj : j < n) (hw : word j = word v ++ [c]) :
    IsLongest n word (word v ++ [c]) j where
  lt := hj
  suffix := by rw [hw]
  longest k _ hsuffix := by
    rw [hw]
    exact hsuffix.length_le

section

variable (h : Trie t word patterns)

include h

theorem IsLongest.of_fail (hf : IsFail t.count word v f)
    (hn : ∀ j < t.count, word j ≠ word v ++ [c])
    (hi : IsLongest t.count word (word f ++ [c]) i) : IsLongest t.count word (word v ++ [c]) i where
  lt := hi.lt
  suffix := hi.suffix.trans (suffix_append_self_iff.mpr hf.suffix)
  longest := by
    intro k hk hs
    rcases h.suffix_append hk hs with he | ⟨m, hm, hw, hms⟩
    · rw [he]
      exact Nat.zero_le _
    have hmv : m ≠ v := by
      rintro rfl
      exact hn k hk hw
    refine hi.longest k hk ?_
    rw [hw]
    exact suffix_append_self_iff.mpr (hf.suffix_of hm hmv hms)

theorem IsFail.of_parent (hv : v < t.count) (hf : IsFail t.count word v f) (hj : j < t.count)
    (hw : word j = word v ++ [c]) (hi : IsLongest t.count word (word f ++ [c]) i) :
    IsFail t.count word j i where
  lt := hi.lt
  ne := by
    rintro rfl
    have hlt := hf.length_lt h hv
    have hl := hi.suffix.length_le
    rw [hw, length_append, length_append] at hl
    omega
  suffix := by
    rw [hw]
    exact hi.suffix.trans (suffix_append_self_iff.mpr hf.suffix)
  longest := by
    intro k hk hkj hs
    rw [hw] at hs
    rcases h.suffix_append hk hs with he | ⟨m, hm, hkw, hms⟩
    · rw [he]
      exact Nat.zero_le _
    have hmv : m ≠ v := by
      rintro rfl
      exact hkj (h.inj hk hj (hkw.trans hw.symm))
    refine hi.longest k hk ?_
    rw [hkw]
    exact suffix_append_self_iff.mpr (hf.suffix_of hm hmv hms)

theorem Trie.suffix_symbol (hk : k < t.count) (hs : word k <:+ word 0 ++ [c]) :
    word k = [] ∨ word k = word 0 ++ [c] := by
  refine (h.suffix_append hk hs).imp_right ?_
  rintro ⟨_, _, hw, hm⟩
  rw [h.root_word] at hm
  rw [hw, suffix_nil.mp hm, h.root_word]

theorem isLongest_root (hn : ∀ j < t.count, word j ≠ word 0 ++ [c]) :
    IsLongest t.count word (word 0 ++ [c]) 0 where
  lt := h.count_pos
  suffix := by
    rw [h.root_word]
    exact nil_suffix
  longest := by
    intro k hk hs
    rw [(h.suffix_symbol hk hs).resolve_right (hn k hk)]
    exact Nat.zero_le _

theorem isFail_root (hj : j < t.count) (hw : word j = word 0 ++ [c]) :
    IsFail t.count word j 0 where
  lt := h.count_pos
  ne := by
    rintro rfl
    have := congrArg length hw
    simp at this
  suffix := by
    rw [h.root_word]
    exact nil_suffix
  longest := by
    intro k hk hkj hs
    rw [hw] at hs
    rcases h.suffix_symbol hk hs with he | hkw
    · rw [he]
      exact Nat.zero_le _
    · exact absurd (h.inj hk hj (hkw.trans hw.symm)) hkj

theorem Trie.exists_suffix_iff (hf : IsFail t.count word v f) :
    (∃ p ∈ patterns, p <:+ word v) ↔ word v ∈ patterns ∨ ∃ p ∈ patterns, p <:+ word f := by
  constructor
  · rintro ⟨p, hp, hs⟩
    obtain ⟨k, hk, rfl⟩ := h.covers p hp
    by_cases hkv : k = v
    · exact .inl (hkv ▸ hp)
    · exact .inr ⟨word k, hp, hf.suffix_of hk hkv hs⟩
  rintro (hm | ⟨p, hp, hs⟩)
  · exact ⟨word v, hm, suffix_refl _⟩
  · exact ⟨p, hp, hs.trans hf.suffix⟩

end

end Suffixes

/-- The state of the pass: the nodes done are final, the queue holds the next level or two in order,
and every other node is as in the trie `t₀`. -/
structure Linking (t₀ : AcNodes σ) (word : Nat → List σ) (patterns : List (List σ)) (t : AcNodes σ)
    (queue done : List Nat) : Prop where
  count_eq : t.count = t₀.count
  done_lt : ∀ v ∈ done, v < t₀.count
  done_nodup : done.Nodup
  root_done : 0 ∈ done
  done_next : ∀ v ∈ done, ∀ c, ∃ i, (t.node v).next c = some i ∧
    IsLongest t₀.count word (word v ++ [c]) i
  done_out : ∀ v ∈ done, ((t.node v).out = true ↔ ∃ p ∈ patterns, p <:+ word v)
  todo_next : ∀ v < t₀.count, v ∉ done → (t.node v).next = (t₀.node v).next
  todo_out : ∀ v < t₀.count, v ∉ done → (t.node v).out = (t₀.node v).out
  queue_lt : ∀ v ∈ queue, v < t₀.count
  queue_todo : ∀ v ∈ queue, v ∉ done
  queue_nodup : queue.Nodup
  queue_fail : ∀ v ∈ queue, IsFail t₀.count word v (t.node v).fail
  queue_iff : ∀ j < t₀.count, ∀ i < t₀.count, ∀ c, word j = word i ++ [c] →
    (i ∈ done ↔ j ∈ done ∨ j ∈ queue)
  sorted : queue.Pairwise fun a b => (word a).length ≤ (word b).length
  spread : ∀ v ∈ queue.head?, ∀ x ∈ queue, (word x).length ≤ (word v).length + 1

theorem Linking.done_of_shorter {t : AcNodes σ} (h0 : Trie t0 word patterns)
    (h : Linking t0 word patterns t queue done) (hx : x < t0.count)
    (hlt : ∀ y ∈ queue, (word x).length < (word y).length) : x ∈ done := by
  induction hle : (word x).length using Nat.strong_induction_on generalizing x with
  | h len ih =>
    by_cases hn : word x = []
    · rw [h0.inj hx h0.count_pos (hn.trans h0.root_word.symm)]
      exact h.root_done
    obtain ⟨i, c, hi, hw⟩ := h0.parent hx hn
    have hl := congrArg length hw
    rw [length_append, length_singleton] at hl
    have hd : i ∈ done :=
      ih (word i).length (by omega) hi (fun y hy => by have := hlt y hy; omega) rfl
    refine ((h.queue_iff x hx i hi c hw).mp hd).resolve_right fun hq => ?_
    exact absurd (hlt x hq) (Nat.lt_irrefl _)

def inheritOut (t : AcNodes σ) (v : Nat) : AcNodes σ :=
  if (t.node (t.node v).fail).out then t.setOut v else t

section BeforeVisit

variable {t₀ t : AcNodes σ} {word : Nat → List σ} {patterns : List (List σ)} {alphabet : List σ}
variable {v : Nat} {queue done : List Nat}

theorem Trie.next_inj (h : Trie t word patterns) (hv : v < t.count)
    (hc : (t.node v).next c = some j) (hc' : (t.node v).next c' = some j) : c = c' := by
  have hw := ((h.next_iff hv).mp hc).2.symm.trans ((h.next_iff hv).mp hc').2
  exact (List.cons.inj (append_cancel_left hw)).1

theorem inheritOut_next (x) : ((t.inheritOut v).node x).next = (t.node x).next := by
  unfold inheritOut
  split
  · exact setOut_next t v x
  · rfl

theorem inheritOut_fail (x) : ((t.inheritOut v).node x).fail = (t.node x).fail := by
  unfold inheritOut
  split
  · exact setOut_fail t v x
  · rfl

theorem inheritOut_out_of_ne (hx : x ≠ v) : ((t.inheritOut v).node x).out = (t.node x).out := by
  unfold inheritOut
  split
  · exact setOut_out_of_ne t v x hx
  · rfl

theorem inheritOut_out_self : ((t.inheritOut v).node v).out = true ↔
    (t.node v).out = true ∨ (t.node (t.node v).fail).out = true := by
  unfold inheritOut
  split
  next h => simp [h]
  next h => simp [h]

theorem inheritOut_count : (t.inheritOut v).count = t.count := by
  unfold inheritOut
  split <;> rfl

theorem Linking.mem_children (h0 : Trie t0 word patterns)
    (h : Linking t0 word patterns t (v :: queue) done) :
    j ∈ alphabet.filterMap (t0.node v).next ↔
      j < t0.count ∧ ∃ c ∈ alphabet, word j = word v ++ [c] := by
  have hv := h.queue_lt v mem_cons_self
  rw [mem_filterMap]
  constructor
  · rintro ⟨c, hc, hn⟩
    obtain ⟨hj, hw⟩ := (h0.next_iff hv).mp hn
    exact ⟨hj, c, hc, hw⟩
  · rintro ⟨hj, c, hc, hw⟩
    exact ⟨c, hc, (h0.next_iff hv).mpr ⟨hj, hw⟩⟩

theorem Linking.child_fresh (h : Linking t0 word patterns t (v :: queue) done) (hj : j < t0.count)
    (hw : word j = word v ++ [c]) : j ∉ done ∧ j ∉ v :: queue := by
  have hv := h.queue_lt v mem_cons_self
  have ht := h.queue_todo v mem_cons_self
  rw [← not_or, ← h.queue_iff j hj v hv c hw]
  exact ht

theorem Linking.queue_length (h0 : Trie t0 word patterns)
    (h : Linking t0 word patterns t (v :: queue) done)
    (hx : x ∈ queue ++ alphabet.filterMap (t0.node v).next) :
    (word v).length ≤ (word x).length ∧ (word x).length ≤ (word v).length + 1 := by
  rcases mem_append.mp hx with hx | hx
  · exact ⟨rel_of_pairwise_cons h.sorted hx, h.spread v rfl x (mem_cons_of_mem _ hx)⟩
  obtain ⟨-, _, -, hw⟩ := (h.mem_children h0).mp hx
  rw [hw, length_append, length_singleton]
  omega

theorem Linking.length_done (h : Linking t0 word patterns t queue done) :
    done.length ≤ t0.count := by
  have hs : done ⊆ List.range t0.count := fun x hx => mem_range.mpr (h.done_lt x hx)
  have hl := (h.done_nodup.subperm hs).length_le
  rwa [length_range] at hl

end BeforeVisit

variable [DecidableEq σ]

def setNext (t : AcNodes σ) (i : Nat) (c : σ) (target : Option Nat) : AcNodes σ :=
  t.modify i fun n => { n with next := Function.update n.next c target }

section SetNext

variable (t : AcNodes σ) (i j : Nat) (c : σ) (target : Option Nat)

@[simp] theorem setNext_out : ((t.setNext i c target).node j).out = (t.node j).out := by
  by_cases h : j = i
  · subst h; simp [setNext, modify]
  · simp [setNext, modify, h]

@[simp] theorem setNext_fail : ((t.setNext i c target).node j).fail = (t.node j).fail := by
  by_cases h : j = i
  · subst h; simp [setNext, modify]
  · simp [setNext, modify, h]

@[simp] theorem setNext_next_self :
    ((t.setNext i c target).node i).next = update (t.node i).next c target := by
  simp [setNext, modify]

theorem setNext_next_of_ne (h : j ≠ i) :
    ((t.setNext i c target).node j).next = (t.node j).next := by
  simp [setNext, modify, h]

end SetNext

def child (t : AcNodes σ) (s : Nat) (c : σ) : AcNodes σ × Nat :=
  match (t.node s).next c with
  | some j => (t, j)
  | none => (t.push.setNext s c (some t.count), t.count)

theorem child_of_some {t : AcNodes σ} (h : (t.node s).next c = some j) : t.child s c = (t, j) := by
  rw [child, h]

theorem child_of_none {t : AcNodes σ} (h : (t.node s).next c = none) :
    t.child s c = (t.push.setNext s c (some t.count), t.count) := by
  rw [child, h]

def insertFrom (t : AcNodes σ) (s : Nat) : List σ → AcNodes σ × Nat
  | [] => (t, s)
  | c :: rest => insertFrom (t.child s c).1 (t.child s c).2 rest

def insert (t : AcNodes σ) (pattern : List σ) : AcNodes σ :=
  if pattern = [] then t
  else (t.insertFrom 0 pattern).1.setOut (t.insertFrom 0 pattern).2

/-- One symbol of one node: a missing transition takes the fallback's, a child is queued with it as
its own fallback. -/
def settle (v : Nat) (fallback : AcNodes σ → σ → Option Nat) (acc : AcNodes σ × List Nat) (c : σ) :
    AcNodes σ × List Nat :=
  match (acc.1.node v).next c with
  | none => (acc.1.setNext v c (fallback acc.1 c), acc.2)
  | some j => (acc.1.setFail j ((fallback acc.1 c).getD 0), acc.2 ++ [j])

/-- Every transition of the root leads back to it unless there is a child. -/
def settleRoot (alphabet : List σ) (t : AcNodes σ) : AcNodes σ × List Nat :=
  alphabet.foldl (settle 0 fun _ _ => some 0) (t, [])

def visit (alphabet : List σ) (t : AcNodes σ) (v : Nat) (queue : List Nat) : AcNodes σ × List Nat :=
  alphabet.foldl (settle v fun t' c => (t'.node (t.node v).fail).next c) (t.inheritOut v, queue)

/-- The pass over the queue; no node is queued twice, so the number of nodes bounds the visits. -/
def linkLoop (alphabet : List σ) : Nat → AcNodes σ → List Nat → AcNodes σ
  | 0, t, _ => t
  | _ + 1, t, [] => t
  | fuel + 1, t, v :: queue =>
    linkLoop alphabet fuel (visit alphabet t v queue).1 (visit alphabet t v queue).2

def link (alphabet : List σ) (t : AcNodes σ) : AcNodes σ :=
  linkLoop alphabet t.count (settleRoot alphabet t).1 (settleRoot alphabet t).2

def build (alphabet : List σ) (patterns : List (List σ)) : AcNodes σ :=
  link alphabet (patterns.foldl insert root)

def step (t : AcNodes σ) (s : Nat) (c : σ) : Nat := ((t.node s).next c).getD 0

def run (t : AcNodes σ) (s : Nat) (text : List σ) : Nat := text.foldl t.step s

theorem Trie.child (h : Trie t word patterns) (hs : s < t.count) (c : σ) :
    ∃ word', Trie (t.child s c).1 word' patterns ∧ (t.child s c).2 < (t.child s c).1.count ∧
      word' (t.child s c).2 = word s ++ [c] ∧ t.count ≤ (t.child s c).1.count ∧
      ∀ i < t.count, word' i = word i := by
  cases hn : (t.node s).next c with
  | some j =>
    rw [child_of_some hn]
    obtain ⟨hj, hw⟩ := (h.next_iff hs).mp hn
    exact ⟨word, h, hj, hw, Nat.le_refl _, fun _ _ => rfl⟩
  | none =>
    rw [child_of_none hn]
    have hf : ∀ j < t.count, word j ≠ word s ++ [c] := by
      intro j hj hw
      rw [(h.next_iff hs).mpr ⟨hj, hw⟩] at hn
      cases hn
    have ho : ∀ i < t.count, update word t.count (word s ++ [c]) i = word i :=
      fun i hi => update_of_ne (Nat.ne_of_lt hi) _ _
    have hnew : update word t.count (word s ++ [c]) t.count = word s ++ [c] :=
      update_self _ _ _
    have hlt : ∀ i, i < t.count + 1 → i < t.count ∨ i = t.count := by
      omega
    refine ⟨update word t.count (word s ++ [c]), ?_, Nat.lt_succ_self _, hnew, Nat.le_succ _, ho⟩
    constructor
    · exact Nat.succ_pos _
    · rw [ho 0 h.count_pos]
      exact h.root_word
    · intro i j hi hj hw
      rcases hlt i hi with hi | rfl <;> rcases hlt j hj with hj | rfl
      · rw [ho i hi, ho j hj] at hw
        exact h.inj hi hj hw
      · rw [ho i hi, hnew] at hw
        exact absurd hw (hf i hi)
      · rw [ho j hj, hnew] at hw
        exact absurd hw.symm (hf j hj)
      · rfl
    · intro i hl d j
      show _ ↔ j < t.count + 1 ∧ _
      rcases hlt i hl with hi | rfl
      · rw [ho i hi]
        -- The new transition is the one from `s` along `c`; all others were there.
        have ht : j < t.count + 1 ∧ update word t.count (word s ++ [c]) j = word i ++ [d] ↔
            (j < t.count ∧ word j = word i ++ [d]) ∨ (j = t.count ∧ i = s ∧ d = c) := by
          constructor
          · rintro ⟨hj, hw⟩
            rcases hlt j hj with hj | rfl
            · rw [ho j hj] at hw
              exact .inl ⟨hj, hw⟩
            rw [hnew] at hw
            obtain ⟨hwo, hsy⟩ := append_inj' hw rfl
            exact .inr ⟨rfl, h.inj hi hs hwo.symm, (List.cons.inj hsy).1.symm⟩
          rintro (⟨hj, hw⟩ | ⟨rfl, rfl, rfl⟩)
          · exact ⟨by omega, by rw [ho j hj]; exact hw⟩
          · exact ⟨Nat.lt_succ_self _, hnew⟩
        rw [ht, ← h.next_iff hi]
        by_cases his : i = s
        · subst his
          rw [setNext_next_self, push_node_of_lt t i hi]
          by_cases hd : d = c
          · subst hd
            rw [update_self, hn]
            simp [eq_comm]
          · simp [hd]
        · rw [setNext_next_of_ne _ _ _ _ _ his, push_node_of_lt t i hi]
          simp [his]
      · rw [setNext_next_of_ne _ _ _ _ _ (Nat.ne_of_gt hs), push_node_self]
        constructor
        · intro hso
          cases hso
        -- Nothing lies below the new node.
        rintro ⟨hj, hw⟩
        exfalso
        rw [hnew] at hw
        rcases hlt j hj with hj | rfl
        · rw [ho j hj] at hw
          obtain ⟨i, e, hi, hi'⟩ := h.parent hj (by rw [hw]; simp)
          rw [hw] at hi'
          exact hf i hi (append_inj_left' hi' rfl).symm
        · have := congrArg length hw
          simp at this
    · intro j hj hne
      rcases hlt j hj with hj | rfl
      · rw [ho j hj] at hne ⊢
        obtain ⟨i, e, hi, hw⟩ := h.parent hj hne
        exact ⟨i, e, Nat.lt_succ_of_lt hi, by rw [ho i hi]; exact hw⟩
      · exact ⟨s, c, Nat.lt_succ_of_lt hs, by rw [hnew, ho s hs]⟩
    · intro i hi
      rw [setNext_out]
      rcases hlt i hi with hi | rfl
      · rw [push_node_of_lt t i hi, ho i hi]
        exact h.out_iff hi
      rw [push_node_self, hnew]
      refine ⟨fun hou => absurd hou Bool.false_ne_true, fun hm => ?_⟩
      obtain ⟨i, hi, hw⟩ := h.covers _ hm
      exact absurd hw (hf i hi)
    · intro p hp
      obtain ⟨i, hi, hw⟩ := h.covers p hp
      exact ⟨i, Nat.lt_succ_of_lt hi, by rw [ho i hi]; exact hw⟩

theorem Trie.insertFrom (h : Trie t word patterns) (hs : s < t.count) (rest : List σ) :
    ∃ word', Trie (t.insertFrom s rest).1 word' patterns ∧
      (t.insertFrom s rest).2 < (t.insertFrom s rest).1.count ∧
      word' (t.insertFrom s rest).2 = word s ++ rest := by
  induction rest generalizing t word s with
  | nil => exact ⟨word, h, hs, (append_nil _).symm⟩
  | cons c rest ih =>
    obtain ⟨_, h1, hs1, hw1, -, -⟩ := h.child hs c
    obtain ⟨word2, h2, hs2, hw2⟩ := ih h1 hs1
    refine ⟨word2, h2, hs2, ?_⟩
    rw [AcNodes.insertFrom, hw2, hw1, append_assoc, singleton_append]

theorem Trie.insert (h : Trie t word patterns) {pattern : List σ} (hn : pattern ≠ []) :
    ∃ word', Trie (t.insert pattern) word' (pattern :: patterns) := by
  obtain ⟨word', h', hs, hw⟩ := h.insertFrom h.count_pos pattern
  rw [h.root_word, nil_append] at hw
  rw [AcNodes.insert, if_neg hn]
  refine ⟨word', h'.count_pos, h'.root_word, h'.inj, ?_, h'.parent, ?_, ?_⟩
  · intro i hi c j
    rw [setOut_next]
    exact h'.next_iff hi
  · intro i hi
    rw [mem_cons]
    by_cases his : i = (t.insertFrom 0 pattern).2
    · rw [his, setOut_out_self, hw]
      simp
    rw [setOut_out_of_ne _ _ _ his, h'.out_iff hi]
    refine ⟨.inr, fun ho => ho.resolve_left fun he => his (h'.inj hi hs ?_)⟩
    rw [he, hw]
  intro p hp
  rcases mem_cons.mp hp with rfl | hp
  · exact ⟨_, hs, hw⟩
  · exact h'.covers p hp

theorem trie_insertAll (h : Trie t word done) (patterns : List (List σ))
    (hn : ∀ p ∈ patterns, p ≠ []) :
    ∃ word', Trie (patterns.foldl AcNodes.insert t) word' (patterns.reverse ++ done) := by
  induction patterns generalizing t word done with
  | nil => exact ⟨word, h⟩
  | cons p rest ih =>
    obtain ⟨hp, hr⟩ := forall_mem_cons.mp hn
    obtain ⟨_, h1⟩ := h.insert hp
    obtain ⟨word2, h2⟩ := ih h1 hr
    refine ⟨word2, ?_⟩
    rw [reverse_cons, append_assoc]
    exact h2

variable {fallback : AcNodes σ → σ → Option Nat}

theorem settle_none (h : (acc.1.node v).next c = none) :
    settle v fallback acc c = (acc.1.setNext v c (fallback acc.1 c), acc.2) := by
  rw [settle, h]

theorem settle_some (h : (acc.1.node v).next c = some j) :
    settle v fallback acc c = (acc.1.setFail j ((fallback acc.1 c).getD 0), acc.2 ++ [j]) := by
  rw [settle, h]

structure Settled (v : Nat) (fallback : σ → Option Nat) (symbols : List σ) (t : AcNodes σ)
    (queue : List Nat) (r : AcNodes σ × List Nat) : Prop where
  count_eq : r.1.count = t.count
  queue_eq : r.2 = queue ++ symbols.filterMap (t.node v).next
  out_eq : ∀ x, (r.1.node x).out = (t.node x).out
  other_next : ∀ x, x ≠ v → (r.1.node x).next = (t.node x).next
  own_next : ∀ c ∈ symbols, (r.1.node v).next c = ((t.node v).next c).or (fallback c)
  rest_next : ∀ c, c ∉ symbols → (r.1.node v).next c = (t.node v).next c
  other_fail : ∀ x, (∀ c ∈ symbols, (t.node v).next c ≠ some x) →
    (r.1.node x).fail = (t.node x).fail
  child_fail : ∀ c ∈ symbols, ∀ j, (t.node v).next c = some j →
    (r.1.node j).fail = (fallback c).getD 0

/-- The fallback's transitions do not change while another node is settled. -/
def Steady (v : Nat) (fallback : AcNodes σ → σ → Option Nat) : Prop :=
  ∀ t t' : AcNodes σ, (∀ x, x ≠ v → (t'.node x).next = (t.node x).next) → fallback t' = fallback t

theorem foldl_settle (hs : Steady v fallback) (hno : symbols.Nodup) (queue)
    (hin : ∀ c ∈ symbols, ∀ c' ∈ symbols, ∀ j,
      (t.node v).next c = some j → (t.node v).next c' = some j → c = c') :
    Settled v (fallback t) symbols t queue (symbols.foldl (settle v fallback) (t, queue)) := by
  induction symbols generalizing t queue with
  | nil => exact ⟨rfl, by simp, fun _ => rfl, fun _ _ => rfl, by simp, fun _ _ => rfl,
      fun _ _ => rfl, by simp⟩
  | cons c rest ih =>
    obtain ⟨hc, hre⟩ := nodup_cons.mp hno
    have hne : ∀ d ∈ rest, d ≠ c := by
      rintro d hd rfl
      exact hc hd
    rw [foldl_cons]
    cases hn : (t.node v).next c with
    | none =>
      rw [settle_none hn]
      have ho : ∀ d, d ≠ c →
          ((t.setNext v c (fallback t c)).node v).next d = (t.node v).next d := by
        intro d hd
        rw [setNext_next_self, update_of_ne hd]
      have hr := ih hre (t := t.setNext v c (fallback t c)) queue (by
        intro d hd d' hd' j hj hj'
        rw [ho d (hne d hd)] at hj
        rw [ho d' (hne d' hd')] at hj'
        exact hin d (mem_cons_of_mem _ hd) d' (mem_cons_of_mem _ hd') j hj hj')
      rw [hs t _ fun x hx => setNext_next_of_ne t v x c _ hx] at hr
      constructor
      · exact hr.count_eq
      · rw [hr.queue_eq, filterMap_cons_none hn]
        exact congrArg (queue ++ ·) (filterMap_congr fun d hd => ho d (hne d hd))
      · intro x
        rw [hr.out_eq, setNext_out]
      · intro x hx
        rw [hr.other_next x hx, setNext_next_of_ne _ _ _ _ _ hx]
      · intro d hd
        rcases mem_cons.mp hd with rfl | hd
        · rw [hr.rest_next d hc, setNext_next_self, update_self, hn, Option.none_or]
        · rw [hr.own_next d hd, ho d (hne d hd)]
      · intro d hd
        rw [mem_cons, not_or] at hd
        rw [hr.rest_next d hd.2, ho d hd.1]
      · intro x hx
        rw [hr.other_fail x fun d hd => ?_, setNext_fail]
        rw [ho d (hne d hd)]
        exact hx d (mem_cons_of_mem _ hd)
      intro d hd j hj
      rcases mem_cons.mp hd with rfl | hd
      · rw [hn] at hj
        cases hj
      · exact hr.child_fail d hd j (by rw [ho d (hne d hd)]; exact hj)
    | some k =>
      rw [settle_some hn]
      have hr := ih hre (t := t.setFail k ((fallback t c).getD 0)) (queue ++ [k]) (by
        intro d hd d' hd' j hj hj'
        rw [setFail_next] at hj hj'
        exact hin d (mem_cons_of_mem _ hd) d' (mem_cons_of_mem _ hd') j hj hj')
      rw [hs t _ fun x _ => setFail_next t k x _] at hr
      constructor
      · exact hr.count_eq
      · rw [hr.queue_eq, filterMap_cons_some hn, setFail_next, append_assoc]
        rfl
      · intro x
        rw [hr.out_eq, setFail_out]
      · intro x hx
        rw [hr.other_next x hx, setFail_next]
      · intro d hd
        rcases mem_cons.mp hd with rfl | hd
        · rw [hr.rest_next d hc, setFail_next, hn, Option.some_or]
        · rw [hr.own_next d hd, setFail_next]
      · intro d hd
        rw [mem_cons, not_or] at hd
        rw [hr.rest_next d hd.2, setFail_next]
      · intro x hx
        have hxk : x ≠ k := by
          rintro rfl
          exact hx c mem_cons_self hn
        rw [hr.other_fail x fun d hd => ?_, setFail_fail_of_ne _ _ _ _ hxk]
        rw [setFail_next]
        exact hx d (mem_cons_of_mem _ hd)
      intro d hd j hj
      rcases mem_cons.mp hd with rfl | hd
      · rw [hn] at hj
        cases hj
        -- No later symbol leads to this child.
        rw [hr.other_fail k fun d' hd' hk => ?_, setFail_fail_self]
        rw [setFail_next] at hk
        exact hne d' hd' (hin d' (mem_cons_of_mem _ hd') d mem_cons_self k hk hn)
      · exact hr.child_fail d hd j (by rw [setFail_next]; exact hj)

section Visits

variable {t₀ t : AcNodes σ} {word : Nat → List σ} {patterns : List (List σ)} {alphabet : List σ}
variable {v : Nat} {queue done : List Nat}

theorem Linking.visit (h0 : Trie t0 word patterns) (hno : alphabet.Nodup)
    (ha : ∀ c, c ∈ alphabet) (h : Linking t0 word patterns t (v :: queue) done) :
    Linking t0 word patterns (t.visit alphabet v queue).1 (t.visit alphabet v queue).2
      (v :: done) := by
  have hv := h.queue_lt v mem_cons_self
  have ht := h.queue_todo v mem_cons_self
  have hf := h.queue_fail v mem_cons_self
  have hfd := h.done_of_shorter h0 hf.lt fun y hy => by
    have hlt := hf.length_lt h0 hv
    rcases mem_cons.mp hy with rfl | hy
    · exact hlt
    · exact hlt.trans_le (rel_of_pairwise_cons h.sorted hy)
  have ho : ((t.inheritOut v).node v).next = (t0.node v).next := by
    rw [inheritOut_next, h.todo_next v hv ht]
  have hs : Settled v _ alphabet (t.inheritOut v) queue (t.visit alphabet v queue) :=
    foldl_settle (fun _ _ hsa => by rw [hsa _ hf.ne]) hno queue (by
      intro c _ c' _ j hc hc'
      rw [ho] at hc hc'
      exact h0.next_inj hv hc hc')
  have hq := hs.queue_eq
  rw [ho] at hq
  obtain ⟨hvq, hqn⟩ := nodup_cons.mp h.queue_nodup
  -- The fallback's transition along a symbol, as the pass reads it.
  have hr : ∀ c, ∃ i, ((t.inheritOut v).node (t.node v).fail).next c = some i ∧
      IsLongest t0.count word (word (t.node v).fail ++ [c]) i := by
    intro c
    rw [inheritOut_next]
    exact h.done_next _ hfd c
  constructor
  · rw [hs.count_eq, inheritOut_count, h.count_eq]
  · exact forall_mem_cons.mpr ⟨hv, h.done_lt⟩
  · exact nodup_cons.mpr ⟨ht, h.done_nodup⟩
  · exact mem_cons_of_mem _ h.root_done
  · intro x hx c
    rcases mem_cons.mp hx with rfl | hx
    · obtain ⟨i, hi, hl⟩ := hr c
      rw [hs.own_next c (ha c), ho, hi]
      cases hn : (t0.node x).next c with
      | some j =>
        obtain ⟨hj, hw⟩ := (h0.next_iff hv).mp hn
        exact ⟨j, rfl, IsLongest.of_child hj hw⟩
      | none =>
        refine ⟨i, rfl, IsLongest.of_fail h0 hf (fun j hj hw => ?_) hl⟩
        rw [(h0.next_iff hv).mpr ⟨hj, hw⟩] at hn
        cases hn
    · have hxv : x ≠ v := fun he => ht (he ▸ hx)
      rw [hs.other_next x hxv, inheritOut_next]
      exact h.done_next x hx c
  · intro x hx
    rw [hs.out_eq]
    rcases mem_cons.mp hx with rfl | hx
    · rw [inheritOut_out_self, h.todo_out x hv ht, h0.out_iff hv, h.done_out _ hfd,
        h0.exists_suffix_iff hf]
    have hxv : x ≠ v := fun he => ht (he ▸ hx)
    rw [inheritOut_out_of_ne hxv]
    exact h.done_out x hx
  · intro x hx hnot
    rw [mem_cons, not_or] at hnot
    rw [hs.other_next x hnot.1, inheritOut_next, h.todo_next x hx hnot.2]
  · intro x hx hnot
    rw [mem_cons, not_or] at hnot
    rw [hs.out_eq, inheritOut_out_of_ne hnot.1, h.todo_out x hx hnot.2]
  · intro x hx
    rw [hq, mem_append] at hx
    rcases hx with hx | hx
    · exact h.queue_lt x (mem_cons_of_mem _ hx)
    · exact ((h.mem_children h0).mp hx).1
  · intro x hx
    rw [hq, mem_append] at hx
    rw [mem_cons, not_or]
    rcases hx with hx | hx
    · exact ⟨fun he => hvq (he ▸ hx), h.queue_todo x (mem_cons_of_mem _ hx)⟩
    obtain ⟨hj, c, -, hw⟩ := (h.mem_children h0).mp hx
    obtain ⟨hd, hnot⟩ := h.child_fresh hj hw
    exact ⟨fun he => hnot (he ▸ mem_cons_self), hd⟩
  · rw [hq]
    refine nodup_append.mpr ⟨hqn, hno.filterMap fun c c' j hc hc' => ?_, ?_⟩
    · exact h0.next_inj hv hc hc'
    rintro x hx y hy rfl
    obtain ⟨hj, c, -, hw⟩ := (h.mem_children h0).mp hy
    exact (h.child_fresh hj hw).2 (mem_cons_of_mem _ hx)
  · intro x hx
    rw [hq, mem_append] at hx
    rcases hx with hx | hx
    · rw [hs.other_fail x fun c _ hn => ?_, inheritOut_fail]
      · exact h.queue_fail x (mem_cons_of_mem _ hx)
      rw [ho] at hn
      obtain ⟨hj, hw⟩ := (h0.next_iff hv).mp hn
      exact (h.child_fresh hj hw).2 (mem_cons_of_mem _ hx)
    obtain ⟨hj, c, hc, hw⟩ := (h.mem_children h0).mp hx
    obtain ⟨i, hi, hl⟩ := hr c
    rw [hs.child_fail c hc x (by rw [ho]; exact (h0.next_iff hv).mpr ⟨hj, hw⟩), hi]
    exact hf.of_parent h0 hv hj hw hl
  · intro j hj i hi c hw
    have hol := h.queue_iff j hj i hi c hw
    have hch : j ∈ alphabet.filterMap (t0.node v).next ↔ i = v := by
      rw [h.mem_children h0]
      constructor
      · rintro ⟨-, d, -, hw'⟩
        exact h0.inj hi hv (append_inj_left' (hw.symm.trans hw') rfl)
      · rintro rfl
        exact ⟨hj, c, ha c, hw⟩
    rw [hq, mem_append, hch, mem_cons, mem_cons, hol, mem_cons]
    tauto
  · rw [hq]
    refine pairwise_append.mpr ⟨(pairwise_cons.mp h.sorted).2, ?_, ?_⟩
    · refine pairwise_of_forall_mem_list fun x hx y hy => ?_
      obtain ⟨-, c, -, hx⟩ := (h.mem_children h0).mp hx
      obtain ⟨-, d, -, hy⟩ := (h.mem_children h0).mp hy
      rw [hx, hy, length_append, length_append, length_singleton, length_singleton]
    intro x hx y hy
    obtain ⟨-, c, -, hw⟩ := (h.mem_children h0).mp hy
    have hle := h.spread v rfl x (mem_cons_of_mem _ hx)
    rw [hw, length_append, length_singleton]
    exact hle
  · rw [hq]
    intro y hy x hx
    have hlo := (h.queue_length h0 (List.mem_of_mem_head? hy)).1
    have hh := (h.queue_length h0 hx).2
    omega

theorem linking_root (h0 : Trie t0 word patterns) (hne : ∀ p ∈ patterns, p ≠ [])
    (hno : alphabet.Nodup) (ha : ∀ c, c ∈ alphabet) :
    Linking t0 word patterns (t0.settleRoot alphabet).1 (t0.settleRoot alphabet).2 [0] := by
  have hs : Settled 0 _ alphabet t0 [] (t0.settleRoot alphabet) :=
    foldl_settle (fun _ _ _ => rfl) hno [] fun c _ c' _ j hc hc' =>
      h0.next_inj h0.count_pos hc hc'
  have hq : ∀ x, x ∈ (t0.settleRoot alphabet).2 ↔ x < t0.count ∧ ∃ c, word x = word 0 ++ [c] := by
    intro x
    rw [hs.queue_eq, nil_append, mem_filterMap]
    constructor
    · rintro ⟨c, -, hn⟩
      obtain ⟨hx, hw⟩ := (h0.next_iff h0.count_pos).mp hn
      exact ⟨hx, c, hw⟩
    · rintro ⟨hx, c, hw⟩
      exact ⟨c, ha c, (h0.next_iff h0.count_pos).mpr ⟨hx, hw⟩⟩
  have hl : ∀ x ∈ (t0.settleRoot alphabet).2, (word x).length = 1 := by
    intro x hx
    obtain ⟨-, c, hw⟩ := (hq x).mp hx
    rw [hw, h0.root_word]
    rfl
  constructor
  · exact hs.count_eq
  · intro x hx
    rw [mem_singleton.mp hx]
    exact h0.count_pos
  · exact nodup_singleton 0
  · exact mem_singleton_self 0
  · intro x hx c
    rw [mem_singleton.mp hx, hs.own_next c (ha c)]
    cases hn : (t0.node 0).next c with
    | some j =>
      obtain ⟨hj, hw⟩ := (h0.next_iff h0.count_pos).mp hn
      exact ⟨j, rfl, IsLongest.of_child hj hw⟩
    | none =>
      refine ⟨0, rfl, isLongest_root h0 fun j hj hw => ?_⟩
      rw [(h0.next_iff h0.count_pos).mpr ⟨hj, hw⟩] at hn
      cases hn
  · intro x hx
    rw [mem_singleton.mp hx, hs.out_eq, h0.out_iff h0.count_pos, h0.root_word]
    constructor
    · intro hm
      exact absurd rfl (hne _ hm)
    · rintro ⟨p, hp, hsu⟩
      exact absurd (suffix_nil.mp hsu) (hne p hp)
  · intro x hx hnot
    rw [hs.other_next x fun he => hnot (mem_singleton.mpr he)]
  · intro x hx _
    rw [hs.out_eq]
  · intro x hx
    exact ((hq x).mp hx).1
  · intro x hx hd
    have hle := hl x hx
    rw [mem_singleton.mp hd, h0.root_word] at hle
    cases hle
  · rw [hs.queue_eq, nil_append]
    exact hno.filterMap fun c c' j hc hc' => h0.next_inj h0.count_pos hc hc'
  · intro x hx
    obtain ⟨hlt, c, hw⟩ := (hq x).mp hx
    rw [hs.child_fail c (ha c) x ((h0.next_iff h0.count_pos).mpr ⟨hlt, hw⟩)]
    exact isFail_root h0 hlt hw
  · intro j hj i hi c hw
    rw [mem_singleton, mem_singleton, hq j]
    constructor
    · rintro rfl
      exact .inr ⟨hj, c, hw⟩
    rintro (rfl | ⟨-, _, hw'⟩)
    · rw [h0.root_word] at hw
      exact absurd hw.symm (by simp)
    · exact h0.inj hi h0.count_pos (append_inj_left' (hw.symm.trans hw') rfl)
  · refine pairwise_of_forall_mem_list fun x hx y hy => ?_
    rw [hl x hx, hl y hy]
  · intro y hy x hx
    rw [hl x hx]
    omega

theorem linkLoop_spec (h0 : Trie t0 word patterns) (hn : alphabet.Nodup)
    (ha : ∀ c, c ∈ alphabet) (fuel) (h : Linking t0 word patterns t queue done)
    (hf : t0.count ≤ done.length + fuel) :
    ∃ done', Linking t0 word patterns (linkLoop alphabet fuel t queue) [] done' := by
  induction fuel generalizing t queue done with
  | zero =>
    cases queue with
    | nil => exact ⟨done, h⟩
    | cons v queue =>
      have hl := (h.visit h0 hn ha).length_done
      rw [length_cons] at hl
      omega
  | succ fuel ih =>
    cases queue with
    | nil => exact ⟨done, h⟩
    | cons v queue =>
      exact ih (h.visit h0 hn ha) (by rw [length_cons]; omega)

end Visits

/-- After any text the automaton is at one of its nodes, marked exactly when a pattern ends the
text. -/
theorem build_spec (hn : alphabet.Nodup) (ha : ∀ c, c ∈ alphabet)
    (hne : ∀ p ∈ patterns, p ≠ []) (text : List σ) :
    (build alphabet patterns).run 0 text < (build alphabet patterns).count ∧
      (((build alphabet patterns).node ((build alphabet patterns).run 0 text)).out = true ↔
        ∃ p ∈ patterns, p <:+ text) := by
  obtain ⟨word, h0⟩ := trie_insertAll trie_root patterns hne
  rw [append_nil] at h0
  have hn' : ∀ p ∈ patterns.reverse, p ≠ [] := fun p hp => hne p (mem_reverse.mp hp)
  obtain ⟨_, h⟩ := linkLoop_spec h0 hn ha (patterns.foldl AcNodes.insert root).count
    (linking_root h0 hn' hn ha) (Nat.le_add_left _ _)
  have hr : ∀ text, IsLongest (patterns.foldl AcNodes.insert root).count word text
      ((build alphabet patterns).run 0 text) := by
    intro text
    induction text using reverseRecOn with
    | nil =>
      refine ⟨h0.count_pos, ?_, fun j _ hs => ?_⟩
      · rw [run, foldl_nil, h0.root_word]
      · rw [suffix_nil.mp hs]
        exact Nat.zero_le _
    | append_singleton text c ih =>
      obtain ⟨i, hi, hlo⟩ := h.done_next _ (h.done_of_shorter h0 ih.lt nofun) c
      have hst : (build alphabet patterns).run 0 (text ++ [c]) = i := by
        rw [run, foldl_append, foldl_cons, foldl_nil]
        exact congrArg (fun o => o.getD 0) hi
      rw [hst]
      exact ih.append h0 hlo
  have hl := hr text
  refine ⟨h.count_eq.symm ▸ hl.lt, ?_⟩
  have ho := h.done_out _ (h.done_of_shorter h0 hl.lt nofun)
  refine ho.trans ⟨?_, ?_⟩
  · rintro ⟨p, hp, hs⟩
    exact ⟨p, mem_reverse.mp hp, hs.trans hl.suffix⟩
  rintro ⟨p, hp, hs⟩
  have hp := mem_reverse.mpr hp
  obtain ⟨k, hk, rfl⟩ := h0.covers p hp
  exact ⟨word k, hp, hl.suffix_of hk hs⟩

end AcNodes

end GossipRs.Lib
