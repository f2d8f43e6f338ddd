import GossipRs.Git.TreeDiff

/-! The merge of two sorted lists of tree entries: what a pair of trees contributes, and how the
order of names orders the paths. -/

namespace GossipRs.Git

open Lib List

/-! ### The order of names -/

def CleanName (name : Bytes) : Prop := slash ∉ name ∧ (0 : UInt8) ∉ name

def sortKey (e : TreeEntry) : Bytes := e.name ++ [terminator e.kind.isTree]

theorem terminator_eq (b) : terminator b = 0 ∨ terminator b = slash := by
  cases b
  · exact .inl rfl
  · exact .inr rfl

theorem CleanName.head_ne {name : Bytes} (h : CleanName (b :: name)) (isDir) :
    b ≠ terminator isDir := by
  intro he
  rcases terminator_eq isDir with ht | ht
  · exact h.2 (by rw [he, ht]; exact mem_cons_self)
  · exact h.1 (by rw [he, ht]; exact mem_cons_self)

theorem CleanName.tail {name : Bytes} (h : CleanName (b :: name)) : CleanName name :=
  ⟨fun hs => h.1 (mem_cons_of_mem _ hs), fun hz => h.2 (mem_cons_of_mem _ hz)⟩

variable {α : Type}

theorem orderCmp_congr [LinearOrder α] [LinearOrder β] {a b : α} {c d : β} (h : a < b ↔ c < d)
    (h' : b < a ↔ d < c) : orderCmp a b = orderCmp c d := by
  rw [orderCmp, orderCmp]
  by_cases hl : c < d
  · rw [if_pos (h.mpr hl), if_pos hl]
  rw [if_neg (mt h.mp hl), if_neg hl]
  by_cases hg : d < c
  · rw [if_pos (h'.mpr hg), if_pos hg]
  · rw [if_neg (mt h'.mp hg), if_neg hg]

theorem orderCmp_cons {l l' : Bytes} (h : x ≠ y) : orderCmp (x :: l) (y :: l') = orderCmp x y := by
  have h1 : x :: l < y :: l' ↔ x < y := by
    rw [cons_lt_cons_iff]
    exact or_iff_left fun h' => h h'.1
  have h2 : y :: l' < x :: l ↔ y < x := by
    rw [cons_lt_cons_iff]
    exact or_iff_left fun h' => h h'.1.symm
  exact orderCmp_congr h1 h2

theorem orderCmp_cons_self {l l' : Bytes} : orderCmp (x :: l) (x :: l') = orderCmp l l' := by
  have h1 : ∀ a b : Bytes, x :: a < x :: b ↔ a < b := by
    simp
  exact orderCmp_congr (h1 l l') (h1 l' l)

theorem orderCmp_ne_eq {x y : UInt8} (h : x ≠ y) : orderCmp x y ≠ .eq := by
  rw [orderCmp]
  rcases lt_or_gt_of_ne h with hl | hg
  · rw [if_pos hl]
    decide
  · rw [if_neg (not_lt_of_gt hg), if_pos hg]
    decide

theorem orderCmp_self [LinearOrder α] (a : α) : orderCmp a a = .eq := by
  simp [orderCmp]

theorem orderCmp_eq_iff [LinearOrder α] {a b : α} : orderCmp a b = .eq ↔ a = b := by
  refine ⟨fun h => ?_, fun h => h ▸ orderCmp_self a⟩
  rw [orderCmp] at h
  split at h
  · cases h
  next h1 =>
    split at h
    · cases h
    next h2 =>
      exact le_antisymm (not_lt.mp h2) (not_lt.mp h1)

theorem orderCmp_lt_iff [LinearOrder α] {a b : α} : orderCmp a b = .lt ↔ a < b := by
  rw [orderCmp]
  split
  next h =>
    exact ⟨fun _ => h, fun _ => rfl⟩
  next h =>
    refine ⟨fun h' => ?_, fun h' => absurd h' h⟩
    split at h' <;> cases h'

theorem orderCmp_gt_iff [LinearOrder α] {a b : α} : orderCmp a b = .gt ↔ b < a := by
  rw [orderCmp]
  split
  next h =>
    exact ⟨fun h' => (by cases h'), fun h' => absurd h (not_lt_of_gt h')⟩
  · split
    next h =>
      exact ⟨fun _ => h, fun _ => rfl⟩
    next h =>
      exact ⟨fun h' => (by cases h'), fun h' => absurd h' h⟩

/-- On names that the parser accepts, the comparison is the byte order of the sort keys. -/
theorem gitTreeNameCmp_eq (ha : CleanName a) (hb : CleanName b) (s t : Bool) :
    gitTreeNameCmp a s b t = orderCmp (a ++ [terminator s]) (b ++ [terminator t]) := by
  induction a generalizing b with
  | nil =>
    cases b with
    | nil =>
      by_cases hs : terminator s = terminator t
      · simp [gitTreeNameCmp, orderCmp_self, hs]
      · simp [gitTreeNameCmp, orderCmp_self, orderCmp_cons hs]
    | cons y b =>
      have hn := (hb.head_ne s).symm
      simp [gitTreeNameCmp, orderCmp_self, orderCmp_cons hn]
  | cons x a ih =>
    cases b with
    | nil =>
      have hn := ha.head_ne t
      simp [gitTreeNameCmp, orderCmp_self, orderCmp_cons hn]
    | cons y b =>
      by_cases hx : x = y
      · subst hx
        rw [cons_append, cons_append, orderCmp_cons_self, ← ih ha.tail hb.tail]
        simp [gitTreeNameCmp, length_cons, Nat.succ_min_succ, take_succ_cons,
          drop_succ_cons, orderCmp_cons_self]
      rw [cons_append, cons_append, orderCmp_cons hx]
      simp only [gitTreeNameCmp, length_cons, Nat.succ_min_succ, take_succ_cons, orderCmp_cons hx]
      rw [if_pos (orderCmp_ne_eq hx)]

theorem sortKey_eq_iff :
    sortKey a = sortKey b ↔ a.name = b.name ∧ a.kind.isTree = b.kind.isTree := by
  refine ⟨fun h => ?_, fun h => by rw [sortKey, sortKey, h.1, h.2]⟩
  obtain ⟨h1, h2⟩ := append_inj' h rfl
  refine ⟨h1, ?_⟩
  have h2 := (List.cons.inj h2).1
  cases ha : a.kind.isTree <;> cases hb : b.kind.isTree
  · rfl
  · rw [ha, hb] at h2
    exact absurd h2 (by decide)
  · rw [ha, hb] at h2
    exact absurd h2 (by decide)
  · rfl

theorem path_lt {s t : Bool} {p q : Bytes} (ha : CleanName a) (hb : CleanName b)
    (hp : if s then ∃ r, p = slash :: r else p = [])
    (hq : if t then ∃ r, q = slash :: r else q = [])
    (h : a ++ [terminator s] < b ++ [terminator t]) : a ++ p < b ++ q := by
  induction a generalizing b with
  | nil =>
    cases b with
    | nil =>
      cases s <;> cases t
      · exact absurd h (lt_irrefl _)
      · obtain ⟨r, rfl⟩ := hq
        rw [show p = [] from hp]
        exact nil_lt_cons _ _
      · exact absurd h (by decide)
      · exact absurd h (lt_irrefl _)
    | cons y b =>
      cases s with
      | false =>
        rw [show p = [] from hp]
        exact nil_lt_cons _ _
      | true =>
        obtain ⟨r, rfl⟩ := hp
        refine cons_lt_cons_iff.mpr (.inl ?_)
        rcases cons_lt_cons_iff.mp h with hl | ⟨he, -⟩
        · exact hl
        · exact absurd he.symm (hb.head_ne true)
  | cons x a ih =>
    cases b with
    | nil =>
      rcases cons_lt_cons_iff.mp h with hl | ⟨he, -⟩
      · cases t with
        | false => exact absurd hl (by
            exact not_lt_of_ge (UInt8.zero_le))
        | true =>
          obtain ⟨r, rfl⟩ := hq
          exact cons_lt_cons_iff.mpr (.inl hl)
      · exact absurd he (ha.head_ne t)
    | cons y b =>
      rcases cons_lt_cons_iff.mp h with hl | ⟨rfl, hr⟩
      · exact cons_lt_cons_iff.mpr (.inl hl)
      · exact cons_lt_cons_iff.mpr (.inr ⟨rfl, ih ha.tail hb.tail hr⟩)

theorem append_lt_append {d p q : Bytes} (h : p < q) : d ++ p < d ++ q := by
  induction d with
  | nil => exact h
  | cons x d ih => exact cons_lt_cons_iff.mpr (.inr ⟨rfl, ih⟩)

/-! ### What a pair of trees contributes -/

variable {olds news : List TreeEntry} {n : TreeEntry} {dir : Bytes} {c : DiffCandidate}

section Contribution

variable (entries : OidBytes → List TreeEntry)

def oldSub (olds : List TreeEntry) (n : TreeEntry) : List TreeEntry :=
  match olds.find? fun o => decide (o.name = n.name) && o.kind.isTree with
  | some o => entries o.oid
  | none => []

def changeOf (olds : List TreeEntry) (n : TreeEntry) : ChangeKind :=
  if olds.any fun o => decide (o.name = n.name) && o.kind.isBlobLike then .modify else .add

inductive Cand : List TreeEntry → List TreeEntry → Bytes → DiffCandidate → Prop
  | leaf {news olds : List TreeEntry} {dir : Bytes} {n : TreeEntry} :
      n ∈ news → n.kind.isBlobLike = true →
      (∀ o ∈ olds, o.name = n.name → o.kind.isBlobLike = true → o.oid ≠ n.oid) →
      Cand news olds dir ⟨n.oid, dir ++ n.name, changeOf olds n, n.mode % 2 ^ 16⟩
  | sub {news olds : List TreeEntry} {dir : Bytes} {n : TreeEntry} {c : DiffCandidate} :
      n ∈ news → n.kind.isTree = true →
      (∀ o ∈ olds, o.name = n.name → o.kind.isTree = true → o.oid ≠ n.oid) →
      Cand (entries n.oid) (oldSub entries olds n) (dir ++ n.name ++ [slash]) c →
      Cand news olds dir c

variable {entries}

theorem isTree_of_isBlobLike {k : EntryKind} (h : k.isBlobLike = true) : k.isTree = false := by
  cases k <;> first | rfl | cases h

theorem oldSub_cons_of_ne (ht : n.kind.isTree = true) (h : sortKey n ≠ sortKey o) :
    oldSub entries (o :: olds) n = oldSub entries olds n := by
  have hn : (decide (o.name = n.name) && o.kind.isTree) = false := by
    rw [Bool.eq_false_iff]
    intro hy
    rw [Bool.and_eq_true, decide_eq_true_iff] at hy
    exact h (sortKey_eq_iff.mpr ⟨hy.1.symm, ht.trans hy.2.symm⟩)
  rw [oldSub, oldSub, List.find?_cons_of_neg (by rw [hn]; exact Bool.false_ne_true)]

theorem changeOf_cons_of_ne (hb : n.kind.isBlobLike = true) (h : sortKey n ≠ sortKey o) :
    changeOf (o :: olds) n = changeOf olds n := by
  have hn : (decide (o.name = n.name) && o.kind.isBlobLike) = false := by
    rw [Bool.eq_false_iff]
    intro hy
    rw [Bool.and_eq_true, decide_eq_true_iff] at hy
    exact h (sortKey_eq_iff.mpr
      ⟨hy.1.symm, (isTree_of_isBlobLike hb).trans (isTree_of_isBlobLike hy.2).symm⟩)
  rw [changeOf, changeOf, any_cons, hn, Bool.false_or]

theorem cand_drop_old (h : ∀ n ∈ news, sortKey n ≠ sortKey o) :
    Cand entries news (o :: olds) dir c ↔ Cand entries news olds dir c := by
  constructor
  · intro hc
    cases hc with
    | leaf hn hblob hnew =>
      rw [changeOf_cons_of_ne hblob (h _ hn)]
      exact .leaf hn hblob fun o' ho' => hnew o' (mem_cons_of_mem _ ho')
    | sub hn htr hnew hsub =>
      rw [oldSub_cons_of_ne htr (h _ hn)] at hsub
      exact .sub hn htr (fun o' ho' => hnew o' (mem_cons_of_mem _ ho')) hsub
  intro hc
  cases hc with
  | leaf hn hblob hnew =>
    rw [← changeOf_cons_of_ne hblob (h _ hn)]
    refine .leaf hn hblob fun o' ho' hna hb => ?_
    rcases mem_cons.mp ho' with rfl | ho'
    · exact absurd (sortKey_eq_iff.mpr ⟨hna.symm,
        (isTree_of_isBlobLike hblob).trans (isTree_of_isBlobLike hb).symm⟩) (h _ hn)
    · exact hnew o' ho' hna hb
  | sub hn htr hnew hsub =>
    refine .sub hn htr (fun o' ho' hna ht => ?_) (by rwa [oldSub_cons_of_ne htr (h _ hn)])
    rcases mem_cons.mp ho' with rfl | ho'
    · exact absurd (sortKey_eq_iff.mpr ⟨hna.symm, htr.trans ht.symm⟩) (h _ hn)
    · exact hnew o' ho' hna ht

theorem cand_cons : Cand entries (n :: news) olds dir c ↔
      Cand entries [n] olds dir c ∨ Cand entries news olds dir c := by
  constructor
  · intro hc
    cases hc with
    | leaf hn hblob hnew =>
      rcases mem_cons.mp hn with rfl | hn
      · exact .inl (.leaf mem_cons_self hblob hnew)
      · exact .inr (.leaf hn hblob hnew)
    | sub hn htree hnew hsub =>
      rcases mem_cons.mp hn with rfl | hn
      · exact .inl (.sub mem_cons_self htree hnew hsub)
      · exact .inr (.sub hn htree hnew hsub)
  · intro hc
    rcases hc with hc | hc
    · cases hc with
      | leaf hn hblob hnew =>
        obtain rfl := mem_singleton.mp hn
        exact .leaf mem_cons_self hblob hnew
      | sub hn htree hnew hsub =>
        obtain rfl := mem_singleton.mp hn
        exact .sub mem_cons_self htree hnew hsub
    cases hc with
    | leaf hn hblob hnew => exact .leaf (mem_cons_of_mem _ hn) hblob hnew
    | sub hn htree hnew hsub => exact .sub (mem_cons_of_mem _ hn) htree hnew hsub

theorem not_cand_nil : ¬ Cand entries [] olds dir c := by
  intro hc
  cases hc with
  | leaf hn _ _ | sub hn _ _ _ => cases hn

theorem Cand.path_under (h : Cand entries news olds dir c) : ∃ p, c.path = dir ++ p := by
  induction h with
  | leaf _ _ _ => exact ⟨_, rfl⟩
  | sub _ _ _ _ ih =>
    obtain ⟨p, hp⟩ := ih
    exact ⟨_, by rw [hp, append_assoc, append_assoc]⟩

theorem Cand.path_through (h : Cand entries [n] olds dir c) : ∃ p, c.path = dir ++ (n.name ++ p) ∧
      if n.kind.isTree then ∃ r, p = slash :: r else p = [] := by
  cases h with
  | leaf hn hblob _ =>
    obtain rfl := mem_singleton.mp hn
    refine ⟨[], by rw [append_nil], ?_⟩
    rw [isTree_of_isBlobLike hblob]
    exact rfl
  | sub hn htree _ hsub =>
    obtain rfl := mem_singleton.mp hn
    obtain ⟨p, hp⟩ := hsub.path_under
    refine ⟨slash :: p, by rw [hp]; simp, ?_⟩
    rw [htree]
    exact ⟨p, rfl⟩

theorem exists_cand_singleton (h : Cand entries news olds dir c) :
    ∃ n ∈ news, Cand entries [n] olds dir c := by
  cases h with
  | leaf hn hb hne => exact ⟨_, hn, .leaf mem_cons_self hb hne⟩
  | sub hn ht hne hs => exact ⟨_, hn, .sub mem_cons_self ht hne hs⟩

theorem cand_before (hn : CleanName n.name) (hne : ∀ m ∈ news, CleanName m.name)
    (hl : ∀ m ∈ news, sortKey n < sortKey m) (h : Cand entries [n] olds dir c)
    (h' : Cand entries news olds' dir c') : c.path < c'.path := by
  obtain ⟨m, hm, h'⟩ := exists_cand_singleton h'
  obtain ⟨_, hp, hf⟩ := h.path_through
  obtain ⟨_, hq, hfq⟩ := h'.path_through
  rw [hp, hq]
  exact append_lt_append (path_lt hn (hne m hm) hf hfq (hl m hm))

end Contribution

end GossipRs.Git
