import GossipRs.Git.TreeDiffExact

/-! # The difference of two trees, path by path -/

namespace GossipRs.Git

open Lib List

variable {path : Bytes} {olds : List TreeEntry}

section Paths

variable {env : DiffEnv} {entries : OidBytes → List TreeEntry} {has : OidBytes → Prop}

inductive EntryIn (entries : OidBytes → List TreeEntry) : List TreeEntry → Bytes → TreeEntry → Prop
  | here {es : List TreeEntry} {e : TreeEntry} : e ∈ es → EntryIn entries es e.name e
  | inside {es : List TreeEntry} {d e : TreeEntry} {path : Bytes} :
      d ∈ es → d.kind.isTree = true → EntryIn entries (entries d.oid) path e →
      EntryIn entries es (d.name ++ slash :: path) e

def BlobAt (entries : OidBytes → List TreeEntry) (es : List TreeEntry) (path : Bytes)
    (e : TreeEntry) : Prop :=
  EntryIn entries es path e ∧ e.kind.isBlobLike = true

def PathChange (entries : OidBytes → List TreeEntry) (news olds : List TreeEntry) (path : Bytes)
    (c : DiffCandidate) : Prop :=
  ∃ e, BlobAt entries news path e ∧ c.oid = e.oid ∧ c.mode = e.mode % 2 ^ 16 ∧
    (∀ o, BlobAt entries olds path o → o.oid ≠ e.oid) ∧
    (c.changeKind = .modify ↔ ∃ o, BlobAt entries olds path o)

/-- Names in a tree are as the parser accepts them, and tell its entries apart. -/
structure Named (has : OidBytes → Prop) (es : List TreeEntry) : Prop where
  clean : ∀ e ∈ es, CleanName e.name
  nodup : (es.map TreeEntry.name).Nodup
  closed : ∀ e ∈ es, e.kind.isTree = true → has e.oid

theorem named_nil : Named has [] :=
  ⟨fun e he => (by cases he), nodup_nil, fun e he => (by cases he)⟩

theorem WellFormedStore.named (hwf : WellFormedStore env entries has) (ht : has t) :
    Named has (entries t) :=
  ⟨(hwf.side ht).clean, hwf.nodup t ht, hwf.closed t ht⟩

theorem WellFormedStore.named_sideOf (hwf : WellFormedStore env entries has)
    (ho : ∀ t, o = some t → has t) : Named has (Git.sideOf entries o) := by
  cases o with
  | none => exact named_nil
  | some t => exact hwf.named (ho t rfl)

theorem Named.eq_of_name (h : Named has es) (ha : a ∈ es) (hb : b ∈ es) (hn : a.name = b.name) :
    a = b :=
  inj_on_of_nodup_map h.nodup ha hb hn

theorem slash_split {a b p q : Bytes} (ha : slash ∉ a) (hb : slash ∉ b)
    (h : a ++ slash :: p = b ++ slash :: q) : a = b ∧ p = q := by
  induction a generalizing b with
  | nil =>
    cases b with
    | nil => exact ⟨rfl, (List.cons.inj h).2⟩
    | cons y b => exact absurd ((List.cons.inj h).1 ▸ mem_cons_self) hb
  | cons x a ih =>
    cases b with
    | nil => exact absurd ((List.cons.inj h).1 ▸ mem_cons_self) ha
    | cons y b =>
      obtain ⟨hx, hr⟩ := List.cons.inj h
      obtain ⟨hab, hp⟩ := ih (fun hm => ha (mem_cons_of_mem _ hm))
        (fun hm => hb (mem_cons_of_mem _ hm)) hr
      exact ⟨by rw [hx, hab], hp⟩

theorem entryIn_name_iff (hn : slash ∉ name) :
    EntryIn entries es name e ↔ e ∈ es ∧ e.name = name := by
  constructor
  · intro h
    cases h with
    | here he => exact ⟨he, rfl⟩
    | inside _ _ _ => exact absurd (mem_append_right _ mem_cons_self) hn
  · rintro ⟨he, rfl⟩
    exact .here he

theorem entryIn_below_iff (hes : ∀ e ∈ es, CleanName e.name) (hna : slash ∉ name) :
    EntryIn entries es (name ++ slash :: path) e ↔
      ∃ d ∈ es, d.name = name ∧ d.kind.isTree = true ∧ EntryIn entries (entries d.oid) path e := by
  constructor
  · intro h
    generalize hf : name ++ slash :: path = full at h
    cases h with
    | here he =>
      exact absurd (hf ▸ mem_append_right _ mem_cons_self) (hes e he).1
    | inside hd ht hin =>
      rename_i d p
      obtain ⟨hn, hp⟩ := slash_split hna (hes d hd).1 hf
      exact ⟨d, hd, hn.symm, ht, hp ▸ hin⟩
  · rintro ⟨d, hd, rfl, ht, hin⟩
    exact .inside hd ht hin

theorem entryIn_oldSub_iff (h : Named has olds) (hn : CleanName n.name) :
    EntryIn entries (oldSub entries olds n) path o ↔
      EntryIn entries olds (n.name ++ slash :: path) o := by
  rw [entryIn_below_iff h.clean hn.1, oldSub]
  cases hf : olds.find? fun o => decide (o.name = n.name) && o.kind.isTree with
  | none =>
    constructor
    · intro hin
      cases hin with
      | here he => cases he
      | inside hd => cases hd
    rintro ⟨d, hd, hna, ht, -⟩
    have := List.find?_eq_none.mp hf d hd
    rw [hna, ht, decide_eq_true rfl] at this
    exact absurd rfl this
  | some d =>
    have hd := List.mem_of_find?_eq_some hf
    have hp := List.find?_some hf
    rw [Bool.and_eq_true, decide_eq_true_iff] at hp
    constructor
    · exact fun hin => ⟨d, hd, hp.1, hp.2, hin⟩
    rintro ⟨_, hd', hna, -, hin⟩
    rw [h.eq_of_name hd hd' (hp.1.trans hna.symm)]
    exact hin

theorem WellFormedStore.named_oldSub (hwf : WellFormedStore env entries has) (h : Named has olds)
    (n : TreeEntry) : Named has (oldSub entries olds n) := by
  rw [oldSub]
  cases hf : olds.find? fun o => decide (o.name = n.name) && o.kind.isTree with
  | none => exact named_nil
  | some d =>
    have hp := List.find?_some hf
    rw [Bool.and_eq_true] at hp
    exact hwf.named (h.closed d (List.mem_of_find?_eq_some hf) hp.2)

theorem changeOf_eq_modify_iff (hn : CleanName n.name) :
    changeOf olds n = .modify ↔ ∃ o, BlobAt entries olds n.name o := by
  have hif : (olds.any fun o => decide (o.name = n.name) && o.kind.isBlobLike) = true ↔
      ∃ o, BlobAt entries olds n.name o := by
    rw [any_eq_true]
    constructor
    · rintro ⟨o, ho, hp⟩
      rw [Bool.and_eq_true, decide_eq_true_iff] at hp
      exact ⟨o, (entryIn_name_iff hn.1).mpr ⟨ho, hp.1⟩, hp.2⟩
    rintro ⟨o, hin, hb⟩
    obtain ⟨ho, hna⟩ := (entryIn_name_iff hn.1).mp hin
    exact ⟨o, ho, by rw [hna, hb, decide_eq_true rfl]; rfl⟩
  rw [← hif, changeOf]
  split
  · exact iff_of_true rfl ‹_›
  · exact iff_of_false (fun h => by cases h) ‹_›

theorem ChangeKind.eq_of_modify_iff {a b : ChangeKind} (h : a = .modify ↔ b = .modify) : a = b := by
  cases a with
  | add =>
    cases b with
    | add => rfl
    | modify => exact h.mpr rfl
  | modify => exact (h.mp rfl).symm

theorem blobAt_oldSub_iff (h : Named has olds) (hn : CleanName n.name) :
    BlobAt entries (oldSub entries olds n) path o ↔
      BlobAt entries olds (n.name ++ slash :: path) o :=
  and_congr_left' (entryIn_oldSub_iff h hn)

section

variable (hwf : WellFormedStore env entries has)

include hwf

theorem Cand.pathChange (h : Cand entries news olds dir c) (hne : Named has news)
    (holds : Named has olds) :
    ∃ path, c.path = dir ++ path ∧ PathChange entries news olds path c := by
  induction h with
  | @leaf news olds dir n hn hb hno =>
    have hc := hne.clean n hn
    refine ⟨n.name, rfl, n, ⟨.here hn, hb⟩, rfl, rfl, fun o ho => ?_, changeOf_eq_modify_iff hc⟩
    obtain ⟨hme, hna⟩ := (entryIn_name_iff hc.1).mp ho.1
    exact hno o hme hna ho.2
  | @sub news olds dir n c hn ht _ _ ih =>
    obtain ⟨path, hp, e, he, hoi, hm, hno, hk⟩ :=
      ih (hwf.named (hne.closed n hn ht)) (hwf.named_oldSub holds n)
    have hc := hne.clean n hn
    refine ⟨n.name ++ slash :: path, ?_, e, ⟨.inside hn ht he.1, he.2⟩, hoi, hm,
      fun o ho => hno o ((blobAt_oldSub_iff holds hc).mpr ho),
      hk.trans (exists_congr fun o => blobAt_oldSub_iff holds hc)⟩
    rw [hp, append_assoc, append_assoc, singleton_append]

theorem cand_of_pathChange (hn : Named has news) (holds : Named has olds)
    (hp : c.path = dir ++ path) (h : PathChange entries news olds path c) :
    Cand entries news olds dir c := by
  obtain ⟨e, ⟨hin, hbl⟩, hoi, hm, hno, hk⟩ := h
  -- down the new tree along the path
  induction hin generalizing olds dir with
  | @here news e he =>
    have hcl := hn.clean e he
    have hc : c = ⟨e.oid, dir ++ e.name, changeOf olds e, e.mode % 2 ^ 16⟩ := by
      rw [← ChangeKind.eq_of_modify_iff (hk.trans (changeOf_eq_modify_iff hcl).symm), ← hp,
        ← hoi, ← hm]
    rw [hc]
    exact .leaf he hbl fun o ho hna hb =>
      hno o ⟨(entryIn_name_iff hcl.1).mpr ⟨ho, hna⟩, hb⟩
  | @inside news d e path hd htree hin ih =>
    have hcl := hn.clean d hd
    refine .sub hd htree (fun o ho hna ht heq => ?_)
      (ih (hwf.named (hn.closed d hd htree)) (hwf.named_oldSub holds d) ?_ hbl hoi hm
        (fun o ho => hno o ((blobAt_oldSub_iff holds hcl).mp ho))
        (hk.trans (exists_congr fun o => (blobAt_oldSub_iff holds hcl).symm)))
    · -- equal subtrees have the same blob at the path
      refine hno e ⟨(entryIn_below_iff holds.clean hcl.1).mpr ⟨o, ho, hna, ht, ?_⟩, hbl⟩ rfl
      rw [heq]
      exact hin
    · rw [hp, append_assoc, append_assoc, singleton_append]

theorem cand_iff_pathChange (hne : ∀ t, new = some t → has t) (hol : ∀ t, old = some t → has t) :
    Cand entries (sideOf entries new) (sideOf entries old) [] c ↔
      PathChange entries (sideOf entries new) (sideOf entries old) c.path c := by
  have hn := hwf.named_sideOf hne
  have ho := hwf.named_sideOf hol
  refine ⟨fun h => ?_, cand_of_pathChange hwf hn ho rfl⟩
  obtain ⟨path, hp, hc⟩ := h.pathChange hwf hn ho
  rw [hp, nil_append]
  exact hc

theorem startDiff_inv (hn : ∀ t, new = some t → has t) (hol : ∀ t, old = some t → has t)
    (h : startDiff env inFlight new old = .ok s0) :
    ∃ ls, DiffInv env entries has ⟨sideOf entries new, sideOf entries old, []⟩ s0 ls := by
  rw [startDiff] at h
  rcases @pushFrame_spec old (cleanupAfterDiffCall ⟨[], inFlight, [], 0⟩) [] env entries has hwf new
    hn hol with ⟨err, he, -⟩ | ⟨s', f, he, hf, ho, ha⟩
  · rw [he] at h
    cases h
  rw [he] at h
  obtain rfl := Except.ok.inj h
  have ho : s'.out = [] := ho
  refine ⟨[⟨sideOf entries new, sideOf entries old, []⟩], ?_⟩
  refine
    { frameAt := by rw [hf]; exact .cons ha .nil
      ok := fun l hl => by
        rw [mem_singleton.mp hl]
        exact ⟨hwf.sideOf hn, hwf.sideOf hol⟩
      covers := fun c => ⟨fun hc => .inr ⟨_, mem_cons_self, hc⟩, fun hc => ?_⟩
      ordered := by rw [ho]; exact List.Pairwise.nil
      before := fun l _ c hc => by rw [ho] at hc; cases hc
      stack := pairwise_singleton _ _ }
  rcases hc with hc | ⟨l, hl, hc⟩
  · rw [ho] at hc
    cases hc
  · rw [mem_singleton.mp hl] at hc
    exact hc

end

end Paths

/-! A store read through the stream: the file `d/f` differs between the roots 1 and 5, and they
share the tree `s`. -/

theorem flat_length (b : UInt8) :
    (List.replicate 20 b).length = 20 ∨ (List.replicate 20 b).length = 32 :=
  .inl length_replicate

def flatOid (b : UInt8) : OidBytes := ⟨List.replicate 20 b, flat_length b⟩

def dirEntry (name oid : UInt8) : TreeEntry := ⟨[name], .tree, 0o40000, flatOid oid⟩

def fileEntry (oid : UInt8) : TreeEntry := ⟨[102], .regularFile, 0o100644, flatOid oid⟩

def nestedEntries (t : OidBytes) : List TreeEntry :=
  if t = flatOid 1 then [dirEntry 100 2, dirEntry 115 4]
  else if t = flatOid 5 then [dirEntry 100 6, dirEntry 115 4]
  else if t = flatOid 2 then [fileEntry 3]
  else if t = flatOid 6 then [fileEntry 7]
  else [fileEntry 8]

def entryText (e : TreeEntry) : Bytes :=
  (if e.kind.isTree then [52, 48, 48, 48, 48] else [49, 48, 48, 54, 52, 52]) ++
    32 :: e.name ++ 0 :: e.oid.bytes

def nestedEnv : DiffEnv where
  oidLen := 20
  streamThreshold := 16
  maxDepth := 256
  treeBytesInFlightLimit := 1024
  loadTree t := .ok ⟨(nestedEntries t).flatMap entryText, false⟩
  sinkFull _ := none
  aborted _ := false

def nestedTrees : List OidBytes := [flatOid 1, flatOid 2, flatOid 4, flatOid 5, flatOid 6]

theorem parsesTo_dirs (a b : UInt8) (h : parseEntry 20 ([dirEntry 100 a, dirEntry 115 b].flatMap
      entryText) = .ok (.complete (dirEntry 100 a) 28))
    (h' : parseEntry 20 ([dirEntry 115 b].flatMap entryText) =
      .ok (.complete (dirEntry 115 b) 28)) :
    ParsesTo 20 ([dirEntry 100 a, dirEntry 115 b].flatMap entryText)
      [dirEntry 100 a, dirEntry 115 b] :=
  .cons h (by decide) (.cons h' (by decide) .nil)

theorem parsesTo_file (a : UInt8) (h : parseEntry 20 ([fileEntry a].flatMap entryText) =
      .ok (.complete (fileEntry a) 29)) :
    ParsesTo 20 ([fileEntry a].flatMap entryText) [fileEntry a] :=
  .cons h (by decide) .nil

theorem nested_wellFormed : WellFormedStore nestedEnv nestedEntries (· ∈ nestedTrees) where
  loads t ht := by
    refine ⟨_, rfl, ?_⟩
    fin_cases ht
    · exact parsesTo_dirs 2 4 rfl rfl
    · exact parsesTo_file 3 rfl
    · exact parsesTo_file 8 rfl
    · exact parsesTo_dirs 6 4 rfl rfl
    · exact parsesTo_file 7 rfl
  sorted := by decide
  nodup := by decide
  closed := by decide

end GossipRs.Git
