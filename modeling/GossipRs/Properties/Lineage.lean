import GossipRs.Properties.Fencing

/-! Lineage. Parents and spawned lists agree, every shard descends from a registered root, and
statuses only move forward, except for unparking under a new fence. Of derived ids only this is
taken for granted: a shard never derives its own. -/

namespace GossipRs

open Lib Stdx List

variable {env : Env} {s s' : Coordinator} {tenant : TenantId} {key : ShardKey}

def NoSelfDerivation (env : Env) : Prop :=
  ∀ run parent op kind index, deriveSplitShardId env run parent op kind index ≠ parent

def ShardEvent.childIds (env : Env) (r : RecordView) (event : ShardEvent) : List ShardId :=
  (event.children env r).map Prod.fst

structure RecordStep.Lineage (env : Env) (r : RecordView) (event : ShardEvent) (r' : RecordView) :
    Prop where
  run : r'.run = r.run
  shard : r'.shard = r.shard
  parent : r'.parent = r.parent
  spawned : r'.spawned = r.spawned ++ event.childIds env r

variable {r r' : RecordView} {event : ShardEvent}

theorem RecordStep.lineage (h : RecordStep env tenant key r event r') :
    RecordStep.Lineage env r event r' := by
  cases h with
  | granted | renewed => exact ⟨rfl, rfl, rfl, (append_nil _).symm⟩
  | checkpointed _ _ hlog | completed _ _ hlog | parked _ hlog | unparked _ _ _ hlog =>
    obtain ⟨entry, rfl⟩ := hlog.eq
    exact ⟨rfl, rfl, rfl, (append_nil _).symm⟩
  | splitReplaced hready hlog =>
    obtain ⟨entry, rfl⟩ := hlog.eq
    refine ⟨rfl, rfl, rfl, ?_⟩
    unfold ShardEvent.childIds ShardEvent.children
    rw [map_fst_zip (by rw [View.length_childIds, length_splitChildOrder])]
    rfl
  | splitResidual hready hscan hlog =>
    obtain ⟨entry, rfl⟩ := hlog.eq
    exact ⟨rfl, rfl, rfl, rfl⟩

theorem RecordStep.childIds_ne (hf : NoSelfDerivation env)
    (h : RecordStep env tenant key r event r') : ∀ id ∈ event.childIds env r, id ≠ r.shard := by
  intro id hid
  cases h with
  | splitReplaced hready hlog =>
    obtain ⟨_, hn, rfl⟩ := mem_map.mp hid
    obtain ⟨_, -, hi⟩ := mem_map.mp (of_mem_zip hn).1
    rw [← hi]
    exact hf _ _ _ _ _
  | splitResidual hready hscan hlog =>
    rw [mem_singleton.mp hid]
    exact hf _ _ _ _ _
  | granted | renewed | checkpointed | completed | parked | unparked => cases hid

variable {label : Label}

variable {run : RunId} {record : RunRecord}

namespace View

variable {t t' : View}

def IsParent (t : View) (tenant : TenantId) (parent child : ShardKey) : Prop :=
  ∃ r, t.getShard tenant child = some r ∧ r.parent = some parent.shard ∧ child.run = parent.run

inductive Rooted (t : View) (tenant : TenantId) : ShardKey → Prop where
  | root {key : ShardKey} {r : RecordView} {run : RunRecord}
      (hget : t.getShard tenant key = some r) (hparent : r.parent = none)
      (hrun : t.runs.lookup (tenant, key.run) = some run) (hmem : key.shard ∈ run.rootShards) :
      Rooted t tenant key
  | child {parent key : ShardKey} (hparent : t.IsParent tenant parent key)
      (h : Rooted t tenant parent) : Rooted t tenant key

structure Lineage (t : View) : Prop where
  keyed : ∀ tenant key r, t.getShard tenant key = some r → (⟨r.run, r.shard⟩ : ShardKey) = key
  runs : ∀ tenant run r, t.runs.lookup (tenant, run) = some r → r.Invariant
  parents : ∀ tenant key r p, t.getShard tenant key = some r → r.parent = some p →
    ∃ parent, t.getShard tenant ⟨key.run, p⟩ = some parent ∧ parent.spawned.count key.shard = 1
  spawned : ∀ tenant key r, t.getShard tenant key = some r → ∀ id ∈ r.spawned,
    ∃ child, t.getShard tenant ⟨key.run, id⟩ = some child ∧ child.parent = some key.shard
  rooted : ∀ tenant key, (t.getShard tenant key).isSome → t.Rooted tenant key

theorem Effect.child_stored (hf : NoSelfDerivation env)
    (h : Effect env t (.shard tenant key event) t') (hg : t.getShard tenant key = some r)
    (hk : (⟨r.run, r.shard⟩ : ShardKey) = key) (hnew : new ∈ event.children env r) :
    t.getShard tenant ⟨key.run, new.1⟩ = none ∧
      t'.getShard tenant ⟨key.run, new.1⟩ = some (r.child tenant new).2 := by
  subst hk
  cases h with
  | @inPlace _ _ _ r1 r1' cooldowns hg1 hstep hchildren =>
    rw [hg] at hg1
    cases hg1
    rw [hchildren] at hnew
    cases hnew
  | @split _ _ _ r1 r1' _ hg1 hstep hsplit =>
    rw [hg] at hg1
    cases hg1
    have hne := hstep.childIds_ne hf new.1 (mem_map_of_mem hnew)
    have ho : ¬ (tenant = tenant ∧ (⟨r.run, new.1⟩ : ShardKey) = ⟨r.run, r.shard⟩) :=
      fun hs => hne (congrArg ShardKey.shard hs.2)
    have he := mem_map_of_mem (f := r.child tenant) hnew
    constructor
    · have hn := hsplit.new.getShard_eq_none _ he
      rw [Tables.getShard_dropShard] at hn
      rw [← hn]
      exact (if_neg ho).symm
    · rw [hsplit.result, Tables.getShard_putShard, if_neg ho, Tables.getShard_indexShards]
      exact hsplit.new.getShard_putShards.mpr (.inl ⟨rfl, he⟩)

theorem Effect.nodup_childIds (h : Effect env t (.shard tenant key event) t')
    (hg : t.getShard tenant key = some r) : (event.childIds env r).Nodup := by
  cases h with
  | @inPlace _ _ _ r1 r1' cooldowns hg1 hstep hchildren =>
    rw [hg] at hg1
    cases hg1
    unfold ShardEvent.childIds
    rw [hchildren]
    exact nodup_nil
  | @split _ _ _ r1 r1' _ hg1 hstep hsplit =>
    rw [hg] at hg1
    cases hg1
    have hn := hsplit.new.nodup
    rw [map_map] at hn
    have hm : (Prod.fst ∘ r.child tenant : ShardId × SplitReplaceChild → ShardKey) =
        ShardKey.mk r.run ∘ Prod.fst := rfl
    rw [hm, ← map_map] at hn
    exact hn.of_map _

theorem Effect.children (hf : NoSelfDerivation env)
    (h : Effect env t (.shard tenant key event) t') (hg : t.getShard tenant key = some r)
    (hk : (⟨r.run, r.shard⟩ : ShardKey) = key) : ∀ id ∈ event.childIds env r,
      t.getShard tenant ⟨key.run, id⟩ = none ∧
      ∃ child, t'.getShard tenant ⟨key.run, id⟩ = some child ∧ child.parent = some key.shard := by
  intro id hid
  obtain ⟨_, hne, rfl⟩ := mem_map.mp hid
  obtain ⟨hn, hs⟩ := h.child_stored hf hg hk hne
  exact ⟨hn, _, hs, congrArg (fun k : ShardKey => some k.shard) hk⟩

theorem SplitInto.runs (h : SplitInto env tenant key event r r' t t') : t'.runs = t.runs := by
  rw [h.result]
  rw [Tables.indexShards_eq]
  exact Tables.runs_putShards _

theorem Effect.run_successor (h : Effect env t label t')
    (hg : t.runs.lookup (tenant, run) = some record) :
    ∃ record', t'.runs.lookup (tenant, run) = some record' ∧
      (record' = record ∨ record'.status ≠ .initializing ∧
        (record.status = .initializing ∨ record'.rootShards = record.rootShards)) := by
  -- A change of one run leaves the others.
  have other : ∀ {at1 : TenantId × RunId} {r' : RunRecord}, (tenant, run) ≠ at1 →
      (t.runs.insert at1 r').lookup (tenant, run) = some record := by
    intro at1 r' hne
    rw [FMap.lookup_insert_eq, if_neg hne, hg]
  cases h with
  | quiet | inPlace => exact ⟨record, hg, .inl rfl⟩
  | split hrecord hstep hsp => exact ⟨record, hsp.runs ▸ hg, .inl rfl⟩
  | @created now tenant1 run1 config hn hinv =>
    refine ⟨record, other ?_, .inl rfl⟩
    intro he
    rw [he, hn] at hg
    cases hg
  | @registered now tenant1 run1 shards opId r r' hr htenant hin hmanifest hlimits hn hinv
      hlog =>
    by_cases he : (tenant, run) = (tenant1, run1)
    · rw [he, hr] at hg
      cases hg
      obtain ⟨entry, -, -, -, -, -, rfl⟩ := hlog.entry
      rw [he]
      exact ⟨_, Finmap.lookup_insert _, .inr ⟨nofun, .inl hin⟩⟩
    · exact ⟨record, other he, .inl rfl⟩
  | @finished now tenant1 run1 kind opId status payload r r' hk hr htenant hrunning hlog =>
    by_cases he : (tenant, run) = (tenant1, run1)
    · rw [he, hr] at hg
      cases hg
      obtain ⟨entry, -, -, -, -, -, rfl⟩ := hlog.entry
      rw [he]
      refine ⟨_, Finmap.lookup_insert _, .inr ⟨fun hsa => ?_, .inr rfl⟩⟩
      have hs : status = .initializing := hsa
      rw [hs] at hk
      cases kind <;> cases hk
    · exact ⟨record, other he, .inl rfl⟩

theorem Effect.rootShards (hl : t.Lineage) (h : Effect env t label t')
    (hg : t.runs.lookup (tenant, run) = some record) {id} (hid : id ∈ record.rootShards) :
    ∃ record', t'.runs.lookup (tenant, run) = some record' ∧ id ∈ record'.rootShards := by
  obtain ⟨record', hg', rfl | ⟨-, hin | hr⟩⟩ := h.run_successor hg
  · exact ⟨record', hg', hid⟩
  · rw [(hl.runs _ _ _ hg).initializing_roots hin] at hid
    cases hid
  · exact ⟨record', hg', hr ▸ hid⟩

theorem Effect.registered_roots
    (h : Effect env t (.run tenant run (.registered now shards opId)) t') :
    ∃ record, t'.runs.lookup (tenant, run) = some record ∧
      record.rootShards = shards.map InitialShardInput.shard := by
  cases h with
  | registered hrun htenant hinit hmanifest hlimits hnew hinv hlog =>
    obtain ⟨entry, -, -, -, -, -, rfl⟩ := hlog.entry
    exact ⟨_, Finmap.lookup_insert _, rfl⟩

theorem Effect.runs_invariant (hli : t.Lineage) (h : Effect env t label t')
    (hg : t'.runs.lookup (tenant, run) = some record) : record.Invariant := by
  -- Either the run was there before, or it is the one that was checked.
  have insert : ∀ {at1 : TenantId × RunId} {r' : RunRecord}, r'.Invariant →
      (t.runs.insert at1 r').lookup (tenant, run) = some record → record.Invariant := by
    intro at1 r' hr' hl
    rw [FMap.lookup_insert_eq] at hl
    split at hl
    · cases hl
      exact hr'
    · exact hli.runs _ _ _ hl
  cases h with
  | quiet | inPlace cooldowns hrecord hstep hchildren => exact hli.runs _ _ _ hg
  | split hrecord hstep hsplit =>
    rw [hsplit.runs] at hg
    exact hli.runs _ _ _ hg
  | created hnew hinv => exact insert hinv hg
  | registered hrun htenant hinit hmanifest hlimits hnew hinv hlog
  | finished hkind hrun htenant hrunning hlog =>
    exact insert hlog.invariant hg

theorem Effect.parent_eq (h : Effect env t label t') (hg : t.getShard tenant key = some r) :
    ∃ r', t'.getShard tenant key = some r' ∧ r'.parent = r.parent := by
  obtain ⟨r', hg', ⟨rfl, -⟩ | ⟨_, -, hs⟩⟩ := h.successor hg
  · exact ⟨_, hg', rfl⟩
  · exact ⟨r', hg', hs.lineage.parent⟩

theorem Effect.isParent (h : Effect env t label t') (hp : t.IsParent tenant parent child) :
    t'.IsParent tenant parent child := by
  obtain ⟨_, hg, hr, hru⟩ := hp
  obtain ⟨r', hg', he⟩ := h.parent_eq hg
  exact ⟨r', hg', he.trans hr, hru⟩

theorem Effect.rooted (hl : t.Lineage) (h : Effect env t label t')
    (hr : t.Rooted tenant key) : t'.Rooted tenant key := by
  induction hr with
  | root hget hparent hrun hmem =>
    obtain ⟨_, hg', he⟩ := h.parent_eq hget
    obtain ⟨_, hr', hm'⟩ := h.rootShards hl hrun hmem
    exact .root hg' (he.trans hparent) hr' hm'
  | child hparent _ ih => exact .child (h.isParent hparent) ih

theorem Effect.count_spawned (hf : NoSelfDerivation env) (hl : t.Lineage)
    (h : Effect env t label t') (hc : (t.getShard tenant child).isSome)
    (hp : t.getShard tenant ⟨child.run, p⟩ = some parent)
    (hco : parent.spawned.count child.shard = 1) :
    ∃ parent', t'.getShard tenant ⟨child.run, p⟩ = some parent' ∧
      parent'.spawned.count child.shard = 1 := by
  obtain ⟨parent', hg', ⟨rfl, -⟩ | ⟨event, rfl, hs⟩⟩ := h.successor hp
  · exact ⟨_, hg', hco⟩
  refine ⟨parent', hg', ?_⟩
  have hn := h.children hf hp (hl.keyed _ _ _ hp)
  have ha : child.shard ∉ event.childIds env parent := by
    intro hm
    rw [(hn _ hm).1] at hc
    cases hc
  rw [hs.lineage.spawned, count_append, hco, count_eq_zero_of_not_mem ha]

theorem Effect.lineage (hf : NoSelfDerivation env) (hl : t.Lineage)
    (h : Effect env t label t') : t'.Lineage := by
  -- Children known before the change are still there.
  have oldChild : ∀ {tenant key r}, t.getShard tenant key = some r → ∀ id ∈ r.spawned,
      ∃ child, t'.getShard tenant ⟨key.run, id⟩ = some child ∧ child.parent = some key.shard := by
    intro tenant key r hg id hid
    obtain ⟨child, hc, hpa⟩ := hl.spawned _ _ _ hg id hid
    obtain ⟨child', hc', he⟩ := h.parent_eq hc
    exact ⟨child', hc', he.trans hpa⟩
  have oldParent : ∀ {tenant key r p}, t.getShard tenant key = some r → r.parent = some p →
      ∃ parent, t'.getShard tenant ⟨key.run, p⟩ = some parent ∧
        parent.spawned.count key.shard = 1 := by
    intro tenant key r p hg hp
    obtain ⟨parent, hpa, hco⟩ := hl.parents _ _ _ p hg hp
    exact h.count_spawned hf hl (by rw [hg]; rfl) hpa hco
  refine ⟨?_, fun tenant run r hg => h.runs_invariant hl hg, ?_, ?_, ?_⟩
  · intro tenant key r hg
    cases h.origin hg with
    | kept hbefore ho => exact hl.keyed _ _ _ hbefore
    | stepped hbefore hs =>
      rw [hs.lineage.run, hs.lineage.shard]
      exact hl.keyed _ _ _ hbefore
    | root hrun hmanifest hmem hinv hkey hnew | child hbefore hs hmem hinv hkey hne hnew =>
      exact hkey.symm
  · intro tenant key r p hg hp
    cases h.origin hg with
    | kept hbefore ho => exact oldParent hbefore hp
    | stepped hbefore hs =>
      rw [hs.lineage.parent] at hp
      exact oldParent hbefore hp
    | root hrun hmanifest hmem hinv hkey hnew => cases hp
    | @child parentKey event r0 r0' new hbefore hs hmem hinv hkey hne hnew =>
      cases hp
      have hpk := hl.keyed _ _ _ hbefore
      obtain ⟨r1, hg1, ⟨-, ho⟩ | ⟨_, he, hs1⟩⟩ := h.successor hbefore
      · exact absurd rfl (ho event)
      cases he
      subst hkey hpk
      have hids := h.children hf hbefore rfl
      have hid : new.1 ∈ event.childIds env r0 := mem_map_of_mem hmem
      refine ⟨r1, hg1, ?_⟩
      have hol : new.1 ∉ r0.spawned := by
        intro hsp
        obtain ⟨child, hc, -⟩ := hl.spawned _ _ _ hbefore _ hsp
        have hn := (hids _ hid).1
        rw [hc] at hn
        cases hn
      show List.count new.1 r1.spawned = 1
      rw [hs1.lineage.spawned, count_append, count_eq_zero_of_not_mem hol,
        count_eq_one_of_mem (h.nodup_childIds hbefore) hid]
  · intro tenant key r hg id hid
    cases h.origin hg with
    | kept hbefore ho => exact oldChild hbefore id hid
    | @stepped event r0 _ hbefore hs =>
      rw [hs.lineage.spawned] at hid
      rcases mem_append.mp hid with hol | hnew
      · exact oldChild hbefore id hol
      · exact (h.children hf hbefore (hl.keyed _ _ _ hbefore) id hnew).2
    | root | child => cases hid
  · intro tenant key hso
    obtain ⟨r, hg⟩ := Option.isSome_iff_exists.mp hso
    cases h.origin hg with
    | kept hbefore ho | stepped hbefore hs =>
      exact h.rooted hl (hl.rooted _ _ (by rw [hbefore]; rfl))
    | @root now run shards opId record input hrun hmanifest hmem hinv hkey hnew =>
      obtain ⟨_, hr', hr⟩ := h.registered_roots
      subst hkey
      refine .root hg rfl hr' ?_
      rw [hr]
      exact mem_map_of_mem hmem
    | @child parentKey event r0 r0' new hbefore hs hmem hinv hkey hne hnew =>
      have hpk := hl.keyed _ _ _ hbefore
      subst hkey hpk
      have hpa : t'.IsParent tenant ⟨r0.run, r0.shard⟩ (r0.child tenant new).1 :=
        ⟨_, hg, rfl, rfl⟩
      exact .child hpa (h.rooted hl (hl.rooted _ _ (by rw [hbefore]; rfl)))

theorem Trace.lineage (hf : NoSelfDerivation env) (h : View.Trace env trace t) : t.Lineage := by
  refine Trace.invariant (fun config => ?_) (fun t label t' ht he => he.lineage hf ht) h
  exact ⟨fun _ _ _ hn => (by cases hn), fun _ _ _ hn => (by cases hn),
    fun _ _ _ _ hn => (by cases hn), fun _ _ _ hn => (by cases hn),
    fun _ _ hn => (by cases hn)⟩

theorem Rooted.acc (h : t.Rooted tenant key) : Acc (t.IsParent tenant) key := by
  induction h with
  | root hg hparent hru hmem =>
    refine ⟨_, fun parent hp => ?_⟩
    obtain ⟨r, hg', hr, -⟩ := hp
    rw [hg] at hg'
    cases hg'
    rw [hparent] at hr
    cases hr
  | @child parent key hparent _ ih =>
    refine ⟨_, fun parent' hp => ?_⟩
    obtain ⟨r, hg, hr, hru⟩ := hparent
    obtain ⟨_, hg', hr', hru'⟩ := hp
    rw [hg] at hg'
    cases hg'
    have hs : parent' = parent := by
      rw [hr] at hr'
      cases parent
      cases parent'
      cases hr'
      exact congrArg₂ ShardKey.mk (hru'.symm.trans hru) rfl
    rw [hs]
    exact ih

end View

inductive StatusMove (event : ShardEvent) (r r' : RecordView) : Prop where
  | same (h : r'.status = r.status)
  | finished (hactive : r.status = .active)
      (h : r'.status = .done ∨ r'.status = .split ∨ r'.status = .parked)
  | unparked {now : LogicalTime} {opId : OpId} (hevent : event = .unparked now opId)
      (hparked : r.status = .parked) (h : r'.status = .active)
      (hfence : r.fenceEpoch < r'.fenceEpoch)

theorem RecordStep.statusMove (h : RecordStep env tenant key r event r') :
    StatusMove event r r' := by
  have hf := h.fence
  cases h with
  | granted | renewed => exact .same rfl
  | checkpointed _ _ hlog | splitResidual _ _ hlog =>
    obtain ⟨entry, rfl⟩ := hlog.eq
    exact .same rfl
  | completed hlease _ hlog =>
    obtain ⟨entry, rfl⟩ := hlog.eq
    exact .finished hlease.active (.inl rfl)
  | parked hlease hlog =>
    obtain ⟨entry, rfl⟩ := hlog.eq
    exact .finished hlease.active (.inr (.inr rfl))
  | splitReplaced hready hlog =>
    obtain ⟨entry, rfl⟩ := hlog.eq
    exact .finished hready.lease.active (.inr (.inl rfl))
  | unparked _ hparked _ hlog =>
    obtain ⟨entry, rfl⟩ := hlog.eq
    exact .unparked rfl hparked rfl hf

/-- Done and Split are never left. -/
def StatusKept (r r' : RecordView) : Prop :=
  (r.status = .done → r'.status = .done) ∧ (r.status = .split → r'.status = .split)

theorem RecordStep.statusKept (h : RecordStep env tenant key r event r') : StatusKept r r' := by
  cases h.statusMove with
  | same hsa => exact ⟨hsa.trans, hsa.trans⟩
  | finished ha _ =>
    exact ⟨fun hd => absurd (ha.symm.trans hd) (by decide),
      fun hs => absurd (ha.symm.trans hs) (by decide)⟩
  | unparked _ hp _ _ =>
    exact ⟨fun hd => absurd (hp.symm.trans hd) (by decide),
      fun hs => absurd (hp.symm.trans hs) (by decide)⟩

theorem not_rel_self_of_acc {α : Type} {r} {a : α} (h : Acc r a) : ¬ r a a := by
  induction h with
  | intro a _ ih => exact fun ha => ih a ha ha

/-- **Lineage.** Parents and children name each other, every shard descends from a registered root
without a cycle, and a status moves only by the event of its step: `Done` and `Split` are final. -/
theorem shard_lineage (hfree : NoSelfDerivation env) (h : Reachable env s) :
    (∀ tenant key r p, s.view.getShard tenant key = some r → r.parent = some p →
      ∃ parent, s.view.getShard tenant ⟨key.run, p⟩ = some parent ∧
        parent.spawned.count key.shard = 1) ∧
    (∀ tenant key r, s.view.getShard tenant key = some r → ∀ id ∈ r.spawned,
      ∃ child, s.view.getShard tenant ⟨key.run, id⟩ = some child ∧ child.parent = some key.shard) ∧
    (∀ tenant key, (s.view.getShard tenant key).isSome → s.view.Rooted tenant key) ∧
    (∀ tenant key, ¬ Relation.TransGen (s.view.IsParent tenant) key key) ∧
    (∀ call response s', step env call s = .ok (response, s') →
      ∀ tenant key r, s.view.getShard tenant key = some r →
        ∃ r', s'.view.getShard tenant key = some r' ∧
          (r' = r ∨ ∃ event, call.label response = .shard tenant key event ∧
            StatusMove event r r')) ∧
    (∀ calls responses s', execute env calls s = .ok (responses, s') →
      ∀ tenant key r, s.view.getShard tenant key = some r →
        ∃ r', s'.view.getShard tenant key = some r' ∧ StatusKept r r') := by
  obtain ⟨_, htrace⟩ := h.exists_trace
  have hlineage := htrace.view.lineage hfree
  refine ⟨hlineage.parents, hlineage.spawned, hlineage.rooted, ?_, ?_, ?_⟩
  · intro tenant key hcycle
    -- A shard on a cycle has a parent, so it is stored and descends from a root.
    obtain ⟨parent, -, r, hget, -⟩ := Relation.TransGen.tail'_iff.mp hcycle
    have hacc := (hlineage.rooted tenant key (by rw [hget]; rfl)).acc.transGen
    exact not_rel_self_of_acc hacc hcycle
  · intro call response s' hstep tenant key r hget
    obtain ⟨r', hget', ⟨rfl, -⟩ | ⟨event, hlabel, hrecord⟩⟩ := step_successor h hstep hget
    · exact ⟨_, hget', .inl rfl⟩
    · exact ⟨r', hget', .inr ⟨event, hlabel, hrecord.statusMove⟩⟩
  intro calls responses s' hrun tenant key r hget
  exact execute_successor (R := StatusKept) (fun r => ⟨fun h => h, fun h => h⟩)
    (fun hab hbc => ⟨fun h => hbc.1 (hab.1 h), fun h => hbc.2 (hab.2 h)⟩) tenant key
    RecordStep.statusKept h hrun hget

namespace Demo

def nextDigest (bytes : Bytes) : UInt64 := UInt64.ofNat ((bytes.getD 8 0).toNat + 1)

def nextEnv : Env := ⟨false, digest, nextDigest⟩

theorem fresh_nextEnv :
    (Coordinator.withRuntimeConfig nextEnv config 3 : Run Empty _) = .ok fresh :=
  rfl

theorem noSelfDerivation_nextEnv : NoSelfDerivation nextEnv := by
  intro run parent op kind index he
  have hb : (Derivation.canonical ⟨run, parent, op, kind, index⟩).getD 8 0 =
      UInt8.ofNat parent.raw.toNat := rfl
  have hr := congrArg (fun id : ShardId => id.raw.toNat % 2 ^ 8) he
  simp only [deriveSplitShardId, nextEnv, nextDigest, hb, UInt64.toNat_or,
    Nat.or_mod_two_pow] at hr
  have h63 : ((1 : UInt64) <<< 63).toNat % 2 ^ 8 = 0 := by decide
  rw [h63, Nat.or_zero] at hr
  simp only [UInt8.toNat_ofNat', UInt64.toNat_ofNat'] at hr
  omega

def halves : SplitResidualPlan :=
  ⟨⟨[1], [5], []⟩, ⟨[5], [9], []⟩, by decide⟩

def halved : List Call := leased ++ [.splitResidual 3 Demo.tenant rootLease halves ⟨2⟩]

end Demo

/-- The residual shard has a parent that lists it once. -/
theorem shard_lineage_residual : ∃ responses s id r parent,
    execute Demo.nextEnv Demo.halved Demo.fresh = .ok (responses, s) ∧
    s.view.getShard Demo.tenant ⟨Demo.run, id⟩ = some r ∧ r.parent = some ⟨3⟩ ∧
    s.view.getShard Demo.tenant ⟨Demo.run, ⟨3⟩⟩ = some parent ∧ parent.spawned.count id = 1 := by
  have hrun : (execute Demo.nextEnv Demo.halved Demo.fresh).okAnd (fun r => decide
      ((r.2.view.getShard Demo.tenant ⟨Demo.run, ⟨9223372036854775812⟩⟩).map
        (fun r => r.parent) = some (some ⟨3⟩))) = true := by decide +kernel
  obtain ⟨⟨responses, s⟩, hrun, hchild⟩ := Outcome.exists_of_okAnd hrun
  obtain ⟨r, hget, hparent⟩ := Option.map_eq_some_iff.mp (of_decide_eq_true hchild)
  have hreach : Reachable Demo.nextEnv s := (Reachable.init Demo.fresh_nextEnv).execute hrun
  obtain ⟨parent, hget', hcount⟩ :=
    (shard_lineage Demo.noSelfDerivation_nextEnv hreach).1 _ _ _ _ hget hparent
  exact ⟨responses, s, _, r, parent, hrun, hget, hparent, hget', hcount⟩

end GossipRs
