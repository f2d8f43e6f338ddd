import GossipRs.Properties.Lineage

/-! Keyspace coverage. The shards of a run that have not been split hold exactly the keys of the
manifest the run was registered with, none twice. -/

namespace GossipRs

open Lib Stdx List

variable {env : Env} {s : Coordinator} {tenant : TenantId} {key : ShardKey}

/-- A range that is left, or new, after a step of the record `r` to `r'`. -/
def Piece (env : Env) (r : RecordView) (event : ShardEvent) (r' : RecordView) (id : ShardId)
    (spec : ShardSpec) : Prop :=
  (id = r.shard ∧ r'.status ≠ .split ∧ spec = r'.spec) ∨
    ∃ new ∈ event.children env r, id = new.1 ∧ spec = new.2.spec

/-- A step divides the range of its record: each of its keys is in one piece, no other key in any.
-/
structure Divides (env : Env) (r : RecordView) (event : ShardEvent) (r' : RecordView) : Prop where
  unsplit : r.status ≠ .split
  inside : ∀ {k id spec}, Piece env r event r' id spec → spec.containsKey k → r.spec.containsKey k
  found : ∀ {k}, r.spec.containsKey k → ∃ id spec, Piece env r event r' id spec ∧ spec.containsKey k
  once : ∀ {k id₁ spec₁ id₂ spec₂}, Piece env r event r' id₁ spec₁ →
    Piece env r event r' id₂ spec₂ →
    spec₁.containsKey k → spec₂.containsKey k → id₁ = id₂

variable {r : RecordView} {event : ShardEvent}

theorem divides_of_kept (hst : r.status ≠ .split) (hs' : r'.status ≠ .split)
    (hs : r'.spec = r.spec) (hc : event.children env r = []) :
    Divides env r event r' := by
  have hp : ∀ {id spec}, Piece env r event r' id spec → id = r.shard ∧ spec = r.spec := by
    intro id spec h
    rcases h with ⟨hid, -, rfl⟩ | ⟨_, hn, -⟩
    · exact ⟨hid, hs⟩
    · rw [hc] at hn
      cases hn
  refine ⟨hst, fun h hk => ?_, fun hk => ⟨_, _, .inl ⟨rfl, hs', rfl⟩, ?_⟩, fun h1 h2 _ _ => ?_⟩
  · rw [← (hp h).2]
    exact hk
  · rw [hs]
    exact hk
  · rw [(hp h1).1, (hp h2).1]

theorem eq_of_countP_le_one {α : Type} {p} {l : List α} (h : l.countP p ≤ 1) {a b} (ha : a ∈ l)
    (hb : b ∈ l) (hp : p a = true) (hpb : p b = true) : a = b := by
  have ha := mem_filter.mpr ⟨ha, hp⟩
  have hb := mem_filter.mpr ⟨hb, hpb⟩
  rw [countP_eq_length_filter] at h
  match l.filter p, h, ha, hb with
  | [_], _, ha, hb => exact (mem_singleton.mp ha).trans (mem_singleton.mp hb).symm

theorem divides_of_partitions (hs : r.status ≠ .split) (pieces : List (ShardId × ShardSpec))
    (hpi : ∀ id spec, Piece env r event r' id spec ↔ (id, spec) ∈ pieces)
    (h : Partitions r.spec.keyRangeStart r.spec.keyRangeEnd (pieces.map Prod.snd)) :
    Divides env r event r' := by
  have hc : ∀ k, (pieces.countP fun p => decide (p.2.containsKey k)) =
      if r.spec.containsKey k then 1 else 0 := by
    intro k
    have hk := h k
    unfold coverCount at hk
    rw [countP_map] at hk
    exact hk
  refine ⟨hs, fun {k id spec} hpie hk => ?_, fun {k} hk => ?_,
    fun {k id1 spec1 id2 spec2} h1 h2 hk1 hk2 => ?_⟩
  · by_contra hn
    have hpo : 0 < pieces.countP fun p => decide (p.2.containsKey k) :=
      countP_pos_iff.mpr ⟨(id, spec), (hpi id spec).mp hpie, decide_eq_true hk⟩
    rw [hc k, if_neg hn] at hpo
    cases hpo
  · have hpo : 0 < pieces.countP fun p => decide (p.2.containsKey k) := by
      rw [hc k, if_pos hk]
      exact Nat.one_pos
    obtain ⟨⟨id, spec⟩, hm, hp⟩ := countP_pos_iff.mp hpo
    exact ⟨id, spec, (hpi id spec).mpr hm, of_decide_eq_true hp⟩
  have hl : (pieces.countP fun p => decide (p.2.containsKey k)) ≤ 1 := by
    rw [hc k]
    split <;> omega
  have he := eq_of_countP_le_one hl ((hpi _ _).mp h1) ((hpi _ _).mp h2)
    (decide_eq_true hk1) (decide_eq_true hk2)
  exact congrArg Prod.fst he

theorem RecordStep.divides (h : RecordStep env tenant key r event r') : Divides env r event r' := by
  have active : ∀ {status : ShardStatus}, status = .active → status ≠ .split := by
    rintro _ rfl hs
    cases hs
  cases h with
  | granted hd htenant hactive => exact divides_of_kept (active hactive) (active hactive) rfl rfl
  | renewed hd hlease => exact divides_of_kept (active hlease.active) (active hlease.active) rfl rfl
  | checkpointed hlease _ hlog =>
    obtain ⟨entry, rfl⟩ := hlog.eq
    exact divides_of_kept (active hlease.active) (active hlease.active) rfl rfl
  | completed hlease _ hlog | parked hlease hlog =>
    obtain ⟨entry, rfl⟩ := hlog.eq
    exact divides_of_kept (active hlease.active) (fun hs => by cases hs) rfl rfl
  | unparked _ hparked _ hlog =>
    obtain ⟨entry, rfl⟩ := hlog.eq
    refine divides_of_kept (fun hs => ?_) (fun hs => by cases hs) rfl rfl
    rw [hparked] at hs
    cases hs
  | @splitReplaced now lease plan opId _ hr hlog =>
    obtain ⟨entry, rfl⟩ := hlog.eq
    obtain ⟨start, stop, hra, hc⟩ := hr.chain
    cases hra
    refine divides_of_partitions (active hr.lease.active)
      (((ShardEvent.splitReplaced now lease plan opId).children env r).map
        fun new => (new.1, new.2.spec)) (fun id spec => ?_) ?_
    · rw [mem_map]
      constructor
      · rintro (⟨-, hs, -⟩ | ⟨new, hn, rfl, rfl⟩)
        · exact absurd rfl hs
        · exact ⟨new, hn, rfl⟩
      rintro ⟨new, hn, he⟩
      cases he
      exact .inr ⟨new, hn, rfl, rfl⟩
    have hsp : (((ShardEvent.splitReplaced now lease plan opId).children env r).map
        fun new => (new.1, new.2.spec)).map Prod.snd =
          (splitChildOrder plan).map SplitReplaceChild.spec := by
      rw [map_map]
      have hm : (Prod.snd ∘ fun new : ShardId × SplitReplaceChild => (new.1, new.2.spec)) =
          SplitReplaceChild.spec ∘ Prod.snd := rfl
      rw [hm, ← map_map, ShardEvent.children, map_snd_zip
        (by rw [View.length_childIds, length_splitChildOrder])]
    rw [hsp]
    exact hc.partitions
  | @splitResidual now lease plan opId _ hr hscan hlog =>
    obtain ⟨entry, rfl⟩ := hlog.eq
    obtain ⟨start, stop, hra, -, -, hc⟩ := hr.chain
    cases hra
    refine divides_of_partitions (active hr.lease.active)
      [(r.shard, plan.parentNewSpec),
        (deriveSplitShardId env r.run r.shard opId .residual r.spawned.length,
          plan.residualSpec)] (fun id spec => ?_) fun k => ?_
    · simp only [mem_cons, not_mem_nil, or_false, Prod.mk.injEq]
      constructor
      · rintro (⟨rfl, -, rfl⟩ | ⟨new, hn, rfl, rfl⟩)
        · exact .inl ⟨rfl, rfl⟩
        · rw [mem_singleton.mp hn]
          exact .inr ⟨rfl, rfl⟩
      rintro (⟨rfl, rfl⟩ | ⟨rfl, rfl⟩)
      · exact .inl ⟨rfl, active hr.lease.active, rfl⟩
      · exact .inr ⟨_, mem_singleton_self _, rfl, rfl⟩
    · have hp : [plan.parentNewSpec, plan.residualSpec].Perm
          (orderedSpecs [plan.parentNewSpec, plan.residualSpec]) :=
        (perm_insertionSort _ _).symm
      show coverCount [plan.parentNewSpec, plan.residualSpec] k = _
      rw [coverCount_perm hp]
      exact hc.partitions k

variable {now : LogicalTime} {shards : List InitialShardInput} {opId : OpId} {label : Label}

namespace View

variable {t t' : View} {run : RunId} {specs : List ShardSpec}

def Owner (t : View) (tenant : TenantId) (run : RunId) (k : Bytes) (key : ShardKey) : Prop :=
  key.run = run ∧ ∃ r, t.getShard tenant key = some r ∧ r.status ≠ .split ∧ r.spec.containsKey k

structure Covered (t : View) (tenant : TenantId) (run : RunId) (specs : List ShardSpec) : Prop where
  started : ∃ record, t.runs.lookup (tenant, run) = some record ∧ record.status ≠ .initializing
  once : ∀ {k key₁ key₂}, t.Owner tenant run k key₁ → t.Owner tenant run k key₂ → key₁ = key₂
  covers : ∀ k, (∃ key, t.Owner tenant run k key) ↔ ∃ spec ∈ specs, spec.containsKey k

theorem Effect.registered_initializing
    (h : Effect env t (.run tenant run (.registered now shards opId)) t') : ManifestValid shards ∧
      ∃ record, t.runs.lookup (tenant, run) = some record ∧ record.status = .initializing := by
  cases h with
  | registered hr htenant hin hmanifest hlimits hnew hinv hlog => exact ⟨hmanifest, _, hr, hin⟩

theorem Effect.registered_started
    (h : Effect env t (.run tenant run (.registered now shards opId)) t') :
    ∃ record, t'.runs.lookup (tenant, run) = some record ∧ record.status ≠ .initializing := by
  cases h with
  | registered hrun htenant hinit hmanifest hlimits hnew hinv hlog =>
    obtain ⟨entry, -, -, -, -, -, rfl⟩ := hlog.entry
    exact ⟨_, Finmap.lookup_insert _, fun hs => by cases hs⟩

theorem Effect.started (h : Effect env t label t')
    (hg : t.runs.lookup (tenant, run) = some record) (hst : record.status ≠ .initializing) :
    ∃ record', t'.runs.lookup (tenant, run) = some record' ∧ record'.status ≠ .initializing := by
  obtain ⟨record', hg', rfl | ⟨hs, -⟩⟩ := h.run_successor hg
  · exact ⟨record', hg', hst⟩
  · exact ⟨record', hg', hs⟩

theorem Lineage.started (h : t.Lineage) (hg : (t.getShard tenant key).isSome) :
    ∃ record, t.runs.lookup (tenant, key.run) = some record ∧ record.status ≠ .initializing := by
  have hr := h.rooted tenant key hg
  clear hg
  induction hr with
  | root hg hparent hru hm =>
    refine ⟨_, hru, fun hin => ?_⟩
    rw [(h.runs _ _ _ hru).initializing_roots hin] at hm
    cases hm
  | child hparent _ ih =>
    obtain ⟨_, -, -, hru⟩ := hparent
    rw [hru]
    exact ih

theorem eq_of_manifest (h : ManifestValid shards) (ha : a ∈ shards) (hb : b ∈ shards)
    (hk : a.spec.containsKey k) (hkb : b.spec.containsKey k) : a = b := by
  by_contra hn
  have : Std.Symm fun a b : InitialShardInput =>
      a.spec.keyRangeEnd ≤ b.spec.keyRangeStart ∨ b.spec.keyRangeEnd ≤ a.spec.keyRangeStart :=
    ⟨fun _ _ hab => hab.symm⟩
  -- A range that ends where another starts has no key of it.
  have apart : ∀ {a b : InitialShardInput}, a ∈ shards → a.spec.containsKey k →
      b.spec.containsKey k → ¬ a.spec.keyRangeEnd ≤ b.spec.keyRangeStart := by
    intro a b ha hk hkb hl
    have hbe := (ShardSpec.containsKey_iff.mp hk).2.resolve_left (h.bounded a ha).2
    exact absurd (hl.trans (ShardSpec.containsKey_iff.mp hkb).1) (not_le.mpr hbe)
  rcases h.disjoint.forall ha hb hn with hl | hl
  · exact apart ha hk hkb hl
  · exact apart hb hkb hk hl

theorem Effect.registered_origin (hl : t.Lineage)
    (h : Effect env t (.run tenant run (.registered now shards opId)) t') (hru : key.run = run)
    (hg : t'.getShard tenant key = some r) :
    ∃ input ∈ shards, key = ⟨run, input.shard⟩ ∧ r.status = .active ∧ r.spec = input.spec := by
  cases h.origin hg with
  | kept hbefore hother =>
    obtain ⟨_, hr, hs⟩ := hl.started (by rw [hbefore]; rfl)
    obtain ⟨-, _, hr', hin⟩ := h.registered_initializing
    rw [hru, hr'] at hr
    cases hr
    exact absurd hin hs
  | root hrun' hmanifest hm hinv hk hnew => exact ⟨_, hm, hk, rfl, rfl⟩

theorem Effect.registered_stored
    (h : Effect env t (.run tenant run (.registered now shards opId)) t') (hm : input ∈ shards) :
    ∃ r, t'.getShard tenant ⟨run, input.shard⟩ = some r ∧ r.status = .active ∧
      r.spec = input.spec := by
  cases h with
  | @registered _ _ _ _ _ record record' hrun htenant hinit hmanifest hlimits hnew hinv hlog =>
    refine ⟨(input.root tenant run record.config.cursorSemantics).2, ?_, rfl, rfl⟩
    show ((t.putShards tenant _).indexShards tenant run _).getShard tenant ⟨run, input.shard⟩ = _
    rw [Tables.getShard_indexShards]
    exact hnew.getShard_putShards.mpr (.inl ⟨rfl, mem_map_of_mem hm⟩)

theorem Effect.registered_covered (hl : t.Lineage)
    (h : Effect env t (.run tenant run (.registered now shards opId)) t') :
    t'.Covered tenant run (shards.map InitialShardInput.spec) := by
  have hm := h.registered_initializing.1
  refine ⟨h.registered_started, fun {k key1 key2} h1 h2 => ?_, fun k => ⟨?_, ?_⟩⟩
  · obtain ⟨hr1, _, hg1, -, hk1⟩ := h1
    obtain ⟨hr2, _, hg2, -, hk2⟩ := h2
    obtain ⟨_, ha, rfl, -, hs1⟩ := h.registered_origin hl hr1 hg1
    obtain ⟨_, hb, rfl, -, hs2⟩ := h.registered_origin hl hr2 hg2
    rw [hs1] at hk1
    rw [hs2] at hk2
    rw [eq_of_manifest hm ha hb hk1 hk2]
  · rintro ⟨_, hr, r, hg, -, hk⟩
    obtain ⟨input, hme, -, -, hs⟩ := h.registered_origin hl hr hg
    rw [hs] at hk
    exact ⟨input.spec, mem_map_of_mem hme, hk⟩
  rintro ⟨spec, hs, hk⟩
  obtain ⟨input, hme, rfl⟩ := mem_map.mp hs
  obtain ⟨r, hg, hac, hs⟩ := h.registered_stored hme
  refine ⟨⟨run, input.shard⟩, rfl, r, hg, ?_, ?_⟩
  · rw [hac]
    exact fun hsp => by cases hsp
  · rw [hs]
    exact hk

theorem Effect.owner_before (hl : t.Lineage) (hc : t.Covered tenant run specs)
    (h : Effect env t label t') (how : t'.Owner tenant run k key1) :
    ∃ key, t.Owner tenant run k key ∧ ((key1 = key ∧ ∀ event, label ≠ .shard tenant key event) ∨
        ∃ event r r' spec, label = .shard tenant key event ∧ t.getShard tenant key = some r ∧
          t'.getShard tenant key = some r' ∧ RecordStep env tenant key r event r' ∧
          Piece env r event r' key1.shard spec ∧ spec.containsKey k) := by
  obtain ⟨hru, r1, hg, hst, hk⟩ := how
  cases h.origin hg with
  | kept hb ho => exact ⟨key1, ⟨hru, r1, hb, hst, hk⟩, .inl ⟨rfl, ho⟩⟩
  | @stepped event r _ hb hs =>
    have hke := hl.keyed _ _ _ hb
    have hp : Piece env r event r1 key1.shard r1.spec :=
      .inl ⟨congrArg ShardKey.shard hke.symm, hst, rfl⟩
    exact ⟨key1, ⟨hru, r, hb, hs.divides.unsplit, hs.divides.inside hp hk⟩,
      .inr ⟨event, r, r1, r1.spec, rfl, hb, hg, hs, hp, hk⟩⟩
  | @root now run1 shards opId record1 input hrun' hmanifest hm hinv hke hnew =>
    obtain ⟨-, _, hr, hin⟩ := h.registered_initializing
    obtain ⟨_, hr', hsta⟩ := hc.started
    have hsa : run1 = run := by
      rw [hke] at hru
      exact hru
    rw [← hsa, hr] at hr'
    cases hr'
    exact absurd hin hsta
  | @child parentKey event r _ new hb hs hm hinv hke hne hnew =>
    have hpk := hl.keyed _ _ _ hb
    obtain ⟨r', hg', ⟨-, ho⟩ | ⟨_, he, hs'⟩⟩ := h.successor hb
    · exact absurd rfl (ho event)
    cases he
    subst hke
    have hp : Piece env r event r' new.1 new.2.spec := .inr ⟨new, hm, rfl, rfl⟩
    have hpr : parentKey.run = run := by
      rw [← hpk]
      exact hru
    exact ⟨parentKey, ⟨hpr, r, hb, hs'.divides.unsplit,
      hs'.divides.inside hp hk⟩,
      .inr ⟨event, r, r', new.2.spec, rfl, hb, hg', hs', hp, hk⟩⟩

theorem Effect.owner_after (hf : NoSelfDerivation env) (hl : t.Lineage)
    (h : Effect env t label t') (ho : t.Owner tenant run k key) :
    ∃ key', t'.Owner tenant run k key' := by
  obtain ⟨hr, _, hg, hs, hk⟩ := ho
  obtain ⟨r', hg', ⟨rfl, -⟩ | ⟨_, rfl, hste⟩⟩ := h.successor hg
  · exact ⟨key, hr, _, hg', hs, hk⟩
  obtain ⟨_, _, hp, hks⟩ := hste.divides.found hk
  rcases hp with ⟨-, hs', rfl⟩ | ⟨new, hn, rfl, rfl⟩
  · exact ⟨key, hr, r', hg', hs', hks⟩
  · obtain ⟨-, hst⟩ := h.child_stored hf hg (hl.keyed _ _ _ hg) hn
    exact ⟨⟨key.run, new.1⟩, hr, _, hst, (fun hsp => by cases hsp), hks⟩

theorem Effect.covered (hf : NoSelfDerivation env) (hl : t.Lineage)
    (hc : t.Covered tenant run specs) (h : Effect env t label t') :
    t'.Covered tenant run specs := by
  obtain ⟨_, hr, hs⟩ := hc.started
  refine ⟨h.started hr hs, fun {k key1 key2} h1 h2 => ?_, fun k => ?_⟩
  · have hr1 := h1.1
    have hr2 := h2.1
    obtain ⟨key, ho, hc1⟩ := h.owner_before hl hc h1
    obtain ⟨_, ho', hc2⟩ := h.owner_before hl hc h2
    cases hc.once ho ho'
    rcases hc1 with ⟨rfl, hot⟩ | ⟨event, _, _, _, hla, hg, hg', hst, hp1, hk1⟩
    · rcases hc2 with ⟨rfl, -⟩ | ⟨event, _, _, _, hla, -⟩
      · rfl
      · exact absurd hla (hot event)
    rcases hc2 with ⟨-, hot⟩ | ⟨_, _, _, _, hl2, hg2, hg2', -, hp2, hk2⟩
    · exact absurd hla (hot event)
    rw [hla] at hl2
    cases hl2
    rw [hg] at hg2
    cases hg2
    rw [hg'] at hg2'
    cases hg2'
    have hid := hst.divides.once hp1 hp2 hk1 hk2
    cases key1
    cases key2
    exact congrArg₂ ShardKey.mk (hr1.trans hr2.symm) hid
  · rw [← hc.covers k]
    constructor
    · rintro ⟨key1, ho⟩
      obtain ⟨key, hb, -⟩ := h.owner_before hl hc ho
      exact ⟨key, hb⟩
    · rintro ⟨key, ho⟩
      exact h.owner_after hf hl ho

/-- **The shards of a run cover its manifest**, in every state after its registration. -/
theorem Trace.covered (hf : NoSelfDerivation env) (h : View.Trace env trace t) (he : e ∈ trace)
    (hla : e.1.label e.2 = .run tenant run (.registered now shards opId)) :
    t.Covered tenant run (shards.map InitialShardInput.spec) := by
  induction h with
  | init config => cases he
  | @step trace t t' call response ht hstep ih =>
    have hl := ht.lineage hf
    obtain ⟨t1, ho, hef⟩ := Steps.effect hstep
    have hl1 : t1.Lineage := by
      rcases ho with rfl | ⟨_, _, _, _, _, _, -, hc⟩
      · exact hl
      · exact hc.lineage hf hl
    rcases mem_append.mp he with hm | hm
    · refine hef.covered hf hl1 ?_
      rcases ho with rfl | ⟨_, _, _, _, _, _, -, hc⟩
      · exact ih hm
      · exact hc.covered hf hl (ih hm)
    rw [mem_singleton.mp hm] at hla
    rw [hla] at hef
    exact hef.registered_covered hl1

end View

/-- **Keyspace coverage.** However a registered run has been split since, the shards that own a key
are at most one, and exactly the keys of the registered shards have an owner. -/
theorem coverage (hfree : NoSelfDerivation env) {trace : List (Call × Response)}
    (h : Trace env trace s) {e : Call × Response} (he : e ∈ trace) {run : RunId}
    {now : LogicalTime} {shards : List InitialShardInput} {opId : OpId}
    (hlabel : e.1.label e.2 = .run tenant run (.registered now shards opId)) :
    (∀ k key₁ key₂, s.view.Owner tenant run k key₁ → s.view.Owner tenant run k key₂ →
      key₁ = key₂) ∧
    ∀ k, (∃ key, s.view.Owner tenant run k key) ↔ ∃ input ∈ shards, input.spec.containsKey k := by
  have hcovered := h.view.covered hfree he hlabel
  refine ⟨fun k key₁ key₂ h₁ h₂ => hcovered.once h₁ h₂, fun k => ?_⟩
  rw [hcovered.covers k]
  constructor
  · rintro ⟨spec, hspec, hk⟩
    obtain ⟨input, hmem, rfl⟩ := mem_map.mp hspec
    exact ⟨input, hmem, hk⟩
  · rintro ⟨input, hmem, hk⟩
    exact ⟨input.spec, mem_map_of_mem hmem, hk⟩

def Demo.registered : List Response → Bool
  | .createRunWithShards (.ok (.executed _)) :: _ => true
  | _ => false

/-- Key 7 has an owner after the shard has given away its upper half. -/
theorem coverage_residual : ∃ responses s,
    execute Demo.nextEnv Demo.halved Demo.fresh = .ok (responses, s) ∧
    ∃ key, s.view.Owner Demo.tenant Demo.run [7] key := by
  have hrun : (execute Demo.nextEnv Demo.halved Demo.fresh).okAnd
      (fun r => Demo.registered r.1) = true := by decide +kernel
  obtain ⟨⟨responses, s⟩, hrun, hregistered⟩ := Outcome.exists_of_okAnd hrun
  refine ⟨responses, s, hrun, ?_⟩
  have htrace := trace_execute (.init Demo.fresh_nextEnv) hrun
  unfold Demo.registered at hregistered
  split at hregistered
  next record rest hresponses =>
    cases hresponses
    refine ((coverage Demo.noSelfDerivation_nextEnv htrace (e := (.createRunWithShards 1 Demo.tenant
      Demo.run Demo.runConfig [Demo.root] ⟨1⟩, .createRunWithShards (.ok (.executed record))))
      mem_cons_self rfl).2 [7]).mpr ⟨Demo.root, mem_singleton_self _, ?_⟩
    decide
  next => cases hregistered

end GossipRs
