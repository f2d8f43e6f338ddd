import GossipRs.Properties.Lineage

/-! Accounting. The cached count is the number of shards, the index of a run lists exactly its
records, and no limit is exceeded. The limits are checked with saturating additions; that no count
grows so far follows from the slab, in which every record owns a slot. -/

namespace GossipRs

open Lib Stdx List
open FMap2 (get remove set sizeAt sum)

variable {env : Env} {s : Coordinator}

/-- The count is within a limit, as far as a check that saturates can tell. -/
def Fits (count limit : Nat) : Prop := count ≤ limit ∨ limit = usizeMax

theorem Fits.mono {count} (h : Fits count limit) (hl : count' ≤ count) : Fits count' limit :=
  h.imp_left hl.trans

theorem fits_of_saturatingAdd (hl : limit ≤ usizeMax)
    (h : saturatingAdd (saturatingAdd a b) c ≤ limit) : Fits (a + b + c) limit := by
  unfold saturatingAdd at h
  unfold Fits
  omega

namespace Tables

variable {R : Type} {t : Tables R} {tenant : TenantId} {key : ShardKey} {r : R}

structure WithinLimits (t : Tables R) : Prop where
  perTenant : ∀ tenant, Fits (FMap2.sizeAt t.shards tenant) t.config.maxShardsPerTenant
  total : Fits t.totalShardCount t.config.maxTotalShards

theorem checkShardLimits_eq_ok (h : t.checkShardLimits tenant additional removed = .ok u) :
    Fits (sizeAt t.shards tenant + removed + additional) t.config.maxShardsPerTenant ∧
      Fits (t.totalShardCount + removed + additional) t.config.maxTotalShards := by
  obtain ⟨ht, hto⟩ := Outcome.check_eq_ok.mp h
  rw [Outcome.ensure_eq_ok] at ht hto
  exact ⟨fits_of_saturatingAdd t.config.maxShardsPerTenant_le ht,
    fits_of_saturatingAdd t.config.maxTotalShards_le hto⟩

theorem sizeAt_setShard (hg : (t.getShard tenant key).isSome) (tenant') :
    sizeAt (t.setShard tenant key r).shards tenant' = sizeAt t.shards tenant' := by
  obtain ⟨_, hg⟩ := Option.isSome_iff_exists.mp hg
  by_cases hs : tenant' = tenant
  · rw [hs]
    exact FMap2.sizeAt_set_of_some hg
  · exact FMap2.sizeAt_set_of_ne hs

theorem putShard_counts (t : Tables R) (tenant) (key : ShardKey) (r : R) :
    sizeAt (t.putShard tenant key r).shards tenant ≤ sizeAt t.shards tenant + 1 ∧
      (∀ tenant' ≠ tenant, sizeAt (t.putShard tenant key r).shards tenant' =
        sizeAt t.shards tenant') ∧
      (t.putShard tenant key r).totalShardCount ≤ t.totalShardCount + 1 := by
  refine ⟨?_, fun tenant' hn => FMap2.sizeAt_set_of_ne hn, ?_⟩
  · show sizeAt (set t.shards tenant key r) tenant ≤ _
    cases hg : get t.shards tenant key with
    | none => exact (FMap2.sizeAt_set_of_none hg).le
    | some r0 => exact (FMap2.sizeAt_set_of_some hg).le.trans (Nat.le_succ _)
  · show (if t.shardContains tenant key then t.totalShardCount else t.totalShardCount + 1) ≤ _
    split <;> omega

theorem putShards_counts (t : Tables R) (tenant) (entries : List (ShardKey × R)) :
    sizeAt (t.putShards tenant entries).shards tenant ≤
        sizeAt t.shards tenant + entries.length ∧
      (∀ tenant' ≠ tenant, sizeAt (t.putShards tenant entries).shards tenant' =
        sizeAt t.shards tenant') ∧
      (t.putShards tenant entries).totalShardCount ≤ t.totalShardCount + entries.length := by
  induction entries generalizing t with
  | nil => exact ⟨le_refl _, fun _ _ => rfl, le_refl _⟩
  | cons entry rest ih =>
    obtain ⟨_, ho, _⟩ := putShard_counts t tenant entry.1 entry.2
    obtain ⟨how', ho', ht'⟩ := ih (t.putShard tenant entry.1 entry.2)
    rw [length_cons]
    refine ⟨?_, fun tenant' hn => (ho' tenant' hn).trans (ho tenant' hn), ?_⟩
    · exact how'.trans (by omega)
    · exact ht'.trans (by omega)

@[simp] theorem config_putShards (t : Tables R) (tenant) (entries : List (ShardKey × R)) :
    (t.putShards tenant entries).config = t.config := by
  induction entries generalizing t with
  | nil => rfl
  | cons entry rest ih => exact ih _

theorem shards_indexShards (t : Tables R) (tenant run ids) :
    (t.indexShards tenant run ids).shards = t.shards := by
  rw [indexShards_eq]

theorem totalShardCount_indexShards (t : Tables R) (tenant run ids) :
    (t.indexShards tenant run ids).totalShardCount = t.totalShardCount := by
  rw [indexShards_eq]

theorem config_indexShards (t : Tables R) (tenant run ids) :
    (t.indexShards tenant run ids).config = t.config := by
  rw [indexShards_eq]

theorem withinLimits_putShard
    (hp : ∀ tenant', Fits (sizeAt t.shards tenant' + if tenant' = tenant then 1 else 0)
      t.config.maxShardsPerTenant)
    (ht : Fits (t.totalShardCount + 1) t.config.maxTotalShards) :
    (t.putShard tenant key r).WithinLimits := by
  obtain ⟨how, ho, hc⟩ := putShard_counts t tenant key r
  refine ⟨fun tenant' => (hp tenant').mono ?_, ht.mono hc⟩
  by_cases hs : tenant' = tenant
  · rw [if_pos hs, hs]
    exact how
  · rw [if_neg hs, ho tenant' hs]
    exact Nat.le_add_right _ _

theorem WithinLimits.putShards (h : t.WithinLimits)
    (hc : t.checkShardLimits tenant entries.length removed = .ok u) (hn : n ≤ removed) :
    (∀ tenant', Fits (sizeAt (t.putShards tenant entries).shards tenant' +
        if tenant' = tenant then n else 0) t.config.maxShardsPerTenant) ∧
      Fits ((t.putShards tenant entries).totalShardCount + n) t.config.maxTotalShards := by
  obtain ⟨_, ho, _⟩ := putShards_counts t tenant entries
  obtain ⟨hp, ha⟩ := checkShardLimits_eq_ok hc
  refine ⟨fun tenant' => ?_, ha.mono (by omega)⟩
  by_cases hs : tenant' = tenant
  · rw [if_pos hs, hs]
    exact hp.mono (by omega)
  · rw [if_neg hs, ho tenant' hs, Nat.add_zero]
    exact h.perTenant tenant'

theorem WithinLimits.dropShard (h : t.WithinLimits) (tenant) (key : ShardKey) :
    (t.dropShard tenant key).WithinLimits := by
  constructor
  · intro tenant'
    refine (h.perTenant tenant').mono ?_
    show sizeAt (remove t.shards tenant key) tenant' ≤ _
    cases hg : get t.shards tenant key with
    | none => rw [FMap2.remove_of_get_none hg]
    | some r0 =>
      by_cases hs : tenant' = tenant
      · rw [hs, FMap2.sizeAt_eq_remove_add_one hg]
        exact Nat.le_succ _
      obtain ⟨_, hin, -⟩ := FMap2.get_eq_some.mp hg
      unfold sizeAt remove
      rw [hin]
      simp only
      rw [FMap.lookup_insert_eq, if_neg hs]
  · refine h.total.mono ?_
    show (if t.shardContains tenant key then t.totalShardCount - 1 else t.totalShardCount) ≤ _
    split <;> omega

def Complete (t : Tables R) : Prop :=
  ∀ tenant key, (t.getShard tenant key).isSome → key.shard ∈ t.runShardIds tenant key.run

end Tables

structure View.Accounted (t : View) : Prop where
  limits : t.WithinLimits
  complete : t.Complete

theorem View.Effect.accounted (h : t.Accounted) (he : View.Effect env t label t') :
    t'.Accounted := by
  cases he with
  | quiet => exact h
  | created hn hinv | finished hkind hrun htenant hrunning hlog =>
    exact ⟨⟨h.limits.perTenant, h.limits.total⟩, h.complete⟩
  | @inPlace tenant key event r r' cooldowns hget hstep hchildren =>
    have hso : (t.getShard tenant key).isSome := by rw [hget]; rfl
    refine ⟨⟨fun tenant' => ?_, h.limits.total⟩, fun tenant' key' hin => ?_⟩
    · show Fits (sizeAt (t.setShard tenant key r').shards tenant') _
      rw [Tables.sizeAt_setShard hso]
      exact h.limits.perTenant tenant'
    have hse : ((t.setShard tenant key r').getShard tenant' key').isSome := hin
    rw [Tables.getShard_setShard] at hse
    by_cases hs : tenant' = tenant ∧ key' = key
    · obtain ⟨rfl, rfl⟩ := hs
      exact h.complete tenant' key' hso
    · rw [if_neg hs] at hse
      exact h.complete tenant' key' hse
  | @registered now tenant run shards opId record record' hrun htenant hinit hmanifest hlimits hn
      hinv hlog =>
    have hc : t.checkShardLimits tenant (shards.map (InitialShardInput.root tenant run
        record.config.cursorSemantics)).length 0 = .ok () := by
      rw [length_map]
      exact hlimits
    obtain ⟨hp, ht⟩ := h.limits.putShards hc (le_refl 0)
    refine ⟨⟨fun tenant' => ?_, ?_⟩, fun tenant' key' hin => ?_⟩
    · show Fits (sizeAt (Tables.indexShards _ _ _ _).shards tenant')
        (Tables.indexShards _ _ _ _).config.maxShardsPerTenant
      rw [Tables.shards_indexShards, Tables.config_indexShards, Tables.config_putShards]
      exact (hp tenant').mono (Nat.le_add_right _ _)
    · show Fits (Tables.indexShards _ _ _ _).totalShardCount
        (Tables.indexShards _ _ _ _).config.maxTotalShards
      rw [Tables.totalShardCount_indexShards, Tables.config_indexShards, Tables.config_putShards]
      exact ht
    have hpu : (((t.putShards tenant (shards.map (InitialShardInput.root tenant run
        record.config.cursorSemantics))).indexShards tenant run
          (shards.map InitialShardInput.shard)).getShard tenant' key').isSome := hin
    show key'.shard ∈ ((t.putShards tenant (shards.map (InitialShardInput.root tenant run
      record.config.cursorSemantics))).indexShards tenant run
        (shards.map InitialShardInput.shard)).runShardIds tenant' key'.run
    rw [Tables.getShard_indexShards] at hpu
    rw [Tables.mem_runShardIds_indexShards,
      Tables.runShardIds_congr (Tables.runShards_putShards _)]
    obtain ⟨r, hr⟩ := Option.isSome_iff_exists.mp hpu
    rcases hn.getShard_putShards.mp hr with ⟨rfl, hm⟩ | hb
    · obtain ⟨_, hinp, heq⟩ := mem_map.mp hm
      cases heq
      exact .inl ⟨rfl, rfl, mem_map_of_mem hinp⟩
    · exact .inr (h.complete tenant' key' (by rw [hb]; rfl))
  | @split tenant key event r r' _ hget hstep hsp =>
    have hc : (t.dropShard tenant key).checkShardLimits tenant
        ((event.children env r).map (r.child tenant)).length 1 = .ok () := by
      rw [length_map]
      exact hsp.limits
    obtain ⟨hp, ht⟩ := (h.limits.dropShard tenant key).putShards hc (le_refl 1)
    rw [hsp.result]
    constructor
    · refine Tables.withinLimits_putShard (fun tenant' => ?_) ?_
      · rw [Tables.shards_indexShards, Tables.config_indexShards, Tables.config_putShards]
        exact hp tenant'
      · rw [Tables.totalShardCount_indexShards, Tables.config_indexShards, Tables.config_putShards]
        exact ht
    intro tenant' key' hin
    have hind : key'.shard ∈ t.runShardIds tenant' key'.run ∨
        tenant' = tenant ∧ key'.run = r.run ∧
          key'.shard ∈ (event.children env r).map Prod.fst := by
      rw [Tables.getShard_putShard] at hin
      by_cases hs : tenant' = tenant ∧ key' = key
      · obtain ⟨rfl, rfl⟩ := hs
        exact .inl (h.complete tenant' key' (by rw [hget]; rfl))
      rw [if_neg hs, Tables.getShard_indexShards] at hin
      obtain ⟨_, hr1⟩ := Option.isSome_iff_exists.mp hin
      rcases hsp.new.getShard_putShards.mp hr1 with ⟨rfl, hm⟩ | hb
      · obtain ⟨new, hn, heq⟩ := mem_map.mp hm
        cases heq
        exact .inr ⟨rfl, rfl, mem_map_of_mem hn⟩
      · rw [Tables.getShard_dropShard, if_neg hs] at hb
        exact .inl (h.complete tenant' key' (by rw [hb]; rfl))
    show key'.shard ∈ (Tables.indexShards _ _ _ _).runShardIds tenant' key'.run
    rw [Tables.mem_runShardIds_indexShards,
      Tables.runShardIds_congr (Tables.runShards_putShards _)]
    exact hind.symm

theorem View.Trace.accounted (h : View.Trace env trace t) : t.Accounted := by
  refine Trace.invariant (fun config => ?_) (fun t label t' ht he => he.accounted ht) h
  exact ⟨⟨fun tenant => .inl (Nat.zero_le _), .inl (Nat.zero_le _)⟩, fun _ _ hn => by cases hn⟩

theorem Chain.starts_ne_nil (h : Chain start stop specs) (hs : start ≠ []) :
    ∀ spec ∈ specs, spec.keyRangeStart ≠ [] := by
  induction h with
  | last valid =>
    intro spec hm
    rw [mem_singleton.mp hm]
    exact hs
  | cons valid bounded chain ih =>
    intro spec hm
    rcases mem_cons.mp hm with rfl | hm
    · exact hs
    · exact ih bounded spec hm

theorem View.Trace.start_ne_nil (h : View.Trace env trace t)
    (hg : t.getShard tenant key = some r) : r.spec.keyRangeStart ≠ [] := by
  refine Trace.records (P := fun _ _ r => r.spec.keyRangeStart ≠ [])
    (fun tenant run semantics shards input hm hme _ => (hm.bounded input hme).1)
    (fun tenant key r event r' new hr hs hme _ => ?_)
    (fun tenant key r event r' hr hs => ?_) h hg
  · cases hs with
    | splitReplaced hready hlog =>
      obtain ⟨start, stop, hra, hc⟩ := hready.chain
      cases hra
      exact hc.starts_ne_nil hr _ (mem_map_of_mem (of_mem_zip hme).2)
    | splitResidual hready hscan hlog =>
      obtain ⟨start, stop, hra, -, -, hc⟩ := hready.chain
      cases hra
      rw [mem_singleton.mp hme]
      refine hc.starts_ne_nil hr _ ((mem_insertionSort _).mpr ?_)
      exact mem_cons_of_mem _ mem_cons_self
    | granted | renewed | checkpointed | completed | parked | unparked => cases hme
  · cases hs with
    | granted | renewed => exact hr
    | checkpointed _ _ hlog | completed _ _ hlog | parked _ hlog | unparked _ _ _ hlog
    | splitReplaced _ hlog =>
      obtain ⟨entry, rfl⟩ := hlog.eq
      exact hr
    | @splitResidual now lease plan opId _ hready _ hlog =>
      obtain ⟨entry, rfl⟩ := hlog.eq
      obtain ⟨start, stop, hra, hst, -, -⟩ := hready.chain
      cases hra
      show plan.parentNewSpec.keyRangeStart ≠ []
      rw [hst]
      exact hr

theorem one_le_card_held (slab) {r : PooledRecord}
    (h : ((pooledView slab).onRecord r).spec.keyRangeStart ≠ []) : 1 ≤ r.held.card := by
  have hl : 0 < r.spec.keyRangeStart.len := by
    rcases Nat.eq_zero_or_pos r.spec.keyRangeStart.len with hz | hp
    · refine absurd ?_ h
      show slab.readSlot r.spec.keyRangeStart = []
      rw [ByteSlab.readSlot, hz]
      rfl
    · exact hp
  have hh : ({r.spec.keyRangeStart} : Multiset ByteSlot) ≤ r.held := by
    rw [← ByteSlot.held_of_len hl]
    refine (held_le_heldAll ?_).trans (le_self_add.trans le_self_add)
    exact mem_cons_self
  exact Multiset.card_le_card hh

theorem card_live_le (h : Owns debug slab live 0) : live.card ≤ slab.capacity := by
  have ho : ∀ size ∈ live.map ByteSlot.allocSize, 1 ≤ size := by
    intro size hsi
    obtain ⟨slot, hs, rfl⟩ := Multiset.mem_map.mp hsi
    exact (h.slots slot hs).len_pos.trans_le (h.slots slot hs).len_le
  have hc := Multiset.card_nsmul_le_sum ho
  rw [Multiset.card_map, smul_eq_mul, Nat.mul_one] at hc
  have := h.availableBytes_add
  omega

theorem total_le_u32Max (h : Coherent env s)
    (hs : ∀ tenant key r, s.view.getShard tenant key = some r → r.spec.keyRangeStart ≠ []) :
    FMap2.total s.tables.shards ≤ u32Max := by
  have ho : ∀ tenant key r, get s.tables.shards tenant key = some r →
      1 ≤ Multiset.card r.held := by
    intro tenant key r hg
    refine one_le_card_held s.slab (hs tenant key _ ?_)
    unfold Coordinator.view
    rw [Tables.getShard_mapRecords]
    exact congrArg (Option.map _) hg
  calc FMap2.total s.tables.shards
      ≤ sum (fun r => Multiset.card (ShardRecord.held r)) s.tables.shards :=
        FMap2.total_le_sum ho
    _ = Multiset.card s.tables.held := (FMap2.map_sum Multiset.cardHom _ _).symm
    _ ≤ s.slab.capacity := card_live_le h.owns
    _ ≤ u32Max := h.owns.capacity_le

theorem Fits.le {count} (h : Fits count limit) (hc : count ≤ u32Max) : count ≤ limit := by
  rcases h with h | rfl
  · exact h
  · exact hc.trans (by decide)

/-- **Accounting.** The cached total is the number of stored shards, the index of a run lists each
of its shards once and nothing else, and neither limit is exceeded. -/
theorem accounting (h : Reachable env s) :
    s.tables.totalShardCount = FMap2.total s.tables.shards ∧
    (∀ tenant run, (s.tables.runShardIds tenant run).Nodup ∧
      ∀ id, id ∈ s.tables.runShardIds tenant run ↔
        ∃ r, s.tables.getShard tenant ⟨run, id⟩ = some r ∧
          r.tenant = tenant ∧ r.run = run ∧ r.shard = id) ∧
    (∀ tenant, FMap2.sizeAt s.tables.shards tenant ≤ s.tables.config.maxShardsPerTenant) ∧
    s.tables.totalShardCount ≤ s.tables.config.maxTotalShards := by
  have hcoherent := h.coherent
  obtain ⟨_, htrace⟩ := h.exists_trace
  have hview := htrace.view
  have haccounted := hview.accounted
  have hbound := total_le_u32Max hcoherent fun _ _ _ hget => hview.start_ne_nil hget
  refine ⟨hcoherent.counted, fun tenant run => ⟨?_, fun id => ⟨fun hid => ?_, ?_⟩⟩,
    fun tenant => ?_, ?_⟩
  · unfold Tables.runShardIds
    split
    · exact nodup_sortedElements _
    · exact nodup_nil
  · obtain ⟨r, hget⟩ := Option.isSome_iff_exists.mp (hcoherent.indexed tenant run id hid)
    have hmade : RecordView.WellMade tenant ⟨run, id⟩ ((pooledView s.slab).onRecord r) :=
      hview.wellMade (by rw [Coordinator.view, Tables.getShard_mapRecords, hget]; rfl)
    have hkey : (⟨r.run, r.shard⟩ : ShardKey) = ⟨run, id⟩ := hmade.key_eq
    exact ⟨r, hget, hmade.tenant_eq, congrArg ShardKey.run hkey, congrArg ShardKey.shard hkey⟩
  · rintro ⟨r, hget, -⟩
    refine haccounted.complete tenant ⟨run, id⟩ ?_
    rw [Coordinator.view, Tables.getShard_mapRecords, hget]
    rfl
  · have hfits := haccounted.limits.perTenant tenant
    rw [show FMap2.sizeAt s.view.shards tenant = FMap2.sizeAt s.tables.shards tenant from
      FMap2.sizeAt_mapVals _ _ _] at hfits
    exact hfits.le ((FMap2.sizeAt_le_total _ _).trans hbound)
  · exact Fits.le haccounted.limits.total (hcoherent.counted.le.trans hbound)

/-- A run whose shard has given away its upper half: two shards, both counted and listed. -/
theorem accounting_split : ∃ responses s,
    execute Demo.nextEnv Demo.halved Demo.fresh = .ok (responses, s) ∧
    s.tables.totalShardCount = 2 ∧ FMap2.total s.tables.shards = 2 ∧
    (s.tables.runShardIds Demo.tenant Demo.run).Nodup ∧
    s.tables.totalShardCount ≤ s.tables.config.maxTotalShards := by
  have hrun : (execute Demo.nextEnv Demo.halved Demo.fresh).okAnd
      (fun r => decide (r.2.tables.totalShardCount = 2)) = true := by decide +kernel
  obtain ⟨⟨responses, s⟩, hrun, htwo⟩ := Outcome.exists_of_okAnd hrun
  have htwo : s.tables.totalShardCount = 2 := of_decide_eq_true htwo
  obtain ⟨htotal, hindex, -, hlimit⟩ := accounting
    ((Reachable.init Demo.fresh_nextEnv).execute hrun)
  exact ⟨responses, s, hrun, htwo, htotal.symm.trans htwo, (hindex _ _).1, hlimit⟩

end GossipRs
