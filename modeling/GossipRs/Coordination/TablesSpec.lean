import GossipRs.Coordination.Tables

/-! What the operations on the maps keep: the cached count is the number of shards, and every id in
the run index has a record, except for a split parent that is out of the map. -/

namespace GossipRs

open Lib Stdx List

namespace Tables

variable {ε R : Type} {t : Tables R} {tenant tenant' : TenantId} {key key' : ShardKey}
  {run run' : RunId} {id id' : ShardId} {r r' : R}

/-! ## Lookups -/

theorem getShard_setShard (t : Tables R) (tenant tenant') (key key' : ShardKey) (r : R) :
    (t.setShard tenant key r).getShard tenant' key' =
      if tenant' = tenant ∧ key' = key then some r else t.getShard tenant' key' :=
  FMap2.get_set _ _ _ _ _ _

theorem getShard_putShard (t : Tables R) (tenant tenant') (key key' : ShardKey) (r : R) :
    (t.putShard tenant key r).getShard tenant' key' =
      if tenant' = tenant ∧ key' = key then some r else t.getShard tenant' key' :=
  FMap2.get_set _ _ _ _ _ _

theorem getShard_dropShard (t : Tables R) (tenant tenant') (key key' : ShardKey) :
    (t.dropShard tenant key).getShard tenant' key' =
      if tenant' = tenant ∧ key' = key then none else t.getShard tenant' key' :=
  FMap2.get_remove _ _ _ _ _

theorem indexShards_eq (t : Tables R) (tenant run ids) :
    t.indexShards tenant run ids =
      { t with runShards := (t.indexShards tenant run ids).runShards } := by
  induction ids generalizing t with
  | nil => rfl
  | cons id rest ih => exact ih (t.indexShard tenant run id)

@[simp] theorem getShard_indexShards (ids) :
    (t.indexShards tenant run ids).getShard tenant' key = t.getShard tenant' key := by
  rw [indexShards_eq]
  rfl

theorem setShard_self (h : t.getShard tenant key = some r) : t.setShard tenant key r = t := by
  obtain ⟨_, hm, hv⟩ := FMap2.get_eq_some.mp h
  unfold setShard FMap2.set
  rw [hm, Option.getD_some, FMap.insert_of_lookup hv, FMap.insert_of_lookup hm]

def putShards (t : Tables R) (tenant : TenantId) : List (ShardKey × R) → Tables R
  | [] => t
  | (key, r) :: rest => (t.putShard tenant key r).putShards tenant rest

theorem isSome_putShard (h : (t.getShard tenant' key').isSome) :
    ((t.putShard tenant key r).getShard tenant' key').isSome := by
  rw [getShard_putShard]
  split
  · rfl
  · exact h

theorem isSome_putShards (h : (t.getShard tenant' key').isSome) :
    ((t.putShards tenant staged).getShard tenant' key').isSome := by
  induction staged generalizing t with
  | nil => exact h
  | cons entry rest ih => exact ih (isSome_putShard h)

theorem isSome_putShards_of_mem (h : key ∈ staged.map Prod.fst) :
    ((t.putShards tenant staged).getShard tenant key).isSome := by
  induction staged generalizing t with
  | nil => cases h
  | cons entry rest ih =>
    rcases mem_cons.mp h with rfl | hm
    · refine isSome_putShards (t := t.putShard tenant entry.1 entry.2) ?_
      rw [getShard_putShard, if_pos ⟨rfl, rfl⟩]
      rfl
    · exact ih hm

/-- Every entry goes in under a key that is not taken, also not by an earlier entry. -/
def AllNew (t : Tables R) (tenant : TenantId) : List (ShardKey × R) → Prop
  | [] => True
  | (key, r) :: rest => t.getShard tenant key = none ∧ (t.putShard tenant key r).AllNew tenant rest

variable {entries : List (ShardKey × R)}

theorem AllNew.getShard_eq_none (h : t.AllNew tenant entries) :
    ∀ entry ∈ entries, t.getShard tenant entry.1 = none := by
  induction entries generalizing t with
  | nil => intro entry he; cases he
  | cons first rest ih =>
    intro entry he
    rcases mem_cons.mp he with rfl | hm
    · exact h.1
    have := ih h.2 entry hm
    rw [getShard_putShard] at this
    split at this
    · cases this
    · exact this

theorem AllNew.nodup (h : t.AllNew tenant entries) : (entries.map Prod.fst).Nodup := by
  induction entries generalizing t with
  | nil => exact nodup_nil
  | cons first rest ih =>
    refine nodup_cons.mpr ⟨fun hm => ?_, ih h.2⟩
    obtain ⟨entry, he, heq⟩ := mem_map.mp hm
    have := h.2.getShard_eq_none entry he
    rw [heq, getShard_putShard, if_pos ⟨rfl, rfl⟩] at this
    cases this

theorem allNew_of_nodup (hn : (entries.map Prod.fst).Nodup)
    (h : ∀ entry ∈ entries, t.getShard tenant entry.1 = none) : t.AllNew tenant entries := by
  induction entries generalizing t with
  | nil => trivial
  | cons first rest ih =>
    rw [map_cons, nodup_cons] at hn
    refine ⟨h first mem_cons_self, ih hn.2 fun entry he => ?_⟩
    rw [getShard_putShard, if_neg]
    · exact h entry (mem_cons_of_mem _ he)
    · rintro ⟨-, heq⟩
      exact hn.1 (heq ▸ mem_map_of_mem he)

theorem AllNew.getShard_putShards (h : t.AllNew tenant entries) :
    (t.putShards tenant entries).getShard tenant' key' = some r ↔
      tenant' = tenant ∧ (key', r) ∈ entries ∨ t.getShard tenant' key' = some r := by
  induction entries generalizing t with
  | nil => simp [putShards]
  | cons first rest ih =>
    have hn := h.1
    rw [putShards, ih h.2, getShard_putShard, mem_cons]
    by_cases hk : tenant' = tenant ∧ key' = first.1
    · obtain ⟨rfl, rfl⟩ := hk
      rw [if_pos ⟨rfl, rfl⟩, hn]
      constructor
      · rintro (⟨-, hm⟩ | hr)
        · exact .inl ⟨rfl, .inr hm⟩
        · cases hr
          exact .inl ⟨rfl, .inl rfl⟩
      rintro (⟨-, he | hm⟩ | hr)
      · exact .inr (congrArg (fun e => some e.2) he).symm
      · exact .inl ⟨rfl, hm⟩
      · cases hr
    · rw [if_neg hk]
      constructor
      · rintro (⟨ht, hm⟩ | hr)
        · exact .inl ⟨ht, .inr hm⟩
        · exact .inr hr
      rintro (⟨ht, he | hm⟩ | hr)
      · exact absurd ⟨ht, congrArg Prod.fst he⟩ hk
      · exact .inl ⟨ht, hm⟩
      · exact .inr hr

@[simp] theorem runShards_putShards (staged : List (ShardKey × R)) :
    (t.putShards tenant staged).runShards = t.runShards := by
  induction staged generalizing t with
  | nil => rfl
  | cons entry rest ih => exact ih

@[simp] theorem runs_putShards (staged : List (ShardKey × R)) :
    (t.putShards tenant staged).runs = t.runs := by
  induction staged generalizing t with
  | nil => rfl
  | cons entry rest ih => exact ih

/-! ## The shard count -/

def Counted (t : Tables R) : Prop := t.totalShardCount = FMap2.total t.shards

theorem Counted.assertShardCount (h : t.Counted) : (t.assertShardCount : Run ε Unit) = .ok () :=
  Outcome.assert_of_true h

theorem Counted.setShard (h : t.Counted) (hg : t.getShard tenant key = some r') :
    (t.setShard tenant key r).Counted :=
  h.trans (FMap2.total_set_of_some hg).symm

theorem Counted.putShard (h : t.Counted) (tenant) (key) (r) :
    (t.putShard tenant key r).Counted := by
  unfold Counted Tables.putShard shardContains
  unfold Counted at h
  cases hg : t.getShard tenant key with
  | none =>
    rw [FMap2.total_set_of_none hg, ← h]
    rfl
  | some old =>
    rw [FMap2.total_set_of_some hg, ← h]
    rfl

theorem Counted.dropShard (h : t.Counted) (tenant) (key) :
    (t.dropShard tenant key).Counted := by
  unfold Counted Tables.dropShard shardContains
  unfold Counted at h
  cases hg : t.getShard tenant key with
  | none =>
    rw [FMap2.remove_of_get_none hg]
    exact h
  | some old =>
    have := FMap2.total_eq_remove_add_one hg
    simp only [Option.isSome_some, if_true]
    omega

theorem Counted.count_pos (h : t.Counted) (hg : t.getShard tenant key = some r) :
    1 ≤ t.totalShardCount := by
  have := FMap2.total_eq_remove_add_one hg
  unfold Counted at h
  omega

theorem dropShard_of_none (h : t.getShard tenant key = none) : t.dropShard tenant key = t := by
  unfold dropShard shardContains
  rw [FMap2.remove_of_get_none h, h]
  rfl

theorem Counted.shardRemove (h : t.Counted) :
    (t.shardRemove tenant key : Run ε _) = .ok (t.getShard tenant key, t.dropShard tenant key) := by
  unfold Tables.shardRemove
  cases hm : t.shards.lookup tenant with
  | none =>
    have hn : t.getShard tenant key = none := by rw [getShard, FMap2.get, hm]; rfl
    rw [dropShard_of_none hn, hn]
    rfl
  | some inner =>
    have hg : t.getShard tenant key = inner.lookup key := by rw [getShard, FMap2.get, hm]; rfl
    have hp : (inner.lookup key).isSome → 1 ≤ t.totalShardCount := by
      intro hs
      obtain ⟨_, hr⟩ := Option.isSome_iff_exists.mp hs
      exact h.count_pos (hg.trans hr)
    dsimp only
    rw [Outcome.assert_of_true hp, Outcome.ok_bind, (h.dropShard tenant key).assertShardCount, hg]
    rfl

theorem Counted.putShard_dropShard (h : t.Counted) (hge : t.getShard tenant key = some r') :
    (t.dropShard tenant key).putShard tenant key r = t.setShard tenant key r := by
  have hp := h.count_pos hge
  have hg : (t.dropShard tenant key).shardContains tenant key = false := by
    simp [shardContains, getShard_dropShard]
  unfold Tables.putShard Tables.setShard
  rw [hg]
  unfold Tables.dropShard
  dsimp only
  rw [FMap2.set_remove, shardContains, hge]
  simp only [Option.isSome_some, if_true, Bool.false_eq_true, if_false]
  congr 1
  omega

theorem dropShard_putShard {inner} (hm : t.shards.lookup tenant = some inner)
    (h : t.getShard tenant key = none) : (t.putShard tenant key r).dropShard tenant key = t := by
  have hn : (t.putShard tenant key r).shardContains tenant key = true := by
    simp [shardContains, getShard_putShard]
  unfold dropShard
  rw [hn]
  unfold putShard
  dsimp only
  rw [FMap2.remove_set_of_get hm h, shardContains, h]
  rfl

theorem known_dropShard (h : t.getShard tenant key = some r) :
    ∃ inner, (t.dropShard tenant key).shards.lookup tenant = some inner := by
  obtain ⟨inner, hm, -⟩ := FMap2.get_eq_some.mp h
  refine ⟨inner.erase key, ?_⟩
  unfold dropShard FMap2.remove
  simp [hm, Finmap.lookup_insert]

/-! ## The run index -/

def Indexed (t : Tables R) : Prop :=
  ∀ tenant run id, id ∈ t.runShardIds tenant run → (t.getShard tenant ⟨run, id⟩).isSome

theorem mem_runShardIds :
    id ∈ t.runShardIds tenant run ↔
      ∃ ids, t.runShards.lookup (tenant, run) = some ids ∧ id ∈ ids := by
  unfold runShardIds
  cases t.runShards.lookup (tenant, run) with
  | none => simp
  | some ids => simp [mem_sortedElements]

theorem runShardIds_congr {t' : Tables R} (h : t'.runShards = t.runShards) :
    t'.runShardIds tenant run = t.runShardIds tenant run := by
  unfold runShardIds
  rw [h]

theorem mem_runShardIds_indexShard :
    id ∈ (t.indexShard tenant run id').runShardIds tenant' run' ↔
      tenant' = tenant ∧ run' = run ∧ id = id' ∨ id ∈ t.runShardIds tenant' run' := by
  rw [mem_runShardIds, mem_runShardIds]
  unfold indexShard
  dsimp only
  rw [FMap.lookup_insert_eq]
  by_cases h : (tenant', run') = (tenant, run)
  · obtain ⟨rfl, rfl⟩ := Prod.mk.inj h
    rw [if_pos rfl]
    cases t.runShards.lookup (tenant', run') <;> simp
  rw [if_neg h]
  have : ¬ (tenant' = tenant ∧ run' = run ∧ id = id') := fun hc => h (by rw [hc.1, hc.2.1])
  simp [this, false_or]

theorem mem_runShardIds_indexShards (ids) :
    id ∈ (t.indexShards tenant run ids).runShardIds tenant' run' ↔
      tenant' = tenant ∧ run' = run ∧ id ∈ ids ∨ id ∈ t.runShardIds tenant' run' := by
  induction ids generalizing t with
  | nil => simp [indexShards]
  | cons first rest ih =>
    have hs : t.indexShards tenant run (first :: rest) =
      (t.indexShard tenant run first).indexShards tenant run rest := rfl
    rw [hs, ih, mem_runShardIds_indexShard, mem_cons]
    tauto

theorem Indexed.setShard (h : t.Indexed) (tenant) (key : ShardKey) (r : R) :
    (t.setShard tenant key r).Indexed := by
  intro tenant' run id hid
  rw [getShard_setShard]
  split
  · rfl
  · exact h tenant' run id hid

/-- Every indexed id has a record, except perhaps one that is out of the map. -/
def IndexedBut (t : Tables R) (tenant : TenantId) (key : ShardKey) : Prop :=
  ∀ tenant' run id, id ∈ t.runShardIds tenant' run →
    tenant' = tenant ∧ ⟨run, id⟩ = key ∨ (t.getShard tenant' ⟨run, id⟩).isSome

theorem Indexed.dropShard (h : t.Indexed) (tenant) (key : ShardKey) :
    (t.dropShard tenant key).IndexedBut tenant key := by
  intro tenant' run id hid
  rw [getShard_dropShard]
  by_cases hk : tenant' = tenant ∧ (⟨run, id⟩ : ShardKey) = key
  · exact .inl hk
  · rw [if_neg hk]
    exact .inr (h tenant' run id hid)

theorem IndexedBut.putShard (h : t.IndexedBut tenant key) (r : R) :
    (t.putShard tenant key r).Indexed := by
  intro tenant' run id hid
  rw [getShard_putShard]
  rcases h tenant' run id hid with hk | hs
  · rw [if_pos hk]
    rfl
  split
  · rfl
  · exact hs

theorem IndexedBut.putShard_other (h : t.IndexedBut tenant key) (tenant' key') (r : R) :
    (t.putShard tenant' key' r).IndexedBut tenant key := by
  intro tenant1 run id hid
  rw [getShard_putShard]
  refine (h tenant1 run id hid).imp_right fun hs => ?_
  split
  · rfl
  · exact hs

theorem IndexedBut.indexShards (h : t.IndexedBut tenant key)
    (hids : ∀ id ∈ ids, (t.getShard tenant' ⟨run, id⟩).isSome) :
    (t.indexShards tenant' run ids).IndexedBut tenant key := by
  intro tenant1 run1 id hid
  rw [getShard_indexShards]
  rcases (mem_runShardIds_indexShards ids).mp hid with ⟨rfl, rfl, hm⟩ | ho
  · exact .inr (hids id hm)
  · exact h tenant1 run1 id ho

theorem IndexedBut.indexShard (h : t.IndexedBut tenant key)
    (hid : (t.getShard tenant' ⟨run, id⟩).isSome) :
    (t.indexShard tenant' run id).IndexedBut tenant key := by
  intro tenant1 run1 id1 hi1
  show _ ∨ (t.getShard tenant1 ⟨run1, id1⟩).isSome
  rcases mem_runShardIds_indexShard.mp hi1 with ⟨rfl, rfl, rfl⟩ | ho
  · exact .inr hid
  · exact h tenant1 run1 id1 ho

theorem Indexed.indexShards (h : t.Indexed)
    (hids : ∀ id ∈ ids, (t.getShard tenant ⟨run, id⟩).isSome) :
    (t.indexShards tenant run ids).Indexed := by
  intro tenant1 run1 id hid
  rw [getShard_indexShards]
  rcases (mem_runShardIds_indexShards ids).mp hid with ⟨rfl, rfl, hm⟩ | ho
  · exact hids id hm
  · exact h tenant1 run1 id ho

theorem Indexed.putShards (h : t.Indexed) (staged : List (ShardKey × R)) :
    (t.putShards tenant staged).Indexed := by
  intro tenant' run id hid
  rw [runShardIds_congr (runShards_putShards staged)] at hid
  exact isSome_putShards (h tenant' run id hid)

theorem Indexed.debugAssertRunShardsConsistent (h : t.Indexed) (debug) :
    (t.debugAssertRunShardsConsistent debug tenant run : Run ε Unit) = .ok () :=
  debugAssert_of_true (fun id hid => h tenant run id hid)

end Tables

end GossipRs
