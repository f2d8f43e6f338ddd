import GossipRs.Contracts.PooledSpec
import GossipRs.Refinement.Naturality
import GossipRs.Abstract.Step

/-! How a coordinator stands for a view: its records own the live slots of the slab, and each reads
as a value. An operation that allocates is compared with its counterpart on views by `RefinesAt`. -/

namespace GossipRs

open Lib Stdx
open FMap2 (get get_set mapVals set sum sum_eq_add_remove)
open PooledCursor (getField held view_congr)

variable {ε α : Type} {env : Env} {s s' : Coordinator}

def pooledView (slab : ByteSlab) :
    FieldMap PooledShardSpec PooledCursor PooledSpawned ShardSpec CursorValue (List ShardId) :=
  ⟨PooledShardSpec.view slab, PooledCursor.view slab, PooledSpawned.view slab⟩

def ShardRecord.held (r : PooledRecord) : Multiset ByteSlot :=
  r.spec.held + r.cursor.held + r.spawned.held

def Tables.held (t : Tables PooledRecord) : Multiset ByteSlot :=
  FMap2.sum ShardRecord.held t.shards

def Coordinator.view (s : Coordinator) : View := s.tables.mapRecords (pooledView s.slab).onRecord

/-- The records own exactly the live slots, and the count and the index fit the map. -/
structure Coherent (env : Env) (s : Coordinator) : Prop where
  owns : Owns env.debug s.slab s.tables.held 0
  spawned : ∀ tenant key r, s.tables.getShard tenant key = some r → r.spawned.WellFormed
  counted : s.tables.Counted
  indexed : s.tables.Indexed

/-! ## Records -/

section Records

variable {debug : Bool} {slab slab' : ByteSlab} {live : Multiset ByteSlot} {r : PooledRecord}

theorem held_spec_le (h : r.held ≤ live) : r.spec.held ≤ live :=
  (le_self_add.trans le_self_add).trans h

theorem held_cursor_le (h : r.held ≤ live) : r.cursor.held ≤ live :=
  (le_add_self.trans le_self_add).trans h

theorem held_spawned_le (h : r.held ≤ live) : r.spawned.held ≤ live :=
  le_add_self.trans h

theorem getField_ok (h : Owns debug slab live 0) (ho : heldAll o.toList ≤ live) :
    (getField debug slab o : Run ε _) = .ok (o.map slab.readSlot) := by
  cases o with
  | none => rfl
  | some slot =>
    have hs : slot.held ≤ live := by simpa using ho
    simp [getField, h.get_held hs, Outcome.ok_bind, Outcome.pure_eq, Option.map_some]

theorem reads_of_held (h : Owns debug slab live 0) (hr : r.held ≤ live) :
    ((slab.get debug r.spec.keyRangeStart : Run ε _) = .ok (slab.readSlot r.spec.keyRangeStart) ∧
      (slab.get debug r.spec.keyRangeEnd : Run ε _) = .ok (slab.readSlot r.spec.keyRangeEnd) ∧
      (slab.get debug r.spec.metadata : Run ε _) = .ok (slab.readSlot r.spec.metadata)) ∧
    (getField debug slab r.cursor.lastKey : Run ε _) = .ok (r.cursor.lastKey.map slab.readSlot) ∧
    (getField debug slab r.cursor.token : Run ε _) = .ok (r.cursor.token.map slab.readSlot) := by
  have hsp : ∀ slot ∈ r.spec.slots, (slab.get debug slot : Run ε _) = .ok (slab.readSlot slot) :=
    fun slot hs => h.get_held ((held_le_heldAll hs).trans (held_spec_le hr))
  have hc : heldAll r.cursor.lastKey.toList + heldAll r.cursor.token.toList ≤ live := by
    have := held_cursor_le hr
    rwa [held, PooledCursor.slots, heldAll_append] at this
  exact ⟨by simpa [PooledShardSpec.slots] using hsp, getField_ok h (le_self_add.trans hc),
    getField_ok h (le_add_self.trans hc)⟩

theorem agrees_of_held (h : Owns debug slab live 0) (hr : r.held ≤ live)
    (hwf : r.spawned.WellFormed) :
    (pooledView slab).Agrees (pooledReader debug slab) viewReader r := by
  obtain ⟨⟨hs, he, hm⟩, hk, ht⟩ := reads_of_held h hr
  constructor
  · exact hs.symm
  · exact he.symm
  · exact hm.symm
  · exact hk.symm
  · exact ht.symm
  · exact (PooledSpawned.iter_ok h (held_spawned_le hr) hwf).symm
  · exact PooledSpawned.length_view hwf slab

theorem onRecord_congr (h : ByteSlab.SameReads live slab slab') (hr : r.held ≤ live) :
    (pooledView slab').onRecord r = (pooledView slab).onRecord r := by
  simp [FieldMap.onRecord, pooledView,
    PooledShardSpec.view_congr h (held_spec_le hr), view_congr h (held_cursor_le hr),
    PooledSpawned.view_congr h (held_spawned_le hr)]

theorem deallocateFields_spec (h : Owns debug slab (r.held + live) 0) :
    Prog.wp (ShardRecord.deallocateFields debug r : Prog ByteSlab Panic ε Unit) slab
      (fun _ slab' => Released debug slab live slab') (fun _ _ => False)
      (MetadataExhausted slab) := by
  rw [ShardRecord.held, add_assoc, add_assoc] at h
  unfold ShardRecord.deallocateFields
  refine Prog.wp_seq (deallocateAll_spec h) (fun _ slab1 h1 => ?_) (fun _ _ hf => hf)
    (fun _ hp => hp)
  refine Prog.wp_seq (deallocateAll_spec h1.owns) (fun _ slab2 h2 => ?_) (fun _ _ hf => hf)
    (fun _ hp => hp.of_capacity h1.capacity)
  have h12 := h1.trans h2 le_add_self
  refine Prog.wp_mono (deallocate_spec h2.owns) (fun _ slab3 h3 => ?_) (fun _ _ hf => hf)
    (fun _ hp => hp.of_capacity h12.capacity)
  exact h12.trans h3 le_add_self

end Records

/-! ## Tables -/

variable {t : Tables PooledRecord}

theorem held_le_tables (h : t.getShard tenant key = some r) : r.held ≤ t.held := by
  rw [Tables.held, sum_eq_add_remove h]
  exact le_self_add

theorem mapRecords_congr (h : ByteSlab.SameReads t.held slab slab') :
    t.mapRecords (pooledView slab').onRecord = t.mapRecords (pooledView slab).onRecord := by
  unfold Tables.mapRecords
  rw [FMap2.mapVals_congr fun _ _ _ hg => onRecord_congr h (held_le_tables hg)]

theorem Coherent.agreesOn (h : Coherent env s) :
    (pooledView s.slab).AgreesOn (pooledReader env.debug s.slab) viewReader s.tables :=
  fun tenant key r hr => agrees_of_held h.owns (held_le_tables hr) (h.spawned tenant key r hr)

theorem Coherent.of_shards (h : Coherent env s) (hs : t.shards = s.tables.shards)
    (hc : t.totalShardCount = s.tables.totalShardCount)
    (hin : t.runShards = s.tables.runShards) : Coherent env { s with tables := t } where
  owns := by
    rw [Tables.held, hs]
    exact h.owns
  spawned tenant key r hr := h.spawned tenant key r (by
    rw [Tables.getShard, hs] at hr
    exact hr)
  counted := by
    rw [Tables.Counted, hc, hs]
    exact h.counted
  indexed tenant run id hid := by
    rw [Tables.runShardIds_congr hin] at hid
    rw [Tables.getShard, hs]
    exact h.indexed tenant run id hid

theorem Coherent.setShard (h : Coherent env s) {r r' : PooledRecord}
    (hg : s.tables.getShard tenant key = some r) (hs : r.SameStored r') :
    Coherent env { s with tables := s.tables.setShard tenant key r' } where
  owns := by
    have hh : r'.held = r.held := by
      simp [ShardRecord.held, hs.spec, hs.cursor, hs.spawned]
    rw [Tables.held, Tables.setShard, FMap2.sum_set_of_some hg, hh, ← sum_eq_add_remove hg]
    exact h.owns
  spawned tenant' key' r1 hr1 := by
    unfold Tables.getShard Tables.setShard at hr1
    dsimp only at hr1
    rw [get_set] at hr1
    split at hr1
    · cases hr1
      rw [hs.spawned]
      exact h.spawned tenant key r hg
    · exact h.spawned tenant' key' r1 hr1
  counted := h.counted.setShard hg
  indexed := h.indexed.setShard tenant key r'

/-! ## Slots that no table holds yet -/

/-- The tables without one shard. -/
def Tables.restHeld (t : Tables PooledRecord) (tenant : TenantId) (key : ShardKey) :
    Multiset ByteSlot :=
  FMap2.sum ShardRecord.held (FMap2.remove t.shards tenant key)

/-- The records own the live slots, apart from `extra`; the index may be ahead of the map. -/
structure Holding (env : Env) (extra : Multiset ByteSlot) (s : Coordinator) : Prop where
  owns : Owns env.debug s.slab (extra + s.tables.held) 0
  spawned : ∀ tenant key r, s.tables.getShard tenant key = some r → r.spawned.WellFormed
  counted : s.tables.Counted

theorem Coherent.holding (h : Coherent env s) : Holding env 0 s :=
  ⟨by rw [zero_add]; exact h.owns, h.spawned, h.counted⟩

theorem Holding.coherent (h : Holding env 0 s) (hin : s.tables.Indexed) : Coherent env s :=
  ⟨by have := h.owns; rwa [zero_add] at this, h.spawned, h.counted, hin⟩

section Replace

variable {extra : Multiset ByteSlot} {tenant : TenantId} {key : ShardKey} {r r' : PooledRecord}
  {slab' : ByteSlab}

theorem held_eq_add_rest (h : s.tables.getShard tenant key = some r) :
    s.tables.held = r.held + s.tables.restHeld tenant key :=
  sum_eq_add_remove h

theorem restHeld_of_none (h : t.getShard tenant key = none) : t.restHeld tenant key = t.held := by
  rw [Tables.restHeld, Tables.held, FMap2.remove_of_get_none h]

theorem held_le_rest (h : t.getShard tenant' key' = some r)
    (hn : ¬ (tenant' = tenant ∧ key' = key)) : r.held ≤ t.restHeld tenant key := by
  have hg : get (FMap2.remove t.shards tenant key) tenant' key' = some r := by
    rw [FMap2.get_remove, if_neg hn]
    exact h
  rw [Tables.restHeld, sum_eq_add_remove hg]
  exact le_self_add

theorem held_set (t : Tables PooledRecord) :
    sum ShardRecord.held (set t.shards tenant key r) = r.held + t.restHeld tenant key := by
  cases hg : t.getShard tenant key with
  | none => rw [restHeld_of_none hg, FMap2.sum_set_of_none hg]; rfl
  | some old => exact FMap2.sum_set_of_some hg

theorem Holding.of_set (hs : s.tables.shards = set t.shards tenant key r)
    (hc : s.tables.Counted)
    (ho : Owns env.debug s.slab (extra + (r.held + t.restHeld tenant key)) 0)
    (hwf : r.spawned.WellFormed)
    (hr : ∀ tenant key r, t.getShard tenant key = some r → r.spawned.WellFormed) :
    Holding env extra s where
  owns := by rwa [Tables.held, hs, held_set]
  spawned tenant' key' r1 hr1 := by
    unfold Tables.getShard at hr1
    rw [hs, get_set] at hr1
    split at hr1
    · cases hr1
      exact hwf
    · exact hr tenant' key' r1 hr1
  counted := hc

theorem mapVals_set_rest (hs : ByteSlab.SameReads (t.restHeld tenant key) slab slab') :
    mapVals (pooledView slab').onRecord (set t.shards tenant key r) =
      set (mapVals (pooledView slab).onRecord t.shards) tenant key
        ((pooledView slab').onRecord r) :=
  FMap2.mapVals_set_congr r fun _ _ _ hg hn => onRecord_congr hs (held_le_rest hg hn)

end Replace

/-! ## Refinement -/

/-- Nothing observable changed: the maps, what every record reads, and the amount of free memory. -/
structure Unchanged (env : Env) (s s' : Coordinator) : Prop where
  tables : s'.tables = s.tables
  coherent : Coherent env s'
  same : ByteSlab.SameReads s.tables.held s.slab s'.slab
  capacity : s'.slab.capacity = s.slab.capacity

theorem Unchanged.refl (h : Coherent env s) : Unchanged env s s := ⟨rfl, h, .refl _ _, rfl⟩

theorem Unchanged.of_released (h : Coherent env s)
    (hr : Released env.debug s.slab s.tables.held slab) : Unchanged env s { s with slab } :=
  ⟨rfl, ⟨hr.owns, h.spawned, h.counted, h.indexed⟩, hr.same, hr.capacity⟩

theorem Unchanged.view (h : Unchanged env s s') : s'.view = s.view := by
  rw [Coordinator.view, Coordinator.view, h.tables]
  exact mapRecords_congr h.same

theorem Unchanged.availableBytes (h : Unchanged env s s') (hs : Coherent env s) :
    s'.slab.availableBytes = s.slab.availableBytes := by
  have h1 := hs.owns.availableBytes_add
  have h2 := h.coherent.owns.availableBytes_add
  rw [h.tables, h.capacity] at h2
  omega

def ShardOpError.IsExhausted : ShardOpError → Prop
  | .resourceExhausted _ => True
  | .coord _ => False

/-- The operation `m` agrees with `a` on the view of the coordinator. It may also run out of slab
memory or exhaust the metadata of a large slab, but only when the call gets as far as executing
(`fresh`). -/
def RefinesAt (env : Env) (s : Coordinator) (full : ε → Prop) (fresh : Prop) (m : Op ε α)
    (a : Run ε (α × View)) : Prop :=
  Prog.wp m s
    (fun x s' => Coherent env s' ∧ s'.slab.capacity = s.slab.capacity ∧ a = .ok (x, s'.view))
    (fun e s' => Unchanged env s s' ∧ (a = .err e ∨ fresh ∧ full e))
    (fun p => a = .panic p ∨ fresh ∧ MetadataExhausted s.slab p)

theorem onTables_refines (h : Coherent env s)
    (f : Reader PooledShardSpec PooledCursor PooledSpawned → Tables PooledRecord →
      Run ε (α × Tables PooledRecord)) (g : View → Run ε (α × View))
    (hn : g s.view = (pooledView s.slab).onResult <$> f (pooledReader env.debug s.slab) s.tables)
    (hc : ∀ a t, f (pooledReader env.debug s.slab) s.tables = .ok (a, t) →
      Coherent env { s with tables := t }) :
    RefinesAt env s (fun _ => False) False (Coordinator.onTables env.debug f) (g s.view) := by
  unfold RefinesAt Prog.wp Coordinator.onTables
  rw [hn]
  cases hf : f (pooledReader env.debug s.slab) s.tables with
  | ok r => exact ⟨hc r.1 r.2 hf, rfl, rfl⟩
  | err e => exact ⟨.refl h, .inl rfl⟩
  | panic p => exact .inl rfl

end GossipRs
