import GossipRs.Contracts.Cursor

/-! The manifest of root shards that opens a run, its validation, and what an accepted one
guarantees. -/

namespace GossipRs

open Lib Outcome List

def maxInitialShards : Nat := 10000

structure InitialShardInput where
  shard : ShardId
  spec : ShardSpec
  cursor : CursorUpdate
deriving DecidableEq

inductive ManifestValidationError where
  | empty
  | duplicateIds (shardId : ShardId)
  | overlappingRanges (shardA shardB : ShardId)
  | invalidSpec (shardId : ShardId) (reason : ShardSpecInputError)
  | tooManyShards (count max : Nat)
  | cursorOutOfBounds (shardId : ShardId)
  | cursorKeyTooLarge (shardId : ShardId) (size max : Nat)
  | unboundedRange (shardId : ShardId)
deriving DecidableEq, Repr

def sortByShardId (shards : List InitialShardInput) : List InitialShardInput :=
  shards.insertionSort fun a b => a.shard ≤ b.shard

/-- The second sort of the source reuses the index buffer, so ties keep id order. -/
def sortByRangeStart (shards : List InitialShardInput) : List InitialShardInput :=
  (sortByShardId shards).insertionSort fun a b => a.spec.keyRangeStart ≤ b.spec.keyRangeStart

def validateManifest (shards : List InitialShardInput) : Run ManifestValidationError Unit := do
  Outcome.ensure (shards.length ≤ maxInitialShards) (.tooManyShards shards.length maxInitialShards)
  Outcome.ensure (shards ≠ []) .empty
  Outcome.eachPair (sortByShardId shards) fun a b =>
    Outcome.ensure (a.shard ≠ b.shard) (.duplicateIds a.shard)
  Outcome.each shards fun s =>
    Outcome.ensure (s.spec.keyRangeStart ≠ [] ∧ s.spec.keyRangeEnd ≠ []) (.unboundedRange s.shard)
  Outcome.each shards fun s => s.spec.validateRef.mapErr (.invalidSpec s.shard)
  Outcome.each (sortByRangeStart shards) fun s =>
    Outcome.ensure (¬ s.spec.Inverted) (.invalidSpec s.shard
      (.invertedRange s.spec.keyRangeStart.length s.spec.keyRangeEnd.length))
  Outcome.eachPair (sortByRangeStart shards) fun a b =>
    Outcome.ensure (a.spec.keyRangeEnd ≠ [] ∧ b.spec.keyRangeStart ≠ [] ∧
      a.spec.keyRangeEnd ≤ b.spec.keyRangeStart) (.overlappingRanges a.shard b.shard)
  Outcome.each shards fun s =>
    match s.cursor.lastKey with
    | some key => Outcome.ensure (key.length ≤ maxKeySize)
        (.cursorKeyTooLarge s.shard key.length maxKeySize)
    | none => return
  Outcome.each shards fun s =>
    match s.cursor.lastKey with
    | some key => Outcome.ensure (s.spec.containsKey key) (.cursorOutOfBounds s.shard)
    | none => return

/-! ## What an accepted manifest guarantees -/

structure ManifestValid (shards : List InitialShardInput) : Prop where
  count_le : shards.length ≤ maxInitialShards
  nonempty : shards ≠ []
  ids_nodup : (shards.map InitialShardInput.shard).Nodup
  bounded : ∀ s ∈ shards, s.spec.keyRangeStart ≠ [] ∧ s.spec.keyRangeEnd ≠ []
  spec_valid : ∀ s ∈ shards, s.spec.Valid
  disjoint : (shards.Pairwise fun a b =>
    a.spec.keyRangeEnd ≤ b.spec.keyRangeStart ∨ b.spec.keyRangeEnd ≤ a.spec.keyRangeStart)
  key_le : ∀ s ∈ shards, ∀ key ∈ s.cursor.lastKey, key.length ≤ maxKeySize
  cursor_in : ∀ s ∈ shards, ∀ key ∈ s.cursor.lastKey, s.spec.containsKey key

theorem perm_sortByShardId (shards) : (sortByShardId shards).Perm shards :=
  perm_insertionSort _ _

theorem perm_sortByRangeStart (shards) : (sortByRangeStart shards).Perm shards :=
  (perm_insertionSort _ _).trans (perm_sortByShardId shards)

variable {shards : List InitialShardInput}

theorem nodup_ids_of_adjacent (h : (sortByShardId shards).IsChain fun a b => a.shard ≠ b.shard) :
    (shards.map InitialShardInput.shard).Nodup := by
  have hs : (sortByShardId shards).Pairwise fun a b => a.shard ≤ b.shard :=
    pairwise_insertionSort _ _
  have hl : (sortByShardId shards).IsChain fun a b => a.shard < b.shard := by
    refine isChain_iff_getElem.mpr fun i hi => ?_
    have hne := isChain_iff_getElem.mp h i hi
    have hle := pairwise_iff_getElem.mp hs i (i + 1) (by omega) hi (by omega)
    exact lt_of_le_of_ne hle hne
  have hp : (sortByShardId shards).Pairwise fun a b => a.shard < b.shard :=
    isChain_iff_pairwise.mp hl
  have hn : ((sortByShardId shards).map InitialShardInput.shard).Nodup :=
    pairwise_map.mpr (hp.imp fun ha => ne_of_lt ha)
  exact ((perm_sortByShardId shards).map _).nodup_iff.mp hn

def Follows (a b : InitialShardInput) : Prop :=
  a.spec.keyRangeEnd ≤ b.spec.keyRangeStart ∧ b.spec.keyRangeStart < b.spec.keyRangeEnd

instance : IsTrans InitialShardInput Follows :=
  ⟨fun _ _ _ hab hbc => ⟨(hab.1.trans hab.2.le).trans hbc.1, hbc.2⟩⟩

theorem pairwise_apart_of_adjacent (hl : ∀ s ∈ shards, s.spec.keyRangeStart < s.spec.keyRangeEnd)
    (h : (sortByRangeStart shards).IsChain fun a b => a.spec.keyRangeEnd ≤ b.spec.keyRangeStart) :
    shards.Pairwise fun a b =>
      a.spec.keyRangeEnd ≤ b.spec.keyRangeStart ∨ b.spec.keyRangeEnd ≤ a.spec.keyRangeStart := by
  have hp := perm_sortByRangeStart shards
  have hf : (sortByRangeStart shards).IsChain Follows := by
    refine isChain_iff_getElem.mpr fun i hi => ⟨isChain_iff_getElem.mp h i hi, ?_⟩
    exact hl _ (hp.mem_iff.mp (getElem_mem hi))
  have hpa := isChain_iff_pairwise.mp hf
  refine (hp.pairwise_iff fun ha => ha.symm).mp (hpa.imp fun ha => .inl ha.1)

theorem ShardSpec.Valid.lt {spec : ShardSpec} (h : spec.Valid) (hs : spec.keyRangeStart ≠ [])
    (he : spec.keyRangeEnd ≠ []) : spec.keyRangeStart < spec.keyRangeEnd :=
  not_le.mp fun hl => h.not_inverted ⟨hs, he, hl⟩

/-! Conversely a valid manifest passes the checks on neighbours. -/

theorem ManifestValid.lt (h : ManifestValid shards) (hs : s ∈ shards) :
    s.spec.keyRangeStart < s.spec.keyRangeEnd :=
  (h.spec_valid s hs).lt (h.bounded s hs).1 (h.bounded s hs).2

theorem ManifestValid.adjacent_ids (h : ManifestValid shards) :
    (sortByShardId shards).IsChain fun a b => a.shard ≠ b.shard := by
  have hn := ((perm_sortByShardId shards).map InitialShardInput.shard).nodup_iff.mpr h.ids_nodup
  exact (pairwise_map.mp hn).isChain

theorem ManifestValid.adjacent_ranges (h : ManifestValid shards) :
    (sortByRangeStart shards).IsChain fun a b => a.spec.keyRangeEnd ≠ [] ∧
      b.spec.keyRangeStart ≠ [] ∧ a.spec.keyRangeEnd ≤ b.spec.keyRangeStart := by
  have hp := perm_sortByRangeStart shards
  have hs : (sortByRangeStart shards).Pairwise fun a b =>
      a.spec.keyRangeStart ≤ b.spec.keyRangeStart := pairwise_insertionSort _ _
  have hap := (hp.pairwise_iff fun hab => hab.symm).mpr h.disjoint
  refine List.Pairwise.isChain ((hs.and hap).imp_of_mem fun {a b} ha hb ⟨hl, hab⟩ => ?_)
  refine ⟨(h.bounded a (hp.mem_iff.mp ha)).2, (h.bounded b (hp.mem_iff.mp hb)).1, ?_⟩
  refine hab.resolve_right fun hba => ?_
  exact absurd (hba.trans hl) (not_le.mpr (h.lt (hp.mem_iff.mp hb)))

theorem cursor_check_eq_ok {cursor : Option Bytes} {c : Bytes → Prop} [DecidablePred c]
    {e : Bytes → ManifestValidationError} :
    (match cursor with
      | some key => Outcome.ensure (c key) (e key)
      | none => return : Run ManifestValidationError Unit) = .ok u ↔ ∀ key ∈ cursor, c key := by
  cases cursor with
  | none => exact ⟨fun _ => nofun, fun _ => rfl⟩
  | some key =>
    rw [ensure_eq_ok]
    exact ⟨fun h _ hk => Option.some.inj hk ▸ h, fun h => h key rfl⟩

/-- **Validation decides `ManifestValid`**: distinct ids, bounded disjoint ranges, cursors inside
them. -/
theorem validateManifest_eq_ok : validateManifest shards = .ok u ↔ ManifestValid shards := by
  unfold validateManifest
  simp only [check_eq_ok, eachPair_eq_ok, each_eq_ok,
    ensure_eq_ok, mapErr_eq_ok, ShardSpec.validateRef_eq_ok, cursor_check_eq_ok]
  constructor
  · rintro ⟨hco, hn, hid, hb, hv, -, ha, hk, hc⟩
    refine ⟨hco, hn, nodup_ids_of_adjacent hid, hb, hv, ?_, hk, hc⟩
    exact pairwise_apart_of_adjacent (fun s hs => (hv s hs).lt (hb s hs).1 (hb s hs).2)
      (ha.imp fun _ _ hab => hab.2.2)
  intro h
  exact ⟨h.count_le, h.nonempty, h.adjacent_ids, h.bounded, h.spec_valid,
    fun s hs => (h.spec_valid s ((perm_sortByRangeStart shards).mem_iff.mp hs)).not_inverted,
    h.adjacent_ranges, h.key_le, h.cursor_in⟩

end GossipRs
