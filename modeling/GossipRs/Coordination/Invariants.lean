import GossipRs.Coordination.Inversion

/-! The numbered invariants of records as propositions: they hold exactly when the
`assertInvariants` of the source passes. -/

namespace GossipRs

open Lib Stdx Outcome

variable {ε : Type}

/-- INV-1 to INV-10 of a shard record. -/
structure RecordView.Invariant (r : RecordView) : Prop where
  parked_iff : r.status = .parked ↔ r.parkReason.isSome
  terminal_unleased : r.status.isTerminal → r.lease.isNone
  fence_pos : FenceEpoch.initial ≤ r.fenceEpoch
  opLog_le : r.opLog.length ≤ ShardRecord.opLogCap
  split_spawned : r.status = .split → r.spawned.length ≠ 0
  parent_derived : r.parent.isSome → r.shard.isDerived
  derived_parent : r.shard.isDerived → r.parent.isSome
  spawned_derived : ∀ id ∈ r.spawned, id.isDerived
  opLog_nodup : (r.opLog.map OpLogEntry.opId).Nodup
  spawned_le : r.spawned.length ≤ maxSpawnedPerShard

theorem assertInvariants_eq_ok {r : RecordView} :
    (viewReader.assertInvariants r : Run ε Unit) = .ok u ↔ r.Invariant := by
  unfold Reader.assertInvariants ShardRecord.assertInvariants
    ShardRecord.assertLifecycleInvariants ShardRecord.assertLineageInvariants
  have hr : (viewReader.spawned r.spawned).widen = (.ok r.spawned : Run ε _) := rfl
  rw [hr, ok_bind]
  simp only [check_eq_ok, assert_eq_ok]
  constructor
  · rintro ⟨⟨h1, h3, h4, h5⟩, h6, h7, h7', h8, h9, h10⟩
    exact ⟨h1, h3, h4, h5, h6, h7, h7', h8, h9, h10⟩
  · rintro ⟨h1, h3, h4, h5, h6, h7, h7', h8, h9, h10⟩
    exact ⟨⟨h1, h3, h4, h5⟩, h6, h7, h7', h8, h9, h10⟩

/-- INV-1 to INV-11 of a run record; INV-8 is a field of the configuration. -/
structure RunRecord.Invariant (r : RunRecord) : Prop where
  active_roots : r.status = .active → r.rootShards ≠ []
  completed_terminal : r.completedAt.isSome = r.status.isTerminal
  created_pos : 0 < r.createdAt
  initializing_roots : r.status = .initializing → r.rootShards = []
  created_le : ∀ completed ∈ r.completedAt, r.createdAt ≤ completed
  roots_nodup : r.rootShards.Nodup
  opLog_le : r.opLog.length ≤ opLogCap
  opLog_nodup : (r.opLog.map RunOpLogEntry.opId).Nodup
  opLog_ordered : r.opLog.IsChain fun prev entry => prev.executedAt ≤ entry.executedAt
  opLog_matches : ∀ entry ∈ r.opLog, entry.result.matchesKind entry.kind = true

theorem RunRecord.assertInvariants_eq_ok {r : RunRecord} :
    (r.assertInvariants : Run ε Unit) = .ok u ↔ r.Invariant := by
  simp only [RunRecord.assertInvariants, RunRecord.assertLifecycleInvariants,
    RunRecord.assertOplogInvariants, check_eq_ok, assert_eq_ok,
    Option.all_eq_true, decide_eq_true_eq]
  constructor
  · rintro ⟨⟨h1, h2, h3, h4, h5, h9⟩, h6, h7, h10, h11⟩
    exact ⟨h1, h2, h3, h4, h5, h9, h6, h7, h10, h11⟩
  · rintro ⟨h1, h2, h3, h4, h5, h9, h6, h7, h10, h11⟩
    exact ⟨⟨h1, h2, h3, h4, h5, h9⟩, h6, h7, h10, h11⟩

end GossipRs
