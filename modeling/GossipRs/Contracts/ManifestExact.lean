import GossipRs.Contracts.Manifest
import GossipRs.Contracts.SplitCoverage

/-! What manifest validation decides. It compares neighbours in two sort orders; these tell about
every two shards, and the order of the manifest does not matter. -/

namespace GossipRs

open Lib List

variable {shards shards' : List InitialShardInput}

def ShardSpec.Apart (a b : ShardSpec) : Prop := ∀ key, ¬ (a.containsKey key ∧ b.containsKey key)

structure ShardSpec.Bounded (spec : ShardSpec) : Prop where
  stop_ne : spec.keyRangeEnd ≠ []
  lt : spec.keyRangeStart < spec.keyRangeEnd

theorem ManifestValid.bounded_spec (h : ManifestValid shards) (hs : s ∈ shards) :
    s.spec.Bounded :=
  ⟨(h.bounded s hs).2, h.lt hs⟩

theorem ShardSpec.Bounded.containsKey_iff {spec : ShardSpec} (h : spec.Bounded) :
    spec.containsKey key ↔ spec.keyRangeStart ≤ key ∧ key < spec.keyRangeEnd := by
  rw [ShardSpec.containsKey_iff, or_iff_right h.stop_ne]

/-- Bounded ranges share no key when one ends before the other starts: else the later start lies in
both. -/
theorem ShardSpec.Bounded.apart_iff {a b : ShardSpec} (ha : a.Bounded) (hb : b.Bounded) :
    a.Apart b ↔ a.keyRangeEnd ≤ b.keyRangeStart ∨ b.keyRangeEnd ≤ a.keyRangeStart := by
  constructor
  · intro h
    by_contra hcross
    obtain ⟨hab, hba⟩ := not_or.mp hcross
    refine h (max a.keyRangeStart b.keyRangeStart) ⟨ha.containsKey_iff.mpr ?_,
      hb.containsKey_iff.mpr ?_⟩
    · exact ⟨le_max_left _ _, max_lt ha.lt (not_le.mp hab)⟩
    · exact ⟨le_max_right _ _, max_lt (not_le.mp hba) hb.lt⟩
  rintro h key ⟨hk, hkb⟩
  obtain ⟨hk, hk'⟩ := ha.containsKey_iff.mp hk
  obtain ⟨hkb, hkb'⟩ := hb.containsKey_iff.mp hkb
  rcases h with h | h
  · exact absurd (hk'.trans_le h) (not_lt.mpr hkb)
  · exact absurd (hkb'.trans_le h) (not_lt.mpr hk)

theorem ManifestValid.perm (h : ManifestValid shards) (hp : shards.Perm shards') :
    ManifestValid shards' where
  count_le := hp.length_eq ▸ h.count_le
  nonempty := fun hn => h.nonempty (perm_nil.mp (hn ▸ hp))
  ids_nodup := (hp.map _).nodup_iff.mp h.ids_nodup
  bounded s hs := h.bounded s (hp.mem_iff.mpr hs)
  spec_valid s hs := h.spec_valid s (hp.mem_iff.mpr hs)
  disjoint := (hp.pairwise_iff fun ha => ha.symm).mp h.disjoint
  key_le s hs := h.key_le s (hp.mem_iff.mpr hs)
  cursor_in s hs := h.cursor_in s (hp.mem_iff.mpr hs)

/-- Distinct ids, well-formed ranges without a common key, cursors inside them. -/
structure DisjointManifest (shards : List InitialShardInput) : Prop where
  count : 1 ≤ shards.length ∧ shards.length ≤ maxInitialShards
  ids_nodup : (shards.map InitialShardInput.shard).Nodup
  spec_valid : ∀ s ∈ shards, s.spec.Valid
  apart : shards.Pairwise fun a b => a.spec.Apart b.spec
  cursor_in : ∀ s ∈ shards, ∀ key ∈ s.cursor.lastKey, s.spec.containsKey key

/-- **Validation accepts the disjoint manifests with bounded ranges and cursor keys within the size
limit**, in whatever order they are listed. -/
theorem manifest_exact (shards : List InitialShardInput) :
    (validateManifest shards = .ok () ↔ DisjointManifest shards ∧
      (∀ s ∈ shards, s.spec.keyRangeStart ≠ [] ∧ s.spec.keyRangeEnd ≠ []) ∧
      ∀ s ∈ shards, ∀ key ∈ s.cursor.lastKey, key.length ≤ maxKeySize) ∧
    ∀ shards', shards.Perm shards' →
      (validateManifest shards' = .ok () ↔ validateManifest shards = .ok ()) := by
  refine ⟨validateManifest_eq_ok.trans ⟨fun h => ⟨?_, h.bounded, h.key_le⟩, ?_⟩,
    fun shards' hperm => ?_⟩
  · refine ⟨⟨length_pos_iff.mpr h.nonempty, h.count_le⟩, h.ids_nodup, h.spec_valid, ?_, h.cursor_in⟩
    exact h.disjoint.imp_of_mem fun ha hb hab =>
      ((h.bounded_spec ha).apart_iff (h.bounded_spec hb)).mpr hab
  · rintro ⟨h, hbounded, hkey⟩
    have hspec : ∀ s ∈ shards, s.spec.Bounded := fun s hs =>
      ⟨(hbounded s hs).2, (h.spec_valid s hs).lt (hbounded s hs).1 (hbounded s hs).2⟩
    refine ⟨h.count.2, length_pos_iff.mp h.count.1, h.ids_nodup, hbounded, h.spec_valid, ?_, hkey,
      h.cursor_in⟩
    exact h.apart.imp_of_mem fun {a b} ha hb hab => ((hspec a ha).apart_iff (hspec b hb)).mp hab
  · rw [validateManifest_eq_ok, validateManifest_eq_ok]
    exact ⟨fun h => h.perm hperm.symm, fun h => h.perm hperm⟩

def wholeManifest : List InitialShardInput := [⟨⟨1⟩, ⟨[], [], []⟩, .initial⟩]

/-- A range without bounds shares no key with another range, and is refused. -/
theorem manifest_unbounded : DisjointManifest wholeManifest ∧
    validateManifest wholeManifest = .err (.unboundedRange ⟨1⟩) := by
  refine ⟨⟨by decide, by decide, fun s hs => ?_, pairwise_singleton _ _, fun s hs => ?_⟩, by decide⟩
  · rw [mem_singleton.mp hs]
    exact ⟨by decide, by decide, by decide, by decide⟩
  · rw [mem_singleton.mp hs]
    exact fun key hkey => absurd hkey (Option.not_mem_none _)

end GossipRs
