import GossipRs.Git.BlobIntro
import GossipRs.Lib.LinearProbe
import GossipRs.Stdx.ByteSlab

/-! The table under the set of loose object ids (`LooseOidSet` in `blob_introducer.rs`): linear
probing from the hash of an id, a tag to reject early, and a limit on the ids. The number of slots
is a power of two, and `& mask` is the remainder. -/

namespace GossipRs.Git

open Lib Lib.Probing
open Stdx (nextPowerOfTwo)
open Function (update)

def tableSizeForCount (count : Nat) : Nat :=
  nextPowerOfTwo (max ((min (count * 10) (2 ^ 64 - 1) + 6) / 7) 1)

/-- `mix64`, Stafford's variant 13. -/
def mix64 (x : UInt64) : UInt64 :=
  let x := (x ^^^ (x >>> 30)) * 0xbf58476d1ce4e5b9
  let x := (x ^^^ (x >>> 27)) * 0x94d049bb133111eb
  x ^^^ (x >>> 31)

def hashOid (oid : OidBytes) : UInt64 :=
  let head := UInt64.ofNat (ofLeBytes (oid.bytes.take 8))
  let tail := UInt64.ofNat (ofLeBytes (oid.bytes.drop (oid.len - 8)))
  mix64 (head ^^^ ((tail <<< 32) ||| (tail >>> 32)) ^^^ (UInt64.ofNat oid.len <<< 56))

structure LooseEntry where
  key : OidBytes
  tag : UInt64
  occupied : Bool

def LooseEntry.empty : LooseEntry := ⟨⟨List.replicate 20 0, by simp⟩, 0, false⟩

structure LooseOidTable where
  entries : Nat → LooseEntry
  mask : Nat
  len : Nat
  maxItems : Nat
  kind : MappingCandidateKind

namespace LooseOidTable

def new (maxItems : UInt32) (kind : MappingCandidateKind) : LooseOidTable :=
  let maxItems := max maxItems.toNat 1
  ⟨fun _ => .empty, tableSizeForCount maxItems - 1, 0, maxItems, kind⟩

/-- What a search compares: the tag and the id of an occupied slot. -/
def live (table : LooseOidTable) (slot : Nat) : Option (UInt64 × OidBytes) :=
  let entry := table.entries slot
  if !entry.occupied then none else some (entry.tag, entry.key)

def tagged (oid : OidBytes) : UInt64 × OidBytes := (hashOid oid >>> 56, oid)

def home (key : UInt64 × OidBytes) : Nat := (hashOid key.2).toNat

def search (table : LooseOidTable) (oid : OidBytes) : Probe :=
  let size := table.mask + 1
  probe table.live size (tagged oid) size (home (tagged oid) % size)

def contains (table : LooseOidTable) (oid : OidBytes) : Bool :=
  match table.search oid with
  | .hit => true
  | _ => false

def limitError (table : LooseOidTable) : TreeDiffError :=
  .candidateLimitExceeded table.kind table.maxItems (min (table.len + 1) (2 ^ 32 - 1))

/-- `insert`. The limit is tested before the table is searched. -/
def insert (table : LooseOidTable) (oid : OidBytes) :
    Except TreeDiffError (Bool × LooseOidTable) :=
  if table.maxItems ≤ table.len then .error table.limitError
  else
    match table.search oid with
    | .free slot => .ok (true, { table with
        entries := update table.entries slot ⟨oid, (tagged oid).1, true⟩
        len := table.len + 1 })
    | .hit => .ok (false, table)
    | .full => .error table.limitError

/-- A call of `insert`, and the ids that were taken in. -/
def step (state : LooseOidTable × List OidBytes) (oid : OidBytes) :
    LooseOidTable × List OidBytes :=
  match state.1.insert oid with
  | .ok (true, table) => (table, oid :: state.2)
  | .ok (false, table) => (table, state.2)
  | .error _ => state

/-- The table after a history of inserts, with the ids stored in it. -/
def run (maxItems : UInt32) (kind : MappingCandidateKind) (history : List OidBytes) :
    LooseOidTable × List OidBytes :=
  history.foldl step (new maxItems kind, [])

/-- The table holds the ids, and has more slots than it takes ids. -/
structure Inv (max : Nat) (table : LooseOidTable) (oids : List OidBytes) : Prop where
  max_eq : table.maxItems = max
  len : table.len = oids.length
  le : oids.length ≤ max
  lt : max < table.mask + 1
  nodup : oids.Nodup
  holds : Holds (table.mask + 1) home table.live (oids.map tagged)

variable {max : Nat} {table : LooseOidTable} {oids : List OidBytes}

theorem lt_tableSizeForCount {count : Nat} (hp : 0 < count) (hc : count < 2 ^ 32) :
    count < tableSizeForCount count := by
  have h := Nat.le_pow_clog Nat.one_lt_two ((min (count * 10) (2 ^ 64 - 1) + 6) / 7 ⊔ 1)
  rw [tableSizeForCount, nextPowerOfTwo]
  omega

theorem Inv.new (maxItems : UInt32) (kind : MappingCandidateKind) :
    Inv (maxItems.toNat ⊔ 1) (LooseOidTable.new maxItems kind) [] := by
  have hu := maxItems.toNat_lt
  have hlt : maxItems.toNat ⊔ 1 < tableSizeForCount (maxItems.toNat ⊔ 1) :=
    lt_tableSizeForCount (by omega) (by omega)
  refine ⟨rfl, rfl, Nat.zero_le _, ?_, .nil, .empty fun _ => rfl⟩
  simp only [LooseOidTable.new]
  omega

theorem mem_map_tagged {oid : OidBytes} : tagged oid ∈ oids.map tagged ↔ oid ∈ oids :=
  List.mem_map_of_injective fun _ _ h => (Prod.mk.inj h).2

section

variable (h : Inv max table oids)
include h

/-- An id that is not held finds a free slot, since the table is never full. -/
theorem Inv.search_cases (oid : OidBytes) :
    oid ∈ oids ∧ table.search oid = .hit ∨
    oid ∉ oids ∧ ∃ slot, table.search oid = .free slot ∧ Holds (table.mask + 1) home
      (update table.live slot (some (tagged oid))) ((oid :: oids).map tagged) := by
  rcases h.holds.probe_cases (Nat.succ_pos _) (tagged oid) with
    ⟨hm, hr⟩ | ⟨hm, -, slot, hr, hs⟩ | ⟨-, hfull, -⟩
  · exact .inl ⟨mem_map_tagged.mp hm, hr⟩
  · exact .inr ⟨fun hc => hm (mem_map_tagged.mpr hc), slot, hr, hs⟩
  · have := h.lt
    have := h.le
    rw [List.length_map] at hfull
    omega

theorem Inv.contains_iff (oid : OidBytes) : table.contains oid = true ↔ oid ∈ oids := by
  unfold contains
  rcases h.search_cases oid with ⟨hm, hr⟩ | ⟨hm, slot, hr, -⟩ <;> simp [hr, hm]

/-- An insert below the limit. -/
theorem Inv.insert_of_lt (hlt : oids.length < max) (oid : OidBytes) :
    oid ∈ oids ∧ table.insert oid = .ok (false, table) ∨
    oid ∉ oids ∧ ∃ after, table.insert oid = .ok (true, after) ∧ Inv max after (oid :: oids) := by
  unfold insert
  rw [h.len, h.max_eq, if_neg (not_le.mpr hlt)]
  rcases h.search_cases oid with ⟨hm, hr⟩ | ⟨hm, slot, hr, hs⟩
  · exact .inl ⟨hm, by rw [hr]⟩
  · rw [hr]
    refine .inr ⟨hm, _, rfl, rfl, rfl, hlt, h.lt, List.nodup_cons.mpr ⟨hm, h.nodup⟩, ?_⟩
    convert hs using 1
    funext i
    by_cases hi : i = slot <;> simp [live, tagged, hi]

theorem Inv.insert_of_le (hle : max ≤ oids.length) (oid : OidBytes) :
    table.insert oid = .error table.limitError :=
  if_pos (h.max_eq ▸ h.len ▸ hle)

/-- The table refines the set that the walk over the trees is modelled with. -/
theorem Inv.insert_refines (oid : OidBytes) :
    match LooseOidSet.insert ⟨oids, max⟩ oid with
    | .ok (new, set) => ∃ after, table.insert oid = .ok (new, after) ∧ Inv max after set.oids
    | .error _ => table.insert oid = .error table.limitError := by
  rw [LooseOidSet.insert]
  by_cases hle : max ≤ oids.length
  · simp [hle, h.insert_of_le hle]
  · rcases h.insert_of_lt (not_le.mp hle) oid with ⟨hm, hr⟩ | ⟨hm, after, hr, hi⟩
    · simp [hle, hm, hr, h]
    · simp [hle, hm, hr, hi]

theorem Inv.step (oid : OidBytes) :
    Inv max (step (table, oids) oid).1 (step (table, oids) oid).2 := by
  unfold LooseOidTable.step
  by_cases hlt : oids.length < max
  · rcases h.insert_of_lt hlt oid with ⟨-, hr⟩ | ⟨-, after, hr, hi⟩
    · simp [hr, h]
    · simp [hr, hi]
  · simp [h.insert_of_le (not_lt.mp hlt), h]

theorem Inv.foldl (history : List OidBytes) :
    Inv max (history.foldl LooseOidTable.step (table, oids)).1
      (history.foldl LooseOidTable.step (table, oids)).2 := by
  induction history generalizing table oids with
  | nil => exact h
  | cons oid history ih => exact ih (h.step oid)

end

/-- After any history `contains` knows the stored ids, and an insert that does not repeat a stored
id at the limit answers by membership: the limit error is for a new id of a full set. -/
theorem insert_of_room (maxItems : UInt32) (kind : MappingCandidateKind) (history : List OidBytes)
    (oid : OidBytes) :
    let max := maxItems.toNat ⊔ 1
    let table := (run maxItems kind history).1
    let stored := (run maxItems kind history).2
    stored.Nodup ∧ (table.contains oid = true ↔ oid ∈ stored) ∧
    ((oid ∈ stored → stored.length < max) →
      (oid ∈ stored → table.insert oid = .ok (false, table)) ∧
      (oid ∉ stored → stored.length < max → ∃ after, table.insert oid = .ok (true, after)) ∧
      (∀ e, table.insert oid = .error e → oid ∉ stored ∧ stored.length = max)) := by
  intro max table stored
  have h : Inv max table stored := (Inv.new maxItems kind).foldl history
  refine ⟨h.nodup, h.contains_iff oid, fun hroom => ?_⟩
  by_cases hlt : stored.length < max
  · rcases h.insert_of_lt hlt oid with ⟨hm, hr⟩ | ⟨hm, after, hr, -⟩ <;> simp [hr, hm]
  · have hm : oid ∉ stored := fun hm => hlt (hroom hm)
    exact ⟨fun h => absurd h hm, fun _ h => absurd h hlt, fun _ _ => ⟨hm, h.le.eq_of_not_lt hlt⟩⟩

/-- A full set refuses an id that it holds. -/
theorem insert_repeated_at_limit :
    let oid : OidBytes := ⟨List.replicate 20 7, by simp⟩
    let table := (run 1 .loose [oid]).1
    table.contains oid = true ∧
      table.insert oid = .error (.candidateLimitExceeded .loose 1 2) := by
  intro oid table
  exact ⟨by decide +kernel, rfl⟩

end LooseOidTable

end GossipRs.Git
