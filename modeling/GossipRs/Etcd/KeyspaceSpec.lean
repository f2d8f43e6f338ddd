import GossipRs.Etcd.Keyspace

/-! What the key layout guarantees: keys are distinct, scan prefixes select what they are for,
parsers invert key construction, and keys sort as their ids. Keys of one namespace share their first
part; the rest is made of blocks of fixed width. -/

namespace GossipRs.Etcd

open Lib List
open Option (bind_eq_bind bind_some map_eq_some_iff)
open EtcdKeyspace (runRecordKey runRecordsScanPrefix runShardsPrefix runsActivePrefix runsPrefix
  tenantPrefix)

/-! ## Hex blocks -/

theorem hexChar_order (hd : d < 16) (he : e < 16) :
    (hexChar d < hexChar e ↔ d < e) ∧ (hexChar d = hexChar e ↔ d = e) := by
  have h : ∀ d, d < 16 → ∀ e, e < 16 →
    (hexChar d < hexChar e ↔ d < e) ∧ (hexChar d = hexChar e ↔ d = e) := by decide
  exact h d hd e he

theorem hexChar_spec (hd : d < 16) : hexValue (hexChar d) = d ∧ isHexChar (hexChar d) = true := by
  have h : ∀ d, d < 16 → hexValue (hexChar d) = d ∧ isHexChar (hexChar d) = true := by decide
  exact h d hd

/-- A hex character is neither a slash nor the letter that follows the slash in a segment. -/
theorem isHexChar_ne (h : isHexChar c = true) : c ≠ 47 ∧ c ≠ 115 := by
  constructor <;> rintro rfl <;> exact absurd h (by decide)

def hexBlock (width n : Nat) : Bytes := (beDigits 16 width n).map hexChar

@[simp] theorem length_hexBlock (width n : Nat) : (hexBlock width n).length = width := by
  simp [hexBlock]

variable {width : Nat}

theorem digit_lt (h : d ∈ beDigits 16 width n) : d < 16 :=
  mem_beDigits_lt (by decide) h

theorem hexBlock_lt_iff (hn : n < 16 ^ width) (hm : m < 16 ^ width) :
    hexBlock width n < hexBlock width m ↔ n < m := by
  unfold hexBlock
  rw [map_lt_map_iff fun x hx y hy => hexChar_order (digit_lt hx) (digit_lt hy),
    beDigits_lt_iff hn hm]

theorem map_hexValue_hexBlock (width n : Nat) :
    (hexBlock width n).map hexValue = beDigits 16 width n := by
  unfold hexBlock
  rw [map_map]
  have hid : ∀ d ∈ beDigits 16 width n, (hexValue ∘ hexChar) d = id d :=
    fun d hd => (hexChar_spec (digit_lt hd)).1
  rw [map_congr_left hid, map_id]

theorem hexBlock_inj (hn : n < 16 ^ width) (hm : m < 16 ^ width) :
    hexBlock width n = hexBlock width m ↔ n = m := by
  refine ⟨fun h => ?_, fun h => by rw [h]⟩
  have := congrArg (List.map hexValue) h
  rwa [map_hexValue_hexBlock, map_hexValue_hexBlock, beDigits_inj hn hm] at this

theorem isHexChar_of_mem_hexBlock (h : c ∈ hexBlock width n) : isHexChar c = true := by
  obtain ⟨d, hd, rfl⟩ := mem_map.mp h
  exact (hexChar_spec (digit_lt hd)).2

/-! ### Ids as blocks -/

theorem u64_lt_pow (n : UInt64) : n.toNat < 16 ^ 16 := by
  have := n.toNat_lt
  exact this

theorem hexU64_eq (n : UInt64) : hexU64 n = hexBlock 16 n.toNat := rfl

@[simp] theorem length_hexU64 (n : UInt64) : (hexU64 n).length = 16 := by simp [hexU64_eq]

variable {n m : UInt64}

theorem hexU64_inj : hexU64 n = hexU64 m ↔ n = m := by
  rw [hexU64_eq, hexU64_eq, hexBlock_inj (u64_lt_pow n) (u64_lt_pow m), UInt64.toNat_inj]

theorem hexU64_lt_iff : hexU64 n < hexU64 m ↔ n < m := by
  rw [hexU64_eq, hexU64_eq, hexBlock_lt_iff (u64_lt_pow n) (u64_lt_pow m), UInt64.lt_iff_toNat_lt]

theorem parseHexU64_hexU64 (n : UInt64) : parseHexU64 (hexU64 n) = some n := by
  unfold parseHexU64
  rw [if_pos]
  · rw [hexU64_eq, map_hexValue_hexBlock, ofBeDigits_beDigits (u64_lt_pow n), UInt64.ofNat_toNat]
  · exact ⟨length_hexU64 n, all_eq_true.mpr fun c hc => isHexChar_of_mem_hexBlock hc⟩

variable {suffix front key segment word : Bytes}

theorem parseHexU64_of_length_ne (h : suffix.length ≠ 16) :
    parseHexU64 suffix = none := if_neg fun hc => h hc.1

theorem tenantHex_eq (tenant) : tenantHex tenant = hexBlock 64 tenant.raw.toNat := by
  unfold tenantHex tenantBytes encodeHex hexBlock
  rw [show (64 : Nat) = 2 * 32 from rfl, ← flatMap_beDigits_square, map_flatMap, flatMap_map]
  refine flatMap_congr fun d hd => ?_
  have hl : d < 256 := mem_beDigits_lt (by decide) hd
  rw [UInt8.toNat_ofNat_of_lt' (by simpa [UInt8.size] using hl)]
  rfl

@[simp] theorem length_tenantHex (tenant) : (tenantHex tenant).length = 64 := by
  simp [tenantHex_eq]

theorem tenant_lt_pow (tenant : TenantId) : tenant.raw.toNat < 16 ^ 64 := by
  have := tenant.raw.isLt
  exact this

theorem tenantHex_inj : tenantHex a = tenantHex b ↔ a = b := by
  rw [tenantHex_eq, tenantHex_eq, hexBlock_inj (tenant_lt_pow a) (tenant_lt_pow b)]
  constructor
  · intro h
    rw [TenantId.mk.injEq]
    exact BitVec.eq_of_toNat_eq h
  · rintro rfl
    rfl

theorem tenantHex_lt_iff : tenantHex a < tenantHex b ↔ a.raw.toNat < b.raw.toNat := by
  rw [tenantHex_eq, tenantHex_eq, hexBlock_lt_iff (tenant_lt_pow a) (tenant_lt_pow b)]

/-! ## Keys as blocks -/

inductive KeyId where
  | shardCount (tenant : TenantId)
  | runRecord (tenant : TenantId) (run : RunId)
  | shardRecord (tenant : TenantId) (run : RunId) (shard : ShardId)
  | shardOwner (tenant : TenantId) (run : RunId) (shard : ShardId)
  | runActive (tenant : TenantId) (run : RunId)
  | shardActive (tenant : TenantId) (run : RunId) (shard : ShardId)
deriving DecidableEq

def EtcdKeyspace.keyOf (ks : EtcdKeyspace) : KeyId → Bytes
  | .shardCount tenant => ks.tenantShardCountKey tenant
  | .runRecord tenant run => ks.runRecordKey tenant run
  | .shardRecord tenant run shard => ks.shardRecordKey tenant run shard
  | .shardOwner tenant run shard => ks.shardOwnerKey tenant run shard
  | .runActive tenant run => ks.runActiveIndexKey tenant run
  | .shardActive tenant run shard => ks.shardActiveIndexKey tenant run shard

namespace KeyId

def tenant : KeyId → TenantId
  | shardCount tenant => tenant
  | runRecord tenant _ => tenant
  | shardRecord tenant _ _ => tenant
  | shardOwner tenant _ _ => tenant
  | runActive tenant _ => tenant
  | shardActive tenant _ _ => tenant

def tail : KeyId → Bytes
  | shardCount _ => asciiBytes "/shard_count"
  | runRecord _ run => asciiBytes "/runs/" ++ runHex run
  | shardRecord _ run shard =>
    asciiBytes "/runs/" ++ (runHex run ++ (asciiBytes "/shards/" ++ shardHex shard))
  | shardOwner _ run shard =>
    asciiBytes "/runs/" ++ (runHex run ++ (asciiBytes "/shards/" ++
      (shardHex shard ++ asciiBytes "/owner")))
  | runActive _ run => asciiBytes "/runs_active/" ++ runHex run
  | shardActive _ run shard =>
    asciiBytes "/runs/" ++ (runHex run ++ (asciiBytes "/shards_active/" ++ shardHex shard))

end KeyId

variable {ks : EtcdKeyspace}

theorem keyOf_eq (k : KeyId) :
    ks.keyOf k = (ks.tenantsPrefix ++ slash) ++ (tenantHex k.tenant ++ k.tail) := by
  have hru : asciiBytes "/runs/" = asciiBytes "/runs" ++ slash := rfl
  have hsh : asciiBytes "/shards/" = asciiBytes "/shards" ++ slash := rfl
  have hr : asciiBytes "/runs_active/" = asciiBytes "/runs_active" ++ slash := rfl
  have hs : asciiBytes "/shards_active/" = asciiBytes "/shards_active" ++ slash := rfl
  cases k <;>
    simp [EtcdKeyspace.keyOf, KeyId.tenant, KeyId.tail, EtcdKeyspace.tenantShardCountKey,
      runRecordKey, EtcdKeyspace.shardRecordKey, EtcdKeyspace.shardOwnerKey,
      EtcdKeyspace.runActiveIndexKey, EtcdKeyspace.shardActiveIndexKey, runsPrefix,
      runShardsPrefix, runsActivePrefix, EtcdKeyspace.shardsActivePrefix,
      tenantPrefix, hru, hsh, hr, hs, append_assoc]

theorem tenant_scan_iff :
    (ks.tenantsPrefix ++ slash) ++ (tenantHex tenant ++ front) <+: ks.keyOf k ↔
      k.tenant = tenant ∧ front <+: k.tail := by
  rw [keyOf_eq, prefix_append_right_inj, append_prefix_append (by simp), tenantHex_inj, eq_comm]

theorem runHex_inj : runHex a = runHex b ↔ a = b := by
  cases a
  cases b
  simp [runHex, hexU64_inj]

theorem shardHex_inj : shardHex a = shardHex b ↔ a = b := by
  cases a
  cases b
  simp [shardHex, hexU64_inj]

@[simp] theorem length_runHex (run) : (runHex run).length = 16 := length_hexU64 _

@[simp] theorem length_shardHex (shard : ShardId) : (shardHex shard).length = 16 := length_hexU64 _

theorem length_asciiBytes (s : String) : (asciiBytes s).length = s.toList.length :=
  length_map _

def KeyId.tailLength : KeyId → Nat
  | .shardCount _ => 12
  | .runRecord _ _ => 22
  | .shardRecord _ _ _ => 46
  | .shardOwner _ _ _ => 52
  | .runActive _ _ => 29
  | .shardActive _ _ _ => 53

theorem length_tail (k : KeyId) : k.tail.length = k.tailLength := by
  have h1 : (asciiBytes "/shard_count").length = 12 := rfl
  have h2 : (asciiBytes "/runs/").length = 6 := rfl
  have h3 : (asciiBytes "/shards/").length = 8 := rfl
  have h4 : (asciiBytes "/owner").length = 6 := rfl
  have h5 : (asciiBytes "/runs_active/").length = 13 := rfl
  have h6 : (asciiBytes "/shards_active/").length = 15 := rfl
  cases k <;> simp [KeyId.tail, KeyId.tailLength, h1, h2, h3, h4, h5, h6]

theorem keyOf_injective : Function.Injective ks.keyOf := by
  intro k k' h
  rw [keyOf_eq, keyOf_eq, append_cancel_left_eq,
    append_eq_append_iff_of_size_eq_left (by simp), tenantHex_inj] at h
  obtain ⟨hte, ht⟩ := h
  have hl := congrArg List.length ht
  rw [length_tail, length_tail] at hl
  cases k <;> cases k' <;> first
    | (exfalso; simp [KeyId.tailLength] at hl; done)
    | skip
  all_goals
    simp only [KeyId.tenant] at hte
    subst hte
  · rfl
  · rw [(runHex_inj).mp (append_cancel_left ht)]
  · obtain ⟨hr, hs⟩ := (append_eq_append_iff_of_size_eq_left (by simp)).mp (append_cancel_left ht)
    rw [runHex_inj.mp hr, shardHex_inj.mp (append_cancel_left hs)]
  · obtain ⟨hr, hs⟩ := (append_eq_append_iff_of_size_eq_left (by simp)).mp (append_cancel_left ht)
    obtain ⟨hs, -⟩ := (append_eq_append_iff_of_size_eq_left (by simp)).mp (append_cancel_left hs)
    rw [runHex_inj.mp hr, shardHex_inj.mp hs]
  · rw [(runHex_inj).mp (append_cancel_left ht)]
  · obtain ⟨hr, hs⟩ := (append_eq_append_iff_of_size_eq_left (by simp)).mp (append_cancel_left ht)
    rw [runHex_inj.mp hr, shardHex_inj.mp (append_cancel_left hs)]

/-! ## Scans -/

namespace KeyId

def underRun : KeyId → Option RunId
  | shardCount _ => none
  | runRecord _ run => some run
  | shardRecord _ run _ => some run
  | shardOwner _ run _ => some run
  | runActive _ _ => none
  | shardActive _ run _ => some run

def behindRun : KeyId → Bytes
  | shardRecord _ _ shard => asciiBytes "/shards/" ++ shardHex shard
  | shardOwner _ _ shard => asciiBytes "/shards/" ++ (shardHex shard ++ asciiBytes "/owner")
  | shardActive _ _ shard => asciiBytes "/shards_active" ++ (slash ++ shardHex shard)
  | _ => []

end KeyId

theorem runs_front_iff {k : KeyId} : asciiBytes "/runs/" <+: k.tail ↔ k.underRun.isSome := by
  cases k <;> simp [KeyId.tail, KeyId.underRun, asciiBytes]

theorem tail_of_underRun {k : KeyId} (h : k.underRun = some run) :
    k.tail = asciiBytes "/runs/" ++ (runHex run ++ k.behindRun) := by
  cases k <;> cases h
  · simp [KeyId.tail, KeyId.behindRun, append_nil]
  · simp [KeyId.tail, KeyId.behindRun]
  · simp [KeyId.tail, KeyId.behindRun]
  · rfl

theorem run_front_iff {k : KeyId} :
    asciiBytes "/runs/" ++ (runHex run ++ front) <+: k.tail ↔
      k.underRun = some run ∧ front <+: k.behindRun := by
  cases hr : k.underRun with
  | none =>
    simp only [reduceCtorEq, false_and, iff_false]
    intro h
    have := runs_front_iff.mp ((prefix_append _ _).trans h)
    rw [hr] at this
    cases this
  | some r =>
    rw [tail_of_underRun hr, prefix_append_right_inj, append_prefix_append (by simp),
      runHex_inj, Option.some_inj, eq_comm]

variable {tenant : TenantId} {run : RunId} {shard : ShardId} {k : KeyId}

theorem runRecordsScanPrefix_iff :
    ks.runRecordsScanPrefix tenant <+: ks.keyOf k ↔ k.tenant = tenant ∧ k.underRun.isSome := by
  have he : ks.runRecordsScanPrefix tenant =
      (ks.tenantsPrefix ++ slash) ++ (tenantHex tenant ++ asciiBytes "/runs/") := by
    simp only [runRecordsScanPrefix, runsPrefix, tenantPrefix, append_assoc]
    rfl
  rw [he, tenant_scan_iff, runs_front_iff]

theorem run_scan_iff : ks.runRecordKey tenant run ++ front <+: ks.keyOf k ↔
      k.tenant = tenant ∧ k.underRun = some run ∧ front <+: k.behindRun := by
  have he : ks.runRecordKey tenant run ++ front = (ks.tenantsPrefix ++ slash) ++
      (tenantHex tenant ++ (asciiBytes "/runs/" ++ (runHex run ++ front))) := by
    simp only [runRecordKey, runsPrefix, tenantPrefix, append_assoc]
    rfl
  rw [he, tenant_scan_iff, run_front_iff]

theorem shardRecordsScanPrefix_iff :
    ks.shardRecordsScanPrefix tenant run <+: ks.keyOf k ↔
      ∃ shard, k = .shardRecord tenant run shard ∨ k = .shardOwner tenant run shard := by
  have he : ks.shardRecordsScanPrefix tenant run =
      ks.runRecordKey tenant run ++ asciiBytes "/shards/" := by
    simp only [EtcdKeyspace.shardRecordsScanPrefix, runShardsPrefix, append_assoc]
    rfl
  rw [he, run_scan_iff]
  constructor
  · rintro ⟨rfl, hr, hf⟩
    cases k with
    | shardCount tenant | runActive tenant run => cases hr
    | runRecord tenant run | shardActive tenant run shard =>
      exact absurd hf (by simp [KeyId.behindRun, asciiBytes])
    | shardRecord tenant run shard => cases hr; exact ⟨shard, .inl rfl⟩
    | shardOwner tenant run shard => cases hr; exact ⟨shard, .inr rfl⟩
  rintro ⟨shard, rfl | rfl⟩
  · exact ⟨rfl, rfl, prefix_append _ _⟩
  · exact ⟨rfl, rfl, prefix_append _ _⟩

theorem shardsActivePrefix_iff :
    ks.shardsActivePrefix tenant run <+: ks.keyOf k ↔
      ∃ shard, k = .shardActive tenant run shard := by
  rw [show ks.shardsActivePrefix tenant run =
    ks.runRecordKey tenant run ++ asciiBytes "/shards_active" from rfl, run_scan_iff]
  constructor
  · rintro ⟨rfl, hr, hf⟩
    cases k with
    | shardCount tenant | runActive tenant run => cases hr
    | runRecord tenant run | shardRecord tenant run shard | shardOwner tenant run shard =>
      exact absurd hf (by simp [KeyId.behindRun, asciiBytes])
    | shardActive tenant run shard => cases hr; exact ⟨shard, rfl⟩
  · rintro ⟨shard, rfl⟩
    exact ⟨rfl, rfl, prefix_append _ _⟩

theorem runsActivePrefix_iff :
    ks.runsActivePrefix tenant <+: ks.keyOf k ↔ ∃ run, k = .runActive tenant run := by
  have he : ks.runsActivePrefix tenant =
      (ks.tenantsPrefix ++ slash) ++ (tenantHex tenant ++ asciiBytes "/runs_active") := by
    simp [runsActivePrefix, tenantPrefix, append_assoc]
  rw [he, tenant_scan_iff]
  constructor
  · rintro ⟨rfl, hf⟩
    cases k with
    | runActive tenant run => exact ⟨run, rfl⟩
    | _ => exact absurd hf (by simp [KeyId.tail, asciiBytes])
  rintro ⟨run, rfl⟩
  refine ⟨rfl, ?_⟩
  exact ⟨slash ++ runHex run, by rw [← append_assoc]; rfl⟩

/-! ## Parsing ids back -/

theorem stripFront_eq_some : stripFront front key = some suffix ↔ key = front ++ suffix := by
  unfold stripFront
  constructor
  · intro h
    split at h
    next hf =>
      cases h
      exact (prefix_iff_eq_append.mp hf).symm
    next => cases h
  · rintro rfl
    rw [if_pos (prefix_append _ _), drop_left]

theorem stripBack_eq_some : stripBack back key = some front ↔ key = front ++ back := by
  unfold stripBack
  constructor
  · intro h
    split at h
    next hb =>
      cases h
      exact (suffix_iff_eq_append.mp hb).symm
    next => cases h
  · rintro rfl
    rw [if_pos (List.suffix_append _ _), length_append, Nat.add_sub_cancel, take_left]

theorem length_of_parseHexU64 (h : parseHexU64 suffix = some n) : suffix.length = 16 := by
  by_contra hne
  rw [parseHexU64_of_length_ne hne] at h
  cases h

theorem parseDirectHexU64Child_eq_some : parseDirectHexU64Child front key = some n ↔
      ∃ suffix, key = front ++ suffix ∧ parseHexU64 suffix = some n := by
  unfold parseDirectHexU64Child
  rw [bind_eq_bind, Option.bind_eq_some_iff]
  simp [stripFront_eq_some]

theorem parseDirectHexU64Child_append :
    parseDirectHexU64Child front (front ++ hexU64 n) = some m ↔ n = m := by
  rw [parseDirectHexU64Child_eq_some]
  constructor
  · rintro ⟨suffix, hk, hp⟩
    rw [← append_cancel_left hk, parseHexU64_hexU64] at hp
    exact Option.some.inj hp
  · rintro rfl
    exact ⟨_, rfl, parseHexU64_hexU64 n⟩

theorem length_keyOf (k : KeyId) :
    (ks.keyOf k).length = ks.tenantsPrefix.length + 65 + k.tailLength := by
  rw [keyOf_eq, length_append, length_append, length_append, length_tenantHex, length_tail]
  show _ + 1 + _ = _
  omega

theorem parseDirectRunId_records {id} :
    parseDirectRunId (ks.runRecordsScanPrefix tenant) (ks.keyOf k) = some id ↔
      k = .runRecord tenant id := by
  unfold parseDirectRunId
  rw [map_eq_some_iff]
  constructor
  · rintro ⟨n, hn, rfl⟩
    obtain ⟨suffix, hk, hp⟩ := parseDirectHexU64Child_eq_some.mp hn
    obtain ⟨rfl, hru⟩ := runRecordsScanPrefix_iff.mp ⟨suffix, hk.symm⟩
    -- the length of what is left tells a run record from what is stored below it
    have hl := congrArg List.length hk
    rw [length_keyOf, length_append, length_of_parseHexU64 hp] at hl
    simp only [runRecordsScanPrefix, runsPrefix,
      tenantPrefix, length_append, length_tenantHex] at hl
    have hs : slash.length = 1 := rfl
    have hr : (asciiBytes "/runs").length = 5 := rfl
    cases k <;> simp only [KeyId.tailLength] at hl <;> first | omega | skip
    case runRecord tenant run =>
      cases run
      exact congrArg _ (congrArg _ (parseDirectHexU64Child_append.mp hn))
  · rintro rfl
    exact ⟨id.raw, parseDirectHexU64Child_append.mpr rfl, rfl⟩

theorem parseDirectRunId_active {id} :
    parseDirectRunId (ks.runsActivePrefix tenant ++ slash) (ks.keyOf k) = some id ↔
      k = .runActive tenant id := by
  unfold parseDirectRunId
  rw [map_eq_some_iff]
  constructor
  · rintro ⟨n, hn, rfl⟩
    obtain ⟨suffix, hk, -⟩ := parseDirectHexU64Child_eq_some.mp hn
    obtain ⟨run, rfl⟩ := runsActivePrefix_iff.mp ⟨slash ++ suffix, by rw [hk, append_assoc]⟩
    cases run
    exact congrArg _ (congrArg _ (parseDirectHexU64Child_append.mp hn))
  · rintro rfl
    exact ⟨id.raw, parseDirectHexU64Child_append.mpr rfl, rfl⟩

theorem parseDirectShardId_active {id} :
    parseDirectShardId (ks.shardsActivePrefix tenant run ++ slash) (ks.keyOf k) = some id ↔
      k = .shardActive tenant run id := by
  unfold parseDirectShardId
  rw [map_eq_some_iff]
  constructor
  · rintro ⟨n, hn, rfl⟩
    obtain ⟨suffix, hk, -⟩ := parseDirectHexU64Child_eq_some.mp hn
    obtain ⟨shard, rfl⟩ :=
      shardsActivePrefix_iff.mp ⟨slash ++ suffix, by rw [hk, append_assoc]⟩
    cases shard
    exact congrArg _ (congrArg _ (parseDirectHexU64Child_append.mp hn))
  · rintro rfl
    exact ⟨id.raw, parseDirectHexU64Child_append.mpr rfl, rfl⟩

theorem parseOwnedShard_eq_some {id} : parseOwnedShard front key = some id ↔
      ∃ he, key = front ++ (he ++ asciiBytes "/owner") ∧ parseHexU64 he = some id.raw := by
  cases id with
  | mk raw =>
    unfold parseOwnedShard
    simp only [bind_eq_bind, Option.bind_eq_some_iff, stripFront_eq_some, stripBack_eq_some,
      Option.pure_def, Option.some.injEq, ShardId.mk.injEq]
    constructor
    · rintro ⟨_, rfl, he, rfl, n, hn, rfl⟩
      exact ⟨he, rfl, hn⟩
    · rintro ⟨he, rfl, hn⟩
      exact ⟨_, rfl, he, rfl, raw, hn, rfl⟩

theorem parseOwnedShard_owner {id} :
    parseOwnedShard (ks.shardRecordsScanPrefix tenant run) (ks.keyOf k) = some id ↔
      k = .shardOwner tenant run id := by
  rw [parseOwnedShard_eq_some]
  constructor
  · rintro ⟨he, hk, hp⟩
    obtain ⟨shard, rfl | rfl⟩ := shardRecordsScanPrefix_iff.mp ⟨_, hk.symm⟩
    · -- a record key is too short to carry the owner segment
      have h := congrArg List.length (append_cancel_left hk)
      rw [length_shardHex, length_append, length_of_parseHexU64 hp] at h
      exact absurd h (by decide)
    have hk : ks.shardRecordsScanPrefix tenant run ++ (shardHex shard ++ asciiBytes "/owner") =
        ks.shardRecordsScanPrefix tenant run ++ (he ++ asciiBytes "/owner") := by
      rw [← hk, ← append_assoc]
      rfl
    rw [← append_cancel_right (append_cancel_left hk), shardHex, parseHexU64_hexU64] at hp
    cases shard
    cases hp
    rfl
  · rintro rfl
    refine ⟨shardHex id, ?_, parseHexU64_hexU64 _⟩
    rw [← append_assoc]
    rfl

/-! ## Classification

`classify` looks for the last `/shards/`. The namespace may hold one too, so the
search is followed along the segments of a key, from the last to the first. -/

def path (words : List Bytes) : Bytes := words.flatMap fun word => 47 :: word

theorem path_cons (word : Bytes) (rest : List Bytes) :
    path (word :: rest) = 47 :: (word ++ path rest) := rfl

theorem afterLast_cons (segment rest : Bytes) (c : UInt8) :
    afterLast segment (c :: rest) = (afterLast segment rest <|> stripFront segment
      (c :: rest)) := by
  rw [afterLast]
  cases afterLast segment rest <;> rfl

theorem afterLast_cons_of_not {rest : Bytes} (h : ¬ segment <+: c :: rest) :
    afterLast segment (c :: rest) = afterLast segment rest := by
  rw [afterLast_cons, show stripFront segment (c :: rest) = none from if_neg h]
  cases afterLast segment rest <;> rfl

theorem afterLast_word (h : (47 : UInt8) ∉ word) :
    afterLast (47 :: segment) (word ++ rest) = afterLast (47 :: segment) rest := by
  induction word with
  | nil => rfl
  | cons c word ih =>
    obtain ⟨hc, hw⟩ := ne_and_not_mem_of_not_mem_cons h
    rw [cons_append, afterLast_cons_of_not, ih hw]
    intro hf
    exact hc (cons_prefix_cons.mp hf).1

variable {rest : List Bytes}

/-- A word with its closing slash stands at the front of a path's rest exactly when it is
the whole first word and more follows. -/
theorem word_slash_front_iff (hu : (47 : UInt8) ∉ u) (hw : (47 : UInt8) ∉ word) :
    u ++ [47] <+: word ++ path rest ↔ u = word ∧ rest ≠ [] := by
  induction u generalizing word with
  | nil =>
    cases word with
    | nil => cases rest <;> simp [path]
    | cons d word =>
      simp only [nil_append, cons_append, cons_prefix_cons, reduceCtorEq, false_and, iff_false]
      exact fun h => (ne_and_not_mem_of_not_mem_cons hw).1 h.1
  | cons c u ih =>
    obtain ⟨hc, hu⟩ := ne_and_not_mem_of_not_mem_cons hu
    cases word with
    | nil =>
      simp only [nil_append, reduceCtorEq, false_and, iff_false]
      intro h
      cases rest with
      | nil => exact absurd (prefix_nil.mp h) (by simp)
      | cons w rest => exact hc (cons_prefix_cons.mp h).1.symm
    | cons d word =>
      obtain ⟨-, hw⟩ := ne_and_not_mem_of_not_mem_cons hw
      rw [cons_append, cons_append, cons_prefix_cons, ih hu hw, List.cons.injEq, and_assoc]

def shardsWord : Bytes := asciiBytes "shards"

theorem shardsSegment_eq : asciiBytes "/shards/" = 47 :: (shardsWord ++ [47]) := rfl

theorem afterLast_path_cons (hw : (47 : UInt8) ∉ word) :
    afterLast (asciiBytes "/shards/") (path (word :: rest)) =
      (afterLast (asciiBytes "/shards/") (path rest) <|>
        if word = shardsWord ∧ rest ≠ [] then some ((path rest).drop 1) else none) := by
  have hif : 47 :: (shardsWord ++ [47]) <+: 47 :: (word ++ path rest) ↔
      word = shardsWord ∧ rest ≠ [] := by
    rw [cons_prefix_cons, word_slash_front_iff (by decide) hw, eq_comm (a := word)]
    exact and_iff_right rfl
  have hh : stripFront (47 :: (shardsWord ++ [47])) (47 :: (word ++ path rest)) =
      if word = shardsWord ∧ rest ≠ [] then some ((path rest).drop 1) else none := by
    unfold stripFront
    by_cases hf : word = shardsWord ∧ rest ≠ []
    · rw [if_pos (hif.mpr hf), if_pos hf]
      obtain ⟨rfl, hr⟩ := hf
      rfl
    · rw [if_neg (fun h => hf (hif.mp h)), if_neg hf]
  rw [path_cons, shardsSegment_eq, afterLast_cons, afterLast_word hw, hh]

/-- An occurrence that begins before the last part leaves at least that part behind. -/
theorem afterLast_append (h : afterLast segment (front ++ key) = some suffix) :
    afterLast segment key = some suffix ∨ key.length < suffix.length + segment.length := by
  induction front with
  | nil => exact .inl h
  | cons c front ih =>
    rw [cons_append, afterLast_cons] at h
    cases hr : afterLast segment (front ++ key) with
    | some found =>
      rw [hr] at h
      cases h
      exact ih hr
    | none =>
      rw [hr] at h
      have hl := congrArg List.length (stripFront_eq_some.mp h)
      simp only [length_cons, length_append] at hl
      exact .inr (by omega)

theorem afterLast_append_of_some (h : afterLast segment key = some suffix) :
    afterLast segment (front ++ key) = some suffix := by
  induction front with
  | nil => exact h
  | cons c front ih =>
    rw [cons_append, afterLast_cons, ih]
    rfl

namespace KeyId

def words (k : KeyId) : List Bytes :=
  asciiBytes "tenants" :: tenantHex k.tenant :: match k with
    | shardCount _ => [asciiBytes "shard_count"]
    | runRecord _ run => [asciiBytes "runs", runHex run]
    | shardRecord _ run shard => [asciiBytes "runs", runHex run, shardsWord, shardHex shard]
    | shardOwner _ run shard =>
      [asciiBytes "runs", runHex run, shardsWord, shardHex shard, asciiBytes "owner"]
    | runActive _ run => [asciiBytes "runs_active", runHex run]
    | shardActive _ run shard =>
      [asciiBytes "runs", runHex run, asciiBytes "shards_active", shardHex shard]

def shardSuffix : KeyId → Option Bytes
  | shardRecord _ _ shard => some (shardHex shard)
  | shardOwner _ _ shard => some (shardHex shard ++ asciiBytes "/owner")
  | _ => none

end KeyId

theorem keyOf_eq_path (k : KeyId) :
    ks.keyOf k = (if ks.root = slash then [] else ks.root) ++ path k.words := by
  have ht : path k.words = asciiBytes "/tenants" ++ (slash ++ (tenantHex k.tenant ++ k.tail)) := by
    cases k <;> simp [KeyId.words, KeyId.tail, KeyId.tenant, path, slash, shardsWord, asciiBytes]
  rw [keyOf_eq, ht, EtcdKeyspace.tenantsPrefix, EtcdKeyspace.joinNamespace]
  split
  · rfl
  · rw [append_assoc, append_assoc, append_assoc]
    rfl

theorem slash_not_mem_hexBlock (width n : Nat) : (47 : UInt8) ∉ hexBlock width n :=
  fun h => (isHexChar_ne (isHexChar_of_mem_hexBlock h)).1 rfl

theorem slash_not_mem_hexU64 (n : UInt64) : (47 : UInt8) ∉ hexU64 n := slash_not_mem_hexBlock 16 _

theorem slash_not_mem_tenantHex (tenant) : (47 : UInt8) ∉ tenantHex tenant := by
  rw [tenantHex_eq]
  exact slash_not_mem_hexBlock 64 _

theorem ne_shardsWord_of_length (h : word.length ≠ 6) : word ≠ shardsWord :=
  fun he => h (by rw [he]; rfl)

theorem afterLast_path_skip (hs : (47 : UInt8) ∉ word) (hw : word ≠ shardsWord) :
    afterLast (asciiBytes "/shards/") (path (word :: rest)) =
      afterLast (asciiBytes "/shards/") (path rest) := by
  rw [afterLast_path_cons hs, if_neg fun h => hw h.1]
  cases afterLast (asciiBytes "/shards/") (path rest) <;> rfl

theorem afterLast_path_found (h : afterLast (asciiBytes "/shards/") (path (word :: rest)) = none) :
    afterLast (asciiBytes "/shards/") (path (shardsWord :: word :: rest)) =
      some (word ++ path rest) := by
  rw [afterLast_path_cons (by decide), h]
  rfl

theorem afterLast_words (k : KeyId) :
    afterLast (asciiBytes "/shards/") (path k.words) = k.shardSuffix := by
  have hr : ∀ (run : RunId) (rest : List Bytes),
      afterLast (asciiBytes "/shards/") (path (runHex run :: rest)) =
        afterLast (asciiBytes "/shards/") (path rest) := fun run rest =>
    afterLast_path_skip (slash_not_mem_hexU64 _) (ne_shardsWord_of_length (by simp))
  have hs : ∀ (shard : ShardId) (rest : List Bytes),
      afterLast (asciiBytes "/shards/") (path (shardHex shard :: rest)) =
        afterLast (asciiBytes "/shards/") (path rest) := fun shard rest =>
    afterLast_path_skip (slash_not_mem_hexU64 _) (ne_shardsWord_of_length (by simp))
  have hn : afterLast (asciiBytes "/shards/") (path []) = none := rfl
  unfold KeyId.words
  rw [afterLast_path_skip (by decide) (by decide), afterLast_path_skip
    (slash_not_mem_tenantHex _) (ne_shardsWord_of_length (by simp))]
  cases k with
  | shardCount tenant => exact afterLast_path_skip (by decide) (by decide)
  | runRecord tenant run | runActive tenant run =>
    show afterLast _ (path [_, _]) = none
    rw [afterLast_path_skip (by decide) (by decide), hr, hn]
  | shardRecord tenant run shard =>
    rw [afterLast_path_skip (by decide) (by decide), hr, afterLast_path_found (by rw [hs, hn])]
    exact congrArg some (append_nil _)
  | shardOwner tenant run shard =>
    rw [afterLast_path_skip (by decide) (by decide), hr, afterLast_path_found
      (by rw [hs, afterLast_path_skip (by decide) (by decide), hn])]
    rfl
  | shardActive tenant run shard =>
    show afterLast _ (path [_, _, _, _]) = none
    rw [afterLast_path_skip (by decide) (by decide), hr,
      afterLast_path_skip (by decide) (by decide), hs, hn]

def KeyId.subtreeKind : KeyId → Option PersistedShardSubtreeKey
  | .shardRecord _ _ _ => some .record
  | .shardOwner _ _ _ => some .owner
  | _ => none

/-- What follows an occurrence inside the namespace is too long to be a shard's numeral. -/
theorem classify_of_long (h : afterLast (asciiBytes "/shards/") key = some suffix)
    (hl : 22 < suffix.length) : PersistedShardSubtreeKey.classify key = none := by
  unfold PersistedShardSubtreeKey.classify
  rw [h]
  simp only [bind_eq_bind, bind_some]
  rw [parseHexU64_of_length_ne (by omega)]
  cases hb : stripBack (asciiBytes "/owner") suffix with
  | none => rfl
  | some hex =>
    have he := congrArg List.length (stripBack_eq_some.mp hb)
    rw [length_append, show (asciiBytes "/owner").length = 6 from rfl] at he
    show (parseHexU64 hex).bind _ = none
    rw [parseHexU64_of_length_ne (by omega)]
    rfl

theorem classify_of_record (h : afterLast (asciiBytes "/shards/") key = some (hexU64 n)) :
    PersistedShardSubtreeKey.classify key = some .record := by
  unfold PersistedShardSubtreeKey.classify
  rw [h]
  simp only [bind_eq_bind, bind_some, parseHexU64_hexU64]
  rfl

theorem classify_of_owner
    (h : afterLast (asciiBytes "/shards/") key = some (hexU64 n ++ asciiBytes "/owner")) :
    PersistedShardSubtreeKey.classify key = some .owner := by
  have hl : (hexU64 n ++ asciiBytes "/owner").length ≠ 16 := by simp [length_asciiBytes]
  unfold PersistedShardSubtreeKey.classify
  rw [h]
  simp only [bind_eq_bind, bind_some]
  rw [parseHexU64_of_length_ne hl, stripBack_eq_some.mpr rfl]
  simp only [bind_some, parseHexU64_hexU64]
  rfl

theorem classify_of_shardSuffix_none (hs : k.shardSuffix = none) :
    PersistedShardSubtreeKey.classify (ks.keyOf k) = none := by
  rw [keyOf_eq_path]
  cases hl : afterLast (asciiBytes "/shards/")
      ((if ks.root = slash then [] else ks.root) ++ path k.words) with
  | none =>
    unfold PersistedShardSubtreeKey.classify
    rw [hl]
    rfl
  | some suffix =>
    refine classify_of_long hl ?_
    rcases afterLast_append hl with h | h
    · rw [afterLast_words, hs] at h
      cases h
    rw [show (asciiBytes "/shards/").length = 8 from rfl] at h
    simp only [KeyId.words, path_cons, length_cons, length_append, length_tenantHex] at h
    omega

theorem classify_keyOf (k : KeyId) :
    PersistedShardSubtreeKey.classify (ks.keyOf k) = k.subtreeKind := by
  have hl : ∀ suffix, k.shardSuffix = some suffix →
      afterLast (asciiBytes "/shards/") (ks.keyOf k) = some suffix := by
    intro suffix h
    rw [keyOf_eq_path]
    exact afterLast_append_of_some ((afterLast_words k).trans h)
  cases k with
  | shardCount tenant | runRecord tenant run
  | runActive tenant run | shardActive tenant run shard => exact classify_of_shardSuffix_none rfl
  | shardRecord tenant run shard => exact classify_of_record (hl _ rfl)
  | shardOwner tenant run shard => exact classify_of_owner (hl _ rfl)

/-! ## Order -/

inductive KeyKind where
  | shardCount
  | runRecord
  | shardRecord
  | shardOwner
  | runActive
  | shardActive
deriving DecidableEq

namespace KeyId

def kind : KeyId → KeyKind
  | shardCount _ => .shardCount
  | runRecord _ _ => .runRecord
  | shardRecord _ _ _ => .shardRecord
  | shardOwner _ _ _ => .shardOwner
  | runActive _ _ => .runActive
  | shardActive _ _ _ => .shardActive

def ids : KeyId → List Nat
  | shardCount tenant => [tenant.raw.toNat]
  | runRecord tenant run => [tenant.raw.toNat, run.raw.toNat]
  | shardRecord tenant run shard => [tenant.raw.toNat, run.raw.toNat, shard.raw.toNat]
  | shardOwner tenant run shard => [tenant.raw.toNat, run.raw.toNat, shard.raw.toNat]
  | runActive tenant run => [tenant.raw.toNat, run.raw.toNat]
  | shardActive tenant run shard => [tenant.raw.toNat, run.raw.toNat, shard.raw.toNat]

end KeyId

theorem append_left_lt_iff {α : Type} [LinearOrder α] (a x y : List α) :
    a ++ x < a ++ y ↔ x < y := by
  rw [append_lt_append_iff rfl]
  simp

theorem hexU64_append_lt_iff (h : x < y ↔ xs < ys) :
    hexU64 n ++ x < hexU64 m ++ y ↔ n.toNat :: xs < m.toNat :: ys := by
  rw [append_lt_append_iff (by simp), hexU64_lt_iff, hexU64_inj, cons_lt_cons_iff, h,
    UInt64.lt_iff_toNat_lt, UInt64.toNat_inj]

theorem tenantHex_append_lt_iff (h : x < y ↔ xs < ys) :
    tenantHex a ++ x < tenantHex b ++ y ↔ a.raw.toNat :: xs < b.raw.toNat :: ys := by
  have hin : tenantHex a = tenantHex b ↔ a.raw.toNat = b.raw.toNat := by
    rw [tenantHex_eq, tenantHex_eq, hexBlock_inj (tenant_lt_pow a) (tenant_lt_pow b)]
  rw [append_lt_append_iff (by simp), tenantHex_lt_iff, hin, cons_lt_cons_iff, h]

theorem hexU64_last_lt_iff : hexU64 n < hexU64 m ↔ [n.toNat] < [m.toNat] := by
  rw [hexU64_lt_iff, UInt64.lt_iff_toNat_lt, cons_lt_cons_iff]
  simp

theorem tail_lt_iff {k' : KeyId} (h : k.kind = k'.kind) :
    k.tail < k'.tail ↔ k.ids.tail < k'.ids.tail := by
  cases k <;> cases k' <;> cases h
  case shardCount.shardCount => simp [KeyId.tail, KeyId.ids]
  case runRecord.runRecord =>
    exact (append_left_lt_iff _ _ _).trans hexU64_last_lt_iff
  case shardRecord.shardRecord =>
    exact (append_left_lt_iff _ _ _).trans
      (hexU64_append_lt_iff ((append_left_lt_iff _ _ _).trans hexU64_last_lt_iff))
  case shardOwner.shardOwner =>
    refine (append_left_lt_iff _ _ _).trans
      (hexU64_append_lt_iff ((append_left_lt_iff _ _ _).trans (hexU64_append_lt_iff ?_)))
    simp
  case runActive.runActive =>
    exact (append_left_lt_iff _ _ _).trans hexU64_last_lt_iff
  case shardActive.shardActive =>
    exact (append_left_lt_iff _ _ _).trans
      (hexU64_append_lt_iff ((append_left_lt_iff _ _ _).trans hexU64_last_lt_iff))

theorem ids_eq_cons (k : KeyId) : k.ids = k.tenant.raw.toNat :: k.ids.tail := by
  cases k <;> rfl

theorem keyOf_lt_iff (h : k.kind = k'.kind) : ks.keyOf k < ks.keyOf k' ↔ k.ids < k'.ids := by
  rw [keyOf_eq, keyOf_eq, append_left_lt_iff, tenantHex_append_lt_iff (tail_lt_iff h),
    ← ids_eq_cons, ← ids_eq_cons]

/-! ## The layout as a whole -/

/-- **The key layout is exact.** Keys tell what they are for. Every scan but that over run records
meets only its own kind; that one meets all below the tenant's runs, and the parser of run keys
picks the run records out. Parsers and classification read back what a key was built for, whatever
the namespace says, and keys of one kind sort as their ids. -/
theorem keyspace_exact (ks : EtcdKeyspace) :
    Function.Injective ks.keyOf ∧
    (∀ k tenant, ks.runRecordsScanPrefix tenant <+: ks.keyOf k ↔
      (∃ run, k = .runRecord tenant run) ∨
        ∃ run shard, k = .shardRecord tenant run shard ∨ k = .shardOwner tenant run shard ∨
          k = .shardActive tenant run shard) ∧
    (∀ k tenant run, ks.shardRecordsScanPrefix tenant run <+: ks.keyOf k ↔
      ∃ shard, k = .shardRecord tenant run shard ∨ k = .shardOwner tenant run shard) ∧
    (∀ k tenant run, ks.shardsActivePrefix tenant run <+: ks.keyOf k ↔
      ∃ shard, k = .shardActive tenant run shard) ∧
    (∀ k tenant, ks.runsActivePrefix tenant <+: ks.keyOf k ↔ ∃ run, k = .runActive tenant run) ∧
    (∀ k tenant id, parseDirectRunId (ks.runRecordsScanPrefix tenant) (ks.keyOf k) = some id ↔
      k = .runRecord tenant id) ∧
    (∀ k tenant id, parseDirectRunId (ks.runsActivePrefix tenant ++ slash) (ks.keyOf k) = some id ↔
      k = .runActive tenant id) ∧
    (∀ k tenant run id,
      parseDirectShardId (ks.shardsActivePrefix tenant run ++ slash) (ks.keyOf k) = some id ↔
        k = .shardActive tenant run id) ∧
    (∀ k tenant run id,
      parseOwnedShard (ks.shardRecordsScanPrefix tenant run) (ks.keyOf k) = some id ↔
        k = .shardOwner tenant run id) ∧
    (∀ k, PersistedShardSubtreeKey.classify (ks.keyOf k) = k.subtreeKind) ∧
    (∀ k k', k.kind = k'.kind → (ks.keyOf k < ks.keyOf k' ↔ k.ids < k'.ids)) := by
  refine ⟨keyOf_injective, ?_, fun _ _ _ => shardRecordsScanPrefix_iff,
    fun _ _ _ => shardsActivePrefix_iff, fun _ _ => runsActivePrefix_iff,
    fun _ _ _ => parseDirectRunId_records, fun _ _ _ => parseDirectRunId_active,
    fun _ _ _ _ => parseDirectShardId_active, fun _ _ _ _ => parseOwnedShard_owner,
    classify_keyOf, fun _ _ => keyOf_lt_iff⟩
  intro k tenant
  rw [runRecordsScanPrefix_iff]
  cases k <;> simp [KeyId.tenant, KeyId.underRun]

/-- The scan over run records also meets shard keys. -/
theorem runRecordsScanPrefix_meets_shard :
    ∃ (ks : EtcdKeyspace) (tenant : TenantId) (k : KeyId),
      EtcdKeyspace.new " /g\n" = .ok ks ∧
      ks.runRecordsScanPrefix tenant <+: ks.keyOf k ∧ ∀ run, k ≠ .runRecord tenant run :=
  ⟨⟨trim " /g\n", by decide, by decide, by decide⟩, ⟨1⟩, .shardRecord ⟨1⟩ ⟨7⟩ ⟨3⟩, rfl,
    runRecordsScanPrefix_iff.mpr ⟨rfl, rfl⟩, fun _ => nofun⟩

end GossipRs.Etcd
