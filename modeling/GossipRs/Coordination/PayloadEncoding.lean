import GossipRs.Coordination.Validation

/-! The payload hash input tells payloads apart: tag and fields can be read back, although only the
variable-length parts carry a length. -/

namespace GossipRs

open Lib Stdx Outcome List

variable {ε α γ : Type}

variable {text : Bytes}

theorem canonicalConcat_cons_eq_ok {rest : List (Run ε Bytes)} :
    canonicalConcat (part :: rest) = .ok text ↔
      ∃ a, part = .ok a ∧ ∃ b, canonicalConcat rest = .ok b ∧ a ++ b = text := by
  simp [canonicalConcat, Outcome.bind_eq_ok]

theorem canonicalConcat_ne_nil {rest : List (Run ε Bytes)} (h : part ≠ .ok []) :
    canonicalConcat (part :: rest) ≠ .ok [] := by
  intro hn
  obtain ⟨_, ha, _, -, hab⟩ := canonicalConcat_cons_eq_ok.mp hn
  exact h ((append_eq_nil_iff.mp hab).1 ▸ ha)

/-! ## Self-delimiting encodings -/

/-- Whatever follows it, an encoding determines its value up to `R` and where it ends. -/
structure Delimits (put : γ → Run ε Bytes) (R : γ → γ → Prop) : Prop where
  inj : ∀ {a b x y s t}, put a = .ok x → put b = .ok y → x ++ s = y ++ t → R a b ∧ s = t

section Rules

variable {put : γ → Run ε Bytes} {R R' : γ → γ → Prop}

theorem Delimits.mono (h : Delimits put R) (hR : ∀ a b, R a b → R' a b) : Delimits put R' :=
  ⟨fun {a b} _ _ _ _ hx hy he => (h.inj hx hy he).imp_left (hR a b)⟩

theorem delimits_nil : Delimits (fun _ : γ => (canonicalConcat [] : Run ε Bytes)) fun _ _ =>
    True := by
  refine ⟨fun hx hy he => ?_⟩
  cases hx
  cases hy
  exact ⟨trivial, he⟩

theorem Delimits.field {put} {rest : γ → List (Run ε Bytes)} (h : Delimits put Eq) (get : γ → α)
    (hr : Delimits (fun r => canonicalConcat (rest r)) R) :
    Delimits (fun r => canonicalConcat (put (get r) :: rest r)) fun r r' =>
      get r = get r' ∧ R r r' := by
  refine ⟨fun hx hy heq => ?_⟩
  obtain ⟨_, hx1, _, hx2, rfl⟩ := canonicalConcat_cons_eq_ok.mp hx
  obtain ⟨_, hy1, _, hy2, rfl⟩ := canonicalConcat_cons_eq_ok.mp hy
  rw [append_assoc, append_assoc] at heq
  obtain ⟨hf, hn⟩ := h.inj hx1 hy1 heq
  obtain ⟨hR, he⟩ := hr.inj hx2 hy2 hn
  exact ⟨⟨hf, hR⟩, he⟩

/-- Entries that cannot be empty need no count, so the count may be truncated. -/
theorem Delimits.list (h : Delimits put Eq) (hn : ∀ a, put a ≠ .ok []) :
    ∀ {items others : List γ} {text}, canonicalConcat (items.map put) = .ok text →
      canonicalConcat (others.map put) = .ok text → items = others := by
  intro items
  induction items with
  | nil =>
    intro others text hx hy
    cases others with
    | nil => rfl
    | cons b others =>
      cases hx
      exact absurd hy (canonicalConcat_ne_nil (hn b))
  | cons a items ih =>
    intro others text hx hy
    cases others with
    | nil =>
      cases hy
      exact absurd hx (canonicalConcat_ne_nil (hn a))
    | cons b others =>
      obtain ⟨_, ha, _, hxs, rfl⟩ := canonicalConcat_cons_eq_ok.mp hx
      obtain ⟨_, hb, _, hys, he⟩ := canonicalConcat_cons_eq_ok.mp hy
      obtain ⟨rfl, rfl⟩ := h.inj hb ha he
      rw [ih hxs hys]

theorem Delimits.counted (h : Delimits put Eq) (hne : ∀ a, put a ≠ .ok []) {items others : List γ}
    (hx : canonicalConcat ((return canonicalU32 m) :: items.map put) = .ok text)
    (hy : canonicalConcat ((return canonicalU32 n) :: others.map put) = .ok text) :
    items = others := by
  obtain ⟨_, hm, _, hxs, rfl⟩ := canonicalConcat_cons_eq_ok.mp hx
  obtain ⟨_, hn, _, hys, he⟩ := canonicalConcat_cons_eq_ok.mp hy
  cases hm
  cases hn
  rw [(append_inj he (by simp [canonicalU32])).2] at hys
  exact h.list hne hxs hys

theorem Delimits.eq (h : Delimits put Eq) (ha : put a = .ok text) (hb : put b = .ok text) :
    a = b :=
  (h.inj ha hb (rfl : text ++ [] = text ++ [])).1

end Rules

/-! ## Fields -/

theorem leBytes_append_inj (hm : m < 256 ^ width) (hn : n < 256 ^ width)
    (h : leBytes width m ++ s = leBytes width n ++ t) : m = n ∧ s = t := by
  obtain ⟨hw, hr⟩ := append_inj h (by simp)
  rw [← ofLeBytes_leBytes hm, hw, ofLeBytes_leBytes hn]
  exact ⟨rfl, hr⟩

theorem delimits_u64 : Delimits (fun n => (return canonicalU64 n : Run ε Bytes)) Eq := by
  refine ⟨fun {a b} _ _ _ _ hx hy he => ?_⟩
  cases hx
  cases hy
  exact (leBytes_append_inj a.toNat_lt b.toNat_lt he).imp_left UInt64.toNat_inj.mp

theorem canonicalSlice_eq_ok : (canonicalSlice data : Run ε Bytes) = .ok text ↔
    data.length < 2 ^ 32 ∧ leBytes 4 data.length ++ data = text := by
  simp [canonicalSlice, check_eq_ok, canonicalU32]

theorem canonicalSlice_ne_nil (data) : (canonicalSlice data : Run ε Bytes) ≠ .ok [] := by
  simp [canonicalSlice_eq_ok, leBytes]

theorem delimits_slice : Delimits (canonicalSlice (ε := ε)) Eq := by
  refine ⟨fun hx hy he => ?_⟩
  obtain ⟨ha, rfl⟩ := canonicalSlice_eq_ok.mp hx
  obtain ⟨hb, rfl⟩ := canonicalSlice_eq_ok.mp hy
  rw [append_assoc, append_assoc] at he
  obtain ⟨hl, hr⟩ := leBytes_append_inj ha hb he
  exact append_inj hr hl

namespace CursorUpdate

theorem canonicalField_eq_ok :
    (canonicalField o : Run ε Bytes) = .ok text ↔ o = none ∧ text = [0] ∨
      ∃ data rest, o = some data ∧ (canonicalSlice data : Run ε Bytes) = .ok rest ∧
        text = 1 :: rest := by
  cases o <;> simp [canonicalField, canonicalConcat, Outcome.bind_eq_ok, canonicalU8, leBytes,
    @eq_comm _ text]

theorem delimits_canonicalField : Delimits (canonicalField (ε := ε)) Eq := by
  refine ⟨fun hx hy he => ?_⟩
  rcases canonicalField_eq_ok.mp hx with ⟨rfl, rfl⟩ | ⟨_, _, rfl, ha, rfl⟩ <;>
    rcases canonicalField_eq_ok.mp hy with ⟨rfl, rfl⟩ | ⟨_, _, rfl, hb, rfl⟩
  · exact ⟨rfl, (List.cons.inj he).2⟩
  · exact absurd (List.cons.inj he).1 (by decide)
  · exact absurd (List.cons.inj he).1 (by decide)
  · exact (delimits_slice.inj ha hb (List.cons.inj he).2).imp_left (congrArg some)

theorem delimits_canonical : Delimits (canonical (ε := ε)) Eq :=
  (delimits_canonicalField.field lastKey
    (delimits_canonicalField.field token delimits_nil)).mono (by
      rintro ⟨⟩ ⟨⟩ ⟨rfl, rfl, -⟩
      rfl)

theorem canonical_head {cursor : CursorUpdate} (h : (cursor.canonical : Run ε Bytes) = .ok text) :
    text.head? = some 0 ∨ text.head? = some 1 := by
  obtain ⟨_, ha, _, -, rfl⟩ := canonicalConcat_cons_eq_ok.mp h
  rcases canonicalField_eq_ok.mp ha with ⟨-, rfl⟩ | ⟨_, _, -, -, rfl⟩
  · exact .inl rfl
  · exact .inr rfl

end CursorUpdate

theorem ShardSpec.delimits_canonical : Delimits (canonical (ε := ε)) Eq :=
  (delimits_slice.field keyRangeStart (delimits_slice.field keyRangeEnd
    (delimits_slice.field metadata delimits_nil))).mono (by
      rintro ⟨⟩ ⟨⟩ ⟨rfl, rfl, rfl, -⟩
      rfl)

theorem SplitReplaceChild.delimits_canonical : Delimits (canonical (ε := ε)) Eq :=
  (ShardSpec.delimits_canonical.field spec
    (CursorUpdate.delimits_canonical.field cursor delimits_nil)).mono (by
      rintro ⟨⟩ ⟨⟩ ⟨rfl, rfl, -⟩
      rfl)

theorem SplitResidualPlan.delimits_canonical : Delimits (canonical (ε := ε)) Eq :=
  (ShardSpec.delimits_canonical.field parentNewSpec
    (ShardSpec.delimits_canonical.field residualSpec delimits_nil)).mono (by
      rintro ⟨⟩ ⟨⟩ ⟨rfl, rfl, -⟩
      rfl)

namespace Payload

theorem delimits_canonicalShard : Delimits canonicalShard Eq :=
  (delimits_u64.field (ShardId.raw ∘ InitialShardInput.shard)
    (ShardSpec.delimits_canonical.field InitialShardInput.spec
      (CursorUpdate.delimits_canonical.field InitialShardInput.cursor delimits_nil))).mono (by
      rintro ⟨⟨⟩, _, _⟩ ⟨⟨⟩, _, _⟩ ⟨rfl, rfl, rfl, -⟩
      rfl)

/-! ## Tags -/

def canonical (payload : Payload) : Run Empty Bytes := do
  let fields ← payload.canonicalFields
  return payload.opTag ++ fields

variable {payload : Payload}

theorem canonical_eq_ok : payload.canonical = .ok text ↔
    ∃ fields, payload.canonicalFields = .ok fields ∧ payload.opTag ++ fields = text := by
  simp [canonical, Outcome.bind_eq_ok]

def tags : List Bytes :=
  ["checkpoint", "complete", "park", "split_replace", "split_residual", "register_shards",
    "complete_run", "fail_run", "cancel_run", "unpark_shard"].map asciiBytes

theorem opTag_mem_tags (p : Payload) : p.opTag ∈ tags := by
  cases p <;> simp [opTag, tags]

theorem tags_apart : ∀ a ∈ tags, ∀ b ∈ tags, a <+: b →
    a = b ∨ a = asciiBytes "complete" ∧ b = asciiBytes "complete_run" := by
  decide +kernel

theorem fields_inj {p q : Payload} (ht : p.opTag = q.opTag) (hp : p.canonicalFields = .ok text)
    (hq : q.canonicalFields = .ok text) : p = q := by
  cases p <;> cases q <;> dsimp only [opTag] at ht <;>
    first
    | exact absurd ht (by decide +kernel)
    | rfl
    | skip
  case checkpoint.checkpoint => rw [CursorUpdate.delimits_canonical.eq hp hq]
  case complete.complete => rw [CursorUpdate.delimits_canonical.eq hp hq]
  case splitResidual.splitResidual => rw [SplitResidualPlan.delimits_canonical.eq hp hq]
  case park.park a b =>
    have he : canonicalU8 a.asU8 = canonicalU8 b.asU8 := Outcome.ok.inj (hp.trans hq.symm)
    congr 1
    revert he
    cases a <;> cases b <;> decide
  case unparkShard.unparkShard a b =>
    obtain ⟨⟨run⟩, ⟨shard⟩⟩ := a
    obtain ⟨⟨run'⟩, ⟨shard'⟩⟩ := b
    have he : leBytes 8 run.toNat ++ leBytes 8 shard.toNat =
        leBytes 8 run'.toNat ++ leBytes 8 shard'.toNat := Outcome.ok.inj (hp.trans hq.symm)
    obtain ⟨hru, hr⟩ := leBytes_append_inj run.toNat_lt run'.toNat_lt he
    have hs := (leBytes_append_inj shard.toNat_lt shard'.toNat_lt (congrArg (· ++ []) hr)).1
    rw [UInt64.toNat_inj.mp hru, UInt64.toNat_inj.mp hs]
  case splitReplace.splitReplace a b =>
    obtain ⟨children, _, _⟩ := a
    obtain ⟨others, _, _⟩ := b
    obtain rfl : children = others :=
      SplitReplaceChild.delimits_canonical.counted (fun _ => canonicalConcat_ne_nil
        (canonicalConcat_ne_nil (canonicalSlice_ne_nil _))) (check_eq_ok.mp hp).2
        (check_eq_ok.mp hq).2
    rfl
  case registerShards.registerShards =>
    rw [delimits_canonicalShard.counted (fun _ => canonicalConcat_ne_nil nofun) hp hq]

theorem opTag_eq {p q : Payload} (hp : p.canonicalFields = .ok x) (h : p.opTag ++ x = q.opTag ++ y)
    (hl : p.opTag.length ≤ q.opTag.length) : p.opTag = q.opTag := by
  have hpr := prefix_of_prefix_length_le (prefix_append p.opTag x) (h ▸ prefix_append q.opTag y) hl
  rcases tags_apart _ p.opTag_mem_tags _ q.opTag_mem_tags hpr with he | ⟨hc, hr⟩
  · exact he
  have hru : asciiBytes "complete_run" = asciiBytes "complete" ++ asciiBytes "_run" := by
    decide +kernel
  rw [hc, hr, hru, append_assoc] at h
  obtain rfl := append_cancel_left h
  cases p <;> dsimp only [opTag] at hc <;> first | exact absurd hc (by decide +kernel) | skip
  exact absurd (CursorUpdate.canonical_head hp) (by simp [asciiBytes])

theorem canonical_inj {p q : Payload} (hp : p.canonical = .ok text) (hq : q.canonical = .ok text) :
    p = q := by
  wlog hle : p.opTag.length ≤ q.opTag.length generalizing p q
  · exact (this hq hp (Nat.le_of_not_le hle)).symm
  obtain ⟨_, hx, rfl⟩ := canonical_eq_ok.mp hp
  obtain ⟨_, hy, he⟩ := canonical_eq_ok.mp hq
  have ht := opTag_eq hx he.symm hle
  rw [ht] at he
  obtain rfl := append_cancel_left he
  exact fields_inj ht hx hy

theorem ofManifest_perm (h : shards.Perm others)
    (hid : (shards.map InitialShardInput.shard).Nodup) :
    ofManifest shards = ofManifest others := by
  have hs (l) : (sortByShardId l).Pairwise fun a b => a.shard ≤ b.shard :=
    pairwise_insertionSort _ _
  have hp := (perm_sortByShardId shards).trans (h.trans (perm_sortByShardId others).symm)
  rw [ofManifest, ofManifest, hp.eq_of_pairwise _ (hs _) (hs _)]
  intro a b ha hb hab hba
  refine inj_on_of_nodup_map hid ((perm_sortByShardId _).mem_iff.mp ha)
    (h.mem_iff.mpr ((perm_sortByShardId _).mem_iff.mp hb)) (le_antisymm hab hba)

end Payload

open Payload in
/-- Equal bytes fed to the payload hash mean the same operation with the same fields; a manifest may
come in any order. -/
theorem payload_unambiguous :
    (∀ {p q : Payload} {text}, p.canonical = .ok text → q.canonical = .ok text → p = q) ∧
    (∀ {shards others text}, (ofManifest shards).canonical = .ok text →
      (ofManifest others).canonical = .ok text → shards.Perm others) ∧
    ∀ {shards others}, shards.Perm others → (shards.map InitialShardInput.shard).Nodup →
      (ofManifest shards).canonical = (ofManifest others).canonical := by
  refine ⟨canonical_inj, fun hp hq => ?_, fun hperm hids => ?_⟩
  · have heq := Payload.registerShards.inj (canonical_inj hp hq)
    exact (perm_sortByShardId _).symm.trans (heq ▸ perm_sortByShardId _)
  · rw [ofManifest_perm hperm hids]

def twoShards : List InitialShardInput :=
  [⟨⟨2⟩, ⟨[5], [9], []⟩, .initial⟩, ⟨⟨1⟩, ⟨[], [5], [7]⟩, .initial⟩]

open Payload in
theorem payload_unambiguous_two_shards :
    (ofManifest twoShards).canonical = (ofManifest twoShards.reverse).canonical ∧
      twoShards.Perm twoShards.reverse ∧ ofManifest twoShards = ofManifest twoShards.reverse := by
  have heq := payload_unambiguous.2.2 (reverse_perm twoShards).symm (by decide)
  exact ⟨heq, payload_unambiguous.2.1 rfl rfl, payload_unambiguous.1 rfl rfl⟩

end GossipRs
