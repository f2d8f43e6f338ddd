import GossipRs.Etcd.Codec
import GossipRs.Lib.Checks

/-! What the decoding primitives accept. Each reader is matched with the bytes it
reads, and encoders with the same bytes. -/

namespace GossipRs.Etcd

open Lib Stdx List
open UInt8 (ofNat toNat)
open ReadM (bind_eq_ok reject_eq_ok)

variable {ε α : Type}

def wireBytes (data : Bytes) : Bytes := leBytes 4 data.length ++ data

def wireOpt (put : α → Bytes) : Option α → Bytes
  | none => [0]
  | some a => 1 :: put a

def wireList (put : α → Bytes) (items : List α) : Bytes :=
  leBytes 4 items.length ++ items.flatMap put

theorem putLen_of_lt (h : len < 2 ^ 32) : (putLen len : Run ε Bytes) = .ok (leBytes 4 len) := by
  unfold putLen
  rw [Outcome.assert_of_true h]
  rfl

theorem putBytes_of_lt (h : data.length < 2 ^ 32) :
    (putBytes data : Run ε Bytes) = .ok (wireBytes data) := by
  unfold putBytes
  rw [putLen_of_lt h]
  rfl

theorem putOpt_of_ok {put : α → Run ε Bytes} (h : ∀ a ∈ o, put a = .ok (wire a)) :
    putOpt put o = .ok (wireOpt wire o) := by
  cases o with
  | none => rfl
  | some a =>
    rw [putOpt, h a rfl]
    rfl

theorem canonicalConcat_cons {rest : List (Run ε Bytes)} (hp : part = .ok a)
    (hr : canonicalConcat rest = .ok b) : canonicalConcat (part :: rest) = .ok (a ++ b) := by
  rw [canonicalConcat, hp, hr]
  rfl

theorem canonicalConcat_map {put : α → Run ε Bytes} {wire : α → Bytes} :
    ∀ {items : List α}, (∀ a ∈ items, put a = .ok (wire a)) →
      canonicalConcat (items.map put) = .ok (items.flatMap wire)
  | [], _ => rfl
  | a :: rest, h => by
    exact canonicalConcat_cons (h a mem_cons_self)
      (canonicalConcat_map fun b hb => h b (mem_cons_of_mem _ hb))

theorem putList_of_ok {put : α → Run ε Bytes} (hl : items.length < 2 ^ 32)
    (h : ∀ a ∈ items, put a = .ok (wire a)) : putList put items = .ok (wireList wire items) := by
  unfold putList
  rw [putLen_of_lt hl, canonicalConcat_map h]
  rfl

namespace Decoder

theorem reads_exact (len) :
    Reads (readExact len) (fun data => data) (fun data => data.length = len) :=
  Reads.exact len fun input => EtcdCodecError.truncated len input.length

theorem reads_word (width) (f : Nat → α) (value : α → Nat) (hv : ∀ a, value a < 256 ^ width)
    (hf : ∀ a, f (value a) = a) (hin : ∀ n, n < 256 ^ width → value (f n) = n) :
    Reads (do let raw ← readExact width; return f (ofLeBytes raw) : Decoder α)
      (fun a => leBytes width (value a)) (fun _ => True) := by
  refine (reads_exact width).iso (fun raw => f (ofLeBytes raw)) (fun a => leBytes width (value a))
    (fun _ => length_leBytes _ _) (fun a => ?_) (fun raw hl => ?_)
  · rw [ofLeBytes_leBytes (hv a), hf]
  · have hlt : ofLeBytes raw < 256 ^ width := hl ▸ ofLeBytes_lt raw
    rw [hin _ hlt, ← hl, leBytes_ofLeBytes]

theorem reads_u8 : Reads readU8 (fun b => [b]) (fun _ => True) := by
  refine (reads_word 1 ofNat toNat (fun a => ?_) (fun _ => UInt8.ofNat_toNat)
    (fun n hn => ?_)).congr (fun _ => Iff.rfl) (fun b _ => ?_)
  · have := a.toNat_lt
    omega
  · rw [UInt8.toNat_ofNat']
    omega
  · simp [leBytes]

theorem reads_u32 : Reads readU32 putU32 (fun _ => True) := by
  refine reads_word 4 UInt32.ofNat UInt32.toNat (fun a => ?_)
    (fun _ => UInt32.ofNat_toNat) (fun n hn => ?_)
  · have := a.toNat_lt
    omega
  · rw [UInt32.toNat_ofNat']
    omega

theorem reads_u64 : Reads readU64 putU64 (fun _ => True) := by
  refine reads_word 8 UInt64.ofNat UInt64.toNat (fun a => ?_)
    (fun _ => UInt64.ofNat_toNat) (fun n hn => ?_)
  · have := a.toNat_lt
    omega
  · rw [UInt64.toNat_ofNat']
    omega

theorem reads_len : Reads readLen (leBytes 4) (fun n => n < 2 ^ 32) := by
  refine ⟨fun {input n rest} => ?_⟩
  unfold readLen
  rw [bind_eq_ok]
  constructor
  · intro ⟨raw, middle, hr, h⟩
    cases h
    obtain ⟨hl, rfl⟩ := (reads_exact 4).iff.mp hr
    have hlt := ofLeBytes_lt raw
    rw [hl] at hlt
    refine ⟨by omega, ?_⟩
    rw [← hl, leBytes_ofLeBytes]
  intro ⟨hn, he⟩
  refine ⟨leBytes 4 n, rest, (reads_exact 4).iff.mpr ⟨length_leBytes _ _, he⟩, ?_⟩
  rw [ofLeBytes_leBytes (by omega)]
  rfl

theorem reads_bool : Reads readBool (fun b => [if b then 1 else 0]) (fun _ => True) := by
  refine ⟨fun {input b rest} => ?_⟩
  unfold readBool
  rw [bind_eq_ok]
  constructor
  · intro ⟨raw, middle, hr, h⟩
    obtain ⟨-, rfl⟩ := reads_u8.iff.mp hr
    by_cases h0 : raw = 0
    · rw [if_pos h0] at h
      cases h
      exact ⟨trivial, by rw [h0]; rfl⟩
    rw [if_neg h0] at h
    by_cases h1 : raw = 1
    · rw [if_pos h1] at h
      cases h
      exact ⟨trivial, by rw [h1]; rfl⟩
    · rw [if_neg h1] at h
      cases h
  · intro ⟨_, he⟩
    subst he
    refine ⟨if b then 1 else 0, rest, reads_u8.iff.mpr ⟨trivial, rfl⟩, ?_⟩
    cases b <;> rfl

theorem reads_opt {x : Decoder α} {put : α → Bytes} (hx : Reads x put P) :
    Reads (readOpt x) (wireOpt put) (fun o => ∀ a ∈ o, P a) := by
  refine ⟨fun {input o rest} => ?_⟩
  unfold readOpt
  rw [bind_eq_ok]
  constructor
  · intro ⟨present, middle, hp, h⟩
    obtain ⟨-, rfl⟩ := reads_bool.iff.mp hp
    cases present with
    | false =>
      cases h
      exact ⟨by simp, rfl⟩
    | true =>
      obtain ⟨a, _, ha, h⟩ := bind_eq_ok.mp h
      cases h
      obtain ⟨hP, rfl⟩ := hx.iff.mp ha
      exact ⟨by simpa using hP, rfl⟩
  · intro ⟨hP, he⟩
    subst he
    cases o with
    | none => exact ⟨false, rest, reads_bool.iff.mpr ⟨trivial, rfl⟩, rfl⟩
    | some a =>
      refine ⟨true, put a ++ rest, reads_bool.iff.mpr ⟨trivial, rfl⟩, ?_⟩
      exact bind_eq_ok.mpr ⟨a, rest, hx.iff.mpr ⟨hP a rfl, rfl⟩, rfl⟩

theorem reads_enum {values : List α} (hn : (values.map tag).Nodup) (ha : ∀ a, a ∈ values) :
    Reads (readEnum ty (fromTag tag values)) (fun a => [tag a]) (fun _ => True) := by
  have hfr : ∀ raw a, fromTag tag values raw = some a ↔ tag a = raw := by
    intro raw a
    constructor
    · intro h
      exact eq_of_beq (List.find?_some (p := fun a => tag a == raw) h)
    intro h
    cases hf : fromTag tag values raw with
    | none => exact absurd (List.find?_eq_none.mp hf a (ha a)) (by simp [h])
    | some b =>
      have hb : tag b = raw := eq_of_beq (List.find?_some (p := fun a => tag a == raw) hf)
      rw [inj_on_of_nodup_map hn (ha b) (ha a) (hb.trans h.symm)]
  refine ⟨fun {input a rest} => ?_⟩
  unfold readEnum
  rw [bind_eq_ok]
  constructor
  · intro ⟨raw, middle, hr, h⟩
    obtain ⟨-, rfl⟩ := reads_u8.iff.mp hr
    cases hf : fromTag tag values raw with
    | none =>
      rw [hf] at h
      cases h
    | some b =>
      rw [hf] at h
      cases h
      exact ⟨trivial, congrArg (· :: rest) ((hfr raw a).mp hf).symm⟩
  · intro ⟨_, he⟩
    subst he
    refine ⟨tag a, rest, reads_u8.iff.mpr ⟨trivial, rfl⟩, ?_⟩
    rw [(hfr (tag a) a).mpr rfl]
    rfl

theorem reads_semantics : Reads (readEnum "CursorSemantics" semanticsFromU8)
    (fun a => [semanticsTag a]) (fun _ => True) :=
  reads_enum (by decide) (by intro a; cases a <;> simp)

theorem reads_vec : Reads readVec wireBytes (fun data => data.length ≤ maxFieldSize) := by
  refine ⟨fun {input data rest} => ?_⟩
  unfold readVec
  simp only [bind_eq_ok, reject_eq_ok]
  constructor
  · intro ⟨len, middle, hle, _, last, ⟨hmax, hl⟩, hd⟩
    obtain ⟨-, rfl⟩ := reads_len.iff.mp hle
    subst hl
    obtain ⟨rfl, rfl⟩ := (reads_exact len).iff.mp hd
    exact ⟨by omega, (append_assoc _ _ _).symm⟩
  intro ⟨hmax, he⟩
  have hf : maxFieldSize < 2 ^ 32 := by decide
  refine ⟨data.length, data ++ rest, reads_len.iff.mpr ⟨by omega, ?_⟩, (), data ++ rest,
    ⟨by omega, rfl⟩, (reads_exact _).iff.mpr ⟨rfl, rfl⟩⟩
  rw [he, wireBytes, append_assoc]

theorem reads_list {max} {x : Decoder α} {put : α → Bytes} {P} (hmax : max < 2 ^ 32)
    (hx : Reads x put P) :
    Reads (readList max tooLong x) (wireList put)
      (fun items => items.length ≤ max ∧ ∀ a ∈ items, P a) := by
  refine ⟨fun {input items rest} => ?_⟩
  unfold readList
  simp only [bind_eq_ok, reject_eq_ok]
  constructor
  · intro ⟨len, middle, hlen, _, last, ⟨hle, hl⟩, hit⟩
    obtain ⟨-, rfl⟩ := reads_len.iff.mp hlen
    subst hl
    obtain ⟨⟨rfl, ha⟩, rfl⟩ := (hx.replicate len).iff.mp hit
    exact ⟨⟨by omega, ha⟩, (append_assoc _ _ _).symm⟩
  intro ⟨⟨hle, ha⟩, he⟩
  refine ⟨items.length, items.flatMap put ++ rest, reads_len.iff.mpr ⟨by omega, ?_⟩, (),
    items.flatMap put ++ rest, ⟨by omega, rfl⟩, (hx.replicate _).iff.mpr ⟨⟨rfl, ha⟩, rfl⟩⟩
  rw [he, wireList, append_assoc]

theorem reads_shardId : Reads readShardId putShardId (fun _ => True) := by
  refine ⟨fun {input shard rest} => ?_⟩
  unfold readShardId
  rw [bind_eq_ok]
  constructor
  · intro ⟨raw, middle, hr, h⟩
    cases h
    exact reads_u64.iff.mp hr
  · intro h
    exact ⟨shard.raw, rest, reads_u64.iff.mpr h, rfl⟩

theorem reads_shardIds {max} (hmax : max < 2 ^ 32) :
    Reads (readShardIds max kind detail) (wireList putShardId) (fun ids => ids.length ≤ max) := by
  refine ⟨fun {input ids rest} => ?_⟩
  unfold readShardIds
  simp only [bind_eq_ok, reject_eq_ok]
  constructor
  · intro ⟨len, middle, hlen, _, last, ⟨hle, hl⟩, whole, after, hg, _, tail, ⟨_, ht⟩, hid⟩
    obtain ⟨-, rfl⟩ := reads_len.iff.mp hlen
    cases hg
    subst hl ht
    obtain ⟨⟨rfl, -⟩, rfl⟩ := (reads_shardId.replicate len).iff.mp hid
    exact ⟨by omega, (append_assoc _ _ _).symm⟩
  intro ⟨hle, he⟩
  have hr : (ids.flatMap putShardId ++ rest).length / shardIdWireSize ≥ ids.length := by
    have hlen : (ids.flatMap putShardId).length = ids.length * 8 := by
      rw [List.length_flatMap]
      simp [putShardId, putU64]
    rw [length_append, hlen, shardIdWireSize]
    omega
  refine ⟨ids.length, ids.flatMap putShardId ++ rest, reads_len.iff.mpr ⟨by omega, ?_⟩, (), _,
    ⟨by omega, rfl⟩, _, _, rfl, (), _, ⟨by omega, rfl⟩,
    (reads_shardId.replicate _).iff.mpr ⟨⟨rfl, fun _ _ => trivial⟩, rfl⟩⟩
  rw [he, wireList, append_assoc]

theorem length_tenantBytes (tenant) : (tenantBytes tenant).length = 32 := by
  rw [tenantBytes, length_map, length_beDigits]

theorem toNat_tenantBytes (tenant) :
    (tenantBytes tenant).map toNat = beDigits 256 32 tenant.raw.toNat := by
  unfold tenantBytes
  rw [map_map]
  have hid : ∀ d ∈ beDigits 256 32 tenant.raw.toNat, (toNat ∘ ofNat) d = id d := by
    intro d hd
    have : d < 256 := mem_beDigits_lt (by decide) hd
    simp only [Function.comp, UInt8.toNat_ofNat', id]
    omega
  rw [map_congr_left hid, map_id]

theorem tenantFromBytes_tenantBytes (tenant) : tenantFromBytes (tenantBytes tenant) = tenant := by
  have hl : tenant.raw.toNat < 256 ^ 32 := by
    have := tenant.raw.isLt
    norm_num at this ⊢
    exact this
  unfold tenantFromBytes
  rw [toNat_tenantBytes, ofBeDigits_beDigits hl, BitVec.ofNat_toNat, BitVec.setWidth_eq]

theorem tenantBytes_tenantFromBytes (hl : raw.length = 32) :
    tenantBytes (tenantFromBytes raw) = raw := by
  have hlt : ∀ d ∈ raw.map toNat, d < 256 := by
    intro d hd
    obtain ⟨b, -, rfl⟩ := mem_map.mp hd
    exact b.toNat_lt
  have hn := ofBeDigits_lt _ hlt
  have hb := beDigits_ofBeDigits _ hlt
  rw [length_map, hl] at hn hb
  have hm : ofBeDigits 256 (raw.map toNat) % 2 ^ 256 = ofBeDigits 256 (raw.map toNat) :=
    Nat.mod_eq_of_lt (by norm_num at hn ⊢; exact hn)
  unfold tenantBytes tenantFromBytes
  rw [BitVec.toNat_ofNat, hm, hb, map_map]
  have hid : ∀ b ∈ raw, (ofNat ∘ toNat) b = id b := fun b _ => UInt8.ofNat_toNat
  rw [map_congr_left hid, map_id]

theorem reads_tenant : Reads readTenant tenantBytes (fun _ => True) := by
  exact (reads_exact 32).iso tenantFromBytes tenantBytes length_tenantBytes
    tenantFromBytes_tenantBytes fun _ hl => tenantBytes_tenantFromBytes hl

theorem reads_header (expected) :
    Reads (expectHeader expected) (fun _ => putHeader expected) (fun _ => True) := by
  have hf : ∀ raw kind, BlobKind.fromU8 raw = some kind ↔ kind.asU8 = raw := by
    intro raw kind
    constructor
    · intro h
      exact eq_of_beq (List.find?_some (p := fun a => BlobKind.asU8 a == raw) h)
    · rintro rfl
      cases kind <;> rfl
  refine ⟨fun {input u rest} => ?_⟩
  unfold expectHeader
  simp only [bind_eq_ok, reject_eq_ok]
  constructor
  · intro ⟨actual, middle, ha, _, last, ⟨hv, hl⟩, raw, tail, hr, h⟩
    obtain ⟨-, rfl⟩ := (reads_exact 2).iff.mp ha
    subst hl
    obtain ⟨-, rfl⟩ := reads_u8.iff.mp hr
    cases hk : BlobKind.fromU8 raw with
    | none =>
      rw [hk] at h
      cases h
    | some kind =>
      rw [hk] at h
      obtain ⟨hk', rfl⟩ := reject_eq_ok.mp h
      have ht := (hf raw kind).mp hk
      rw [not_not] at hv hk'
      refine ⟨trivial, ?_⟩
      rw [← ht, hk', hv, putHeader, append_assoc]
  · intro ⟨_, he⟩
    refine ⟨versionPrefixV1, [expected.asU8] ++ rest, (reads_exact 2).iff.mpr ⟨rfl, ?_⟩, (), _,
      ⟨by simp, rfl⟩, expected.asU8, rest, reads_u8.iff.mpr ⟨trivial, rfl⟩, ?_⟩
    · rw [he, putHeader, append_assoc]
    · rw [(hf _ expected).mpr rfl]
      exact reject_eq_ok.mpr ⟨by simp, rfl⟩

theorem finish_eq_ok {input rest : Bytes} :
    finish input = .ok (u, rest) ↔ input = [] ∧ rest = [] := by
  unfold finish
  simp only [bind_eq_ok, reject_eq_ok]
  constructor
  · intro ⟨whole, middle, hg, he, hr⟩
    cases hg
    have : input = [] := length_eq_zero_iff.mp (not_not.mp he)
    exact ⟨this, hr ▸ this⟩
  · rintro ⟨rfl, rfl⟩
    exact ⟨[], [], rfl, by simp, rfl⟩

end Decoder

theorem runDecoder_eq_ok {a : α} :
    runDecoder decoder blob = .ok a ↔ ∃ rest, decoder blob = .ok (a, rest) := by
  unfold runDecoder
  cases decoder blob with
  | error e => simp [Except.map]
  | ok p =>
    obtain ⟨_, rest⟩ := p
    simp [Except.map]

theorem runDecodeBlob_eq_ok {decode : Decoder α} {put : α → Bytes} (h : Reads decode put P) :
    runDecoder (decodeBlob kind decode) blob = .ok a ↔ P a ∧ blob = putHeader kind ++ put a := by
  rw [runDecoder_eq_ok]
  unfold decodeBlob
  simp only [bind_eq_ok, Decoder.finish_eq_ok]
  constructor
  · intro ⟨rest, _, m1, hh, owned, m2, ho, _, m3, ⟨he, hr⟩, heq⟩
    cases heq
    obtain ⟨-, rfl⟩ := (Decoder.reads_header kind).iff.mp hh
    obtain ⟨hP, rfl⟩ := h.iff.mp ho
    subst he
    exact ⟨hP, by rw [append_nil]⟩
  intro ⟨hP, heq⟩
  subst heq
  exact ⟨[], (), put a, (Decoder.reads_header kind).iff.mpr ⟨trivial, rfl⟩, a, [],
    h.iff.mpr ⟨hP, (append_nil _).symm⟩, (), [], ⟨rfl, rfl⟩, rfl⟩

theorem decodeOwnerValue_eq_ok :
    decodeOwnerValue blob = .ok value ↔
      FenceEpoch.initial ≤ value.fence ∧ blob = encodeOwnerValue value.worker value.fence := by
  unfold decodeOwnerValue
  rw [runDecoder_eq_ok]
  unfold decodeOwner
  simp only [bind_eq_ok, reject_eq_ok, Decoder.finish_eq_ok]
  constructor
  · intro ⟨rest, _, m1, hh, worker, m2, hw, fence, m3, hf, _, m4, ⟨hg, h4⟩, _, m5, ⟨hend, h5⟩, h⟩
    obtain ⟨-, rfl⟩ := (Decoder.reads_header _).iff.mp hh
    obtain ⟨-, rfl⟩ := Decoder.reads_u64.iff.mp hw
    obtain ⟨-, rfl⟩ := Decoder.reads_u64.iff.mp hf
    cases h
    subst h4 hend
    exact ⟨not_lt.mp hg, by simp [encodeOwnerValue]⟩
  intro ⟨hf, he⟩
  subst he
  refine ⟨[], (), _, (Decoder.reads_header _).iff.mpr ⟨trivial, rfl⟩, value.worker.raw, _,
    Decoder.reads_u64.iff.mpr ⟨trivial, rfl⟩, value.fence, [],
    Decoder.reads_u64.iff.mpr ⟨trivial, (append_nil _).symm⟩, (), [],
    ⟨not_lt.mpr hf, rfl⟩, (), [], ⟨rfl, rfl⟩, rfl⟩

theorem violation_eq_ok [Decidable c] : violation c kind detail = .ok u ↔ ¬ c := by
  unfold violation
  by_cases hc : c <;> simp [hc]

theorem except_check_eq_ok {f : Unit → Except ε β} :
    (x >>= f) = .ok b ↔ x = .ok () ∧ f () = .ok b := by
  rw [checks_eq_ok]
  exact ⟨fun ⟨_, hx, hf⟩ => ⟨hx, hf⟩, fun ⟨hx, hf⟩ => ⟨(), hx, hf⟩⟩

theorem rejectDuplicates_eq_ok [DecidableEq α] {l : List α} :
    rejectDuplicates kind detail l = .ok () ↔ l.Nodup := by
  induction l with
  | nil => exact ⟨fun _ => nodup_nil, fun _ => rfl⟩
  | cons a rest ih =>
    unfold rejectDuplicates
    rw [except_check_eq_ok, violation_eq_ok, ih, nodup_cons]

/-- One step of an op-log check, over the ids, the times and the verdicts of the entries. -/
theorem opLog_cons_iff {id : α → OpId} {time : α → LogicalTime} {Valid : α → Prop}
    {prev : Option LogicalTime} {a l} :
    (((a :: l).map id).Nodup ∧ (prev.toList ++ (a :: l).map time).IsChain (· ≤ ·) ∧
      ∀ e ∈ a :: l, Valid e) ↔ id a ∉ l.map id ∧ ¬ prev.any (time a < ·) = true ∧ Valid a ∧
      (l.map id).Nodup ∧ ((some (time a)).toList ++ l.map time).IsChain (· ≤ ·) ∧
      ∀ e ∈ l, Valid e := by
  have hs : (prev.toList ++ (a :: l).map time).IsChain (· ≤ ·) ↔ ¬ prev.any (time a < ·) = true ∧
      ((some (time a)).toList ++ l.map time).IsChain (· ≤ ·) := by
    cases prev <;> simp
  rw [hs, map_cons, nodup_cons, forall_mem_cons]
  tauto

theorem pushLoop_eq {loop : List α → List β → Run ε (List β)} {into : α → Run ε β} {encode : β → α}
    (hn : ∀ log, loop [] log = .ok log)
    (hc : ∀ a l log, loop (a :: l) log = into a >>= fun b => loop l (pushOverwrite cap log b))
    (log) (hv : ∀ a ∈ entries, ∃ b, into a = .ok b ∧ encode b = a)
    (hl : log.length + entries.length ≤ cap) :
    ∃ items, loop entries log = .ok (log ++ items) ∧ items.map encode = entries := by
  induction entries generalizing log with
  | nil => exact ⟨[], by rw [hn, append_nil], rfl⟩
  | cons a rest ih =>
    obtain ⟨⟨b, hb, he⟩, hr⟩ := forall_mem_cons.mp hv
    rw [length_cons] at hl
    obtain ⟨items, hi, hm⟩ := ih (log ++ [b]) hr (by rw [length_append, length_singleton]; omega)
    refine ⟨b :: items, ?_, by rw [map_cons, he, hm]⟩
    rw [hc, hb, Outcome.ok_bind, pushOverwrite, if_pos (by omega), hi, append_assoc]
    rfl

end GossipRs.Etcd
