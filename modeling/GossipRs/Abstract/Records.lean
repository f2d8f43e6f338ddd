import GossipRs.Abstract.Effects
import GossipRs.Contracts.SplitCoverage

/-! What becomes of one shard under the changes of a view. It is never removed, and only a change
labelled with it touches its record. -/

namespace GossipRs

open Lib Stdx List

namespace View

variable {env : Env} {tenant : TenantId} {key : ShardKey} {label : Label} {t t' : View}
  {r r' : RecordView}

inductive Origin (env : Env) (t : View) (tenant : TenantId) (key : ShardKey) :
    Label → RecordView → Prop where
  | kept {label : Label} {r : RecordView} (hget : t.getShard tenant key = some r)
      (hother : ∀ event, label ≠ .shard tenant key event) : Origin env t tenant key label r
  | stepped {event : ShardEvent} {r r' : RecordView} (hget : t.getShard tenant key = some r)
      (hstep : RecordStep env tenant key r event r') :
      Origin env t tenant key (.shard tenant key event) r'
  | root {now : LogicalTime} {run : RunId} {shards : List InitialShardInput} {opId : OpId}
      {record : RunRecord} {input : InitialShardInput}
      (hrun : t.runs.lookup (tenant, run) = some record) (hmanifest : ManifestValid shards)
      (hmem : input ∈ shards)
      (hinv : (input.root tenant run record.config.cursorSemantics).2.Invariant)
      (hkey : key = (input.root tenant run record.config.cursorSemantics).1)
      (hnew : t.getShard tenant key = none) :
      Origin env t tenant key (.run tenant run (.registered now shards opId))
        (input.root tenant run record.config.cursorSemantics).2
  | child {parentKey : ShardKey} {event : ShardEvent} {r r' : RecordView}
      {new : ShardId × SplitReplaceChild} (hget : t.getShard tenant parentKey = some r)
      (hstep : RecordStep env tenant parentKey r event r') (hmem : new ∈ event.children env r)
      (hinv : (r.child tenant new).2.Invariant) (hkey : key = (r.child tenant new).1)
      (hne : key ≠ parentKey) (hnew : t.getShard tenant key = none) :
      Origin env t tenant key (.shard tenant parentKey event) (r.child tenant new).2

/-- **Origin.** Every record after a change was there before, was changed in place, or was born as a
root or a child. -/
theorem Effect.origin (h : Effect env t label t') (hg : t'.getShard tenant key = some r) :
    Origin env t tenant key label r := by
  cases h with
  | quiet | created hnew hinv | finished hkind hrun htenant hrunning hlog =>
    exact .kept hg (fun _ he => by cases he)
  | @inPlace tenant1 key1 event r1 r1' cooldowns hget1 hstep hchildren =>
    have hse : (t.setShard tenant1 key1 r1').getShard tenant key = some r := hg
    rw [Tables.getShard_setShard] at hse
    by_cases hs : tenant = tenant1 ∧ key = key1
    · obtain ⟨rfl, rfl⟩ := hs
      rw [if_pos ⟨rfl, rfl⟩] at hse
      cases hse
      exact .stepped hget1 hstep
    rw [if_neg hs] at hse
    exact .kept hse fun event' he => by
      cases he
      exact hs ⟨rfl, rfl⟩
  | @registered now tenant1 run shards opId record record' hrun htenant hinit hmanifest hlimits hnew
      hinv hlog =>
    have hp : ((t.putShards tenant1 (shards.map (InitialShardInput.root tenant1 run
        record.config.cursorSemantics))).indexShards tenant1 run
          (shards.map InitialShardInput.shard)).getShard tenant key = some r := hg
    rw [Tables.getShard_indexShards, hnew.getShard_putShards] at hp
    rcases hp with ⟨rfl, hm⟩ | hp
    · obtain ⟨input, hin, he⟩ := mem_map.mp hm
      have hn := hnew.getShard_eq_none _ hm
      cases he
      exact .root hrun hmanifest hin (hinv input hin) rfl hn
    · exact .kept hp (fun _ he => by cases he)
  | @split tenant1 key1 event r1 r1' _ hget1 hstep hsp =>
    rw [hsp.result, Tables.getShard_putShard, Tables.getShard_indexShards] at hg
    by_cases hs : tenant = tenant1 ∧ key = key1
    · obtain ⟨rfl, rfl⟩ := hs
      rw [if_pos ⟨rfl, rfl⟩] at hg
      cases hg
      exact .stepped hget1 hstep
    rw [if_neg hs, hsp.new.getShard_putShards] at hg
    rcases hg with ⟨rfl, hm⟩ | hg
    · obtain ⟨new, hin, he⟩ := mem_map.mp hm
      have hn := hsp.new.getShard_eq_none _ hm
      cases he
      have hne : (r1.child tenant new).1 ≠ key1 := fun he => hs ⟨rfl, he⟩
      rw [Tables.getShard_dropShard, if_neg hs] at hn
      exact .child hget1 hstep hin (hsp.invariant new hin) rfl hne hn
    rw [Tables.getShard_dropShard, if_neg hs] at hg
    exact .kept hg fun event' he => by
      cases he
      exact hs ⟨rfl, rfl⟩

theorem Effect.isSome (h : Effect env t label t') (hg : (t.getShard tenant key).isSome) :
    (t'.getShard tenant key).isSome := by
  cases h with
  | quiet | created hnew hinv | finished hkind hrun htenant hrunning hlog => exact hg
  | @inPlace tenant1 key1 event r1 r1' cooldowns hget1 hstep hchildren =>
    show ((t.setShard tenant1 key1 r1').getShard tenant key).isSome
    rw [Tables.getShard_setShard]
    split
    · rfl
    · exact hg
  | @registered now tenant1 run shards opId record record' hrun htenant hinit hmanifest hlimits hnew
      hinv hlog =>
    show (((t.putShards tenant1 (shards.map (InitialShardInput.root tenant1 run
      record.config.cursorSemantics))).indexShards tenant1 run
        (shards.map InitialShardInput.shard)).getShard tenant key).isSome
    rw [Tables.getShard_indexShards]
    exact Tables.isSome_putShards hg
  | @split tenant1 key1 event r1 r1' _ hget1 hstep hsplit =>
    rw [hsplit.result, Tables.getShard_putShard, Tables.getShard_indexShards]
    by_cases hs : tenant = tenant1 ∧ key = key1
    · rw [if_pos hs]
      rfl
    rw [if_neg hs]
    refine Tables.isSome_putShards ?_
    rw [Tables.getShard_dropShard, if_neg hs]
    exact hg

/-- **Succession.** A stored record stays as it is, or makes the step a change is labelled
with. -/
theorem Effect.successor (h : Effect env t label t') (hg : t.getShard tenant key = some r) :
    ∃ r', t'.getShard tenant key = some r' ∧ ((r' = r ∧ ∀ event, label ≠ .shard tenant key event) ∨
        ∃ event, label = .shard tenant key event ∧ RecordStep env tenant key r event r') := by
  obtain ⟨r', hg'⟩ := Option.isSome_iff_exists.mp (h.isSome (by rw [hg]; rfl))
  refine ⟨r', hg', ?_⟩
  cases h.origin hg' with
  | kept hk ho =>
    rw [hg] at hk
    cases hk
    exact .inl ⟨rfl, ho⟩
  | stepped hb hs =>
    rw [hg] at hb
    cases hb
    exact .inr ⟨_, rfl, hs⟩
  | root hrun hmanifest hmem hinv hkey hn | child hparent hs hmem hinv hkey hne hn =>
    rw [hg] at hn
    cases hn

theorem Trace.records {P : TenantId → ShardKey → RecordView → Prop}
    (hr : ∀ tenant run semantics shards input, ManifestValid shards → input ∈ shards →
      (InitialShardInput.root tenant run semantics input).2.Invariant →
      P tenant (input.root tenant run semantics).1 (input.root tenant run semantics).2)
    (hc : ∀ tenant key r event r' new, P tenant key r → RecordStep env tenant key r event r' →
      new ∈ event.children env r → (RecordView.child tenant r new).2.Invariant →
      P tenant (r.child tenant new).1 (r.child tenant new).2)
    (hs : ∀ tenant key r event r', P tenant key r → RecordStep env tenant key r event r' →
      P tenant key r') (h : View.Trace env trace t) (hg : t.getShard tenant key = some r) :
    P tenant key r := by
  refine Trace.invariant (P := fun t => ∀ tenant key r, t.getShard tenant key = some r →
    P tenant key r) (fun config tenant key r hn => by cases hn) ?_ h tenant key r hg
  intro t label t' ha he tenant key r hg
  cases he.origin hg with
  | kept hbefore hother => exact ha _ _ _ hbefore
  | stepped hbefore hrecord => exact hs _ _ _ _ _ (ha _ _ _ hbefore) hrecord
  | root hrun hmanifest hmem hinv hkey hnew =>
    rw [hkey]
    exact hr _ _ _ _ _ hmanifest hmem hinv
  | child hbefore hrecord hmem hinv hkey hne hnew =>
    rw [hkey]
    exact hc _ _ _ _ _ _ (ha _ _ _ hbefore) hrecord hmem hinv

end View

theorem RecordStep.invariant (h : RecordStep env tenant key r event r') (hr : r.Invariant) :
    r'.Invariant := by
  cases h with
  | granted hd htenant hactive hfree hfence =>
    refine { hr with
      terminal_unleased := fun ht => ?_
      fence_pos := ?_ }
    · rw [isTerminal_eq_false.mpr hactive] at ht
      cases ht
    have ho : (1 : UInt64).toNat = 1 := rfl
    simp only [FenceEpoch.initial, UInt64.le_iff_toNat_le, UInt64.toNat_add, ho] at *
    omega
  | renewed hd hlease =>
    refine { hr with terminal_unleased := fun ht => ?_ }
    rw [isTerminal_eq_false.mpr hlease.active] at ht
    cases ht
  | checkpointed hlease hcursor hlog | completed hlease hcursor hlog | parked hlease hlog
  | unparked htenant hparked hfence hlog
  | splitReplaced hready hlog | splitResidual hready hscan hlog => exact hlog.invariant

structure CursorValue.WellFormed (cursor : CursorValue) : Prop where
  key_ne_nil : ∀ key ∈ cursor.lastKey, key ≠ []
  token_ne_nil : ∀ token ∈ cursor.token, token ≠ []
  key_of_token : cursor.token.isSome → cursor.lastKey.isSome

theorem CursorUpdate.wellFormed (update : CursorUpdate) : update.value.WellFormed :=
  ⟨update.key_ne_nil, update.token_ne_nil, update.key_of_token⟩

/-- Every stored record passes its checks, is stored under its own key, and its spec and cursor went
through their constructors. -/
structure RecordView.WellMade (tenant : TenantId) (key : ShardKey) (r : RecordView) : Prop where
  invariant : r.Invariant
  tenant_eq : r.tenant = tenant
  key_eq : (⟨r.run, r.shard⟩ : ShardKey) = key
  spec_valid : r.spec.Valid
  cursor_wellFormed : r.cursor.WellFormed

theorem RecordStep.children_valid (h : RecordStep env tenant key r event r') :
    ∀ new ∈ event.children env r, new.2.spec.Valid := by
  intro new hm
  cases h with
  | splitReplaced hready hlog =>
    obtain ⟨_, _, -, hc⟩ := hready.chain
    exact hc.valid _ (mem_map_of_mem (of_mem_zip hm).2)
  | splitResidual hready hscan hlog =>
    rw [mem_singleton.mp hm]
    exact hready.residual_valid
  | granted | renewed | checkpointed | completed | parked | unparked => cases hm

theorem RecordStep.wellMade (h : RecordStep env tenant key r event r')
    (hr : r.WellMade tenant key) : r'.WellMade tenant key := by
  have hinv := h.invariant hr.invariant
  cases h with
  | granted | renewed => exact { hr with invariant := hinv }
  | checkpointed hlease hcursor hlog | completed hlease hcursor hlog =>
    obtain ⟨entry, rfl⟩ := hlog.eq
    exact { hr with invariant := hinv, cursor_wellFormed := CursorUpdate.wellFormed _ }
  | parked hlease hlog | unparked htenant hparked hfence hlog | splitReplaced hready hlog =>
    obtain ⟨entry, rfl⟩ := hlog.eq
    exact { hr with invariant := hinv }
  | splitResidual hready hscan hlog =>
    obtain ⟨entry, rfl⟩ := hlog.eq
    exact { hr with invariant := hinv, spec_valid := hready.parent_valid }

theorem View.Trace.wellMade (h : View.Trace env trace t) (hg : t.getShard tenant key = some r) :
    r.WellMade tenant key := by
  refine Trace.records (P := fun tenant key r => r.WellMade tenant key)
    (fun tenant run semantics shards input hm hme hinv => ?_)
    (fun tenant key r event r' new hr hs hme hinv => ?_)
    (fun tenant key r event r' hr hs => hs.wellMade hr) h hg
  · exact ⟨hinv, rfl, rfl, hm.spec_valid input hme, CursorUpdate.wellFormed _⟩
  · exact ⟨hinv, rfl, rfl, hs.children_valid new hme, CursorUpdate.wellFormed _⟩

end GossipRs
