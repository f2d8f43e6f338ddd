import GossipRs.Persistence.LedgerStore
import GossipRs.Persistence.FindingsStore

/-! The result committer (`result_committer.rs`, with the stages of `page_commit.rs`) over the
in-memory sinks: an item's findings are made durable before its ledger row. -/

namespace GossipRs.Runtime

open Lib Persistence List

inductive ResultCommitRequestError where
  | doneLedgerRecordCount (actual : Nat)
  | findingsBatch (err : PersistenceInputError)
  | doneLedgerRecord (err : PersistenceInputError)
  | tenantMismatch (layer : String) (expected actual : TenantId)
  | observationWriteContextMismatch (index : Nat)
  | observationOvidMismatch (index : Nat) (expected actual : OvidHash)
  | doneLedgerWriteContextMismatch (expected actual : WriteContext)
  | findingsPresentForUnscannedStatus (status : DoneLedgerStatus)
  | findingsCountMismatch (expected actual : Nat)
  | findingWithoutOccurrence (index : Nat)
  | occurrenceWithoutObservation (index : Nat)
  | distinctFindingsOverflow (count : Nat)
deriving DecidableEq

inductive CommitAdvanceError where
  | wait (err : InMemoryPersistenceError)
  | validation (err : PageCommitValidationError)

inductive ResultCommitError where
  | invalidRequest (err : ResultCommitRequestError)
  | findingsSubmit (err : InMemoryPersistenceError)
  | findingsWait (err : InMemoryPersistenceError)
  | doneLedgerSubmit (err : InMemoryPersistenceError)
  | doneLedgerAdvance (err : CommitAdvanceError)
  | boundaryMismatch (unit receipt : CheckpointBoundary)

structure CommitRequest where
  writeContext : WriteContext
  completedUnit : CompletedUnit
  findings : FindingsUpsertBatch
  doneLedger : List DoneLedgerRecord

def observationWriteContext (o : ObservationRecord) : WriteContext :=
  ⟨o.tenantId, o.policyHash, o.runId, o.shardId, o.fenceEpoch⟩

def doneLedgerWriteContext (r : DoneLedgerRecord) : WriteContext :=
  ⟨r.key.tenantId, r.key.policyHash, r.provenance.runId, r.provenance.shardId,
    r.provenance.fenceEpoch⟩

variable (H : IdentityHash)

/-! ### Validation -/

def findingIdsWithOccurrences (findings : FindingsUpsertBatch) : Finset FindingId :=
  (findings.occurrences.map (·.findingId)).toFinset

def occurrenceIdsWithObservations (findings : FindingsUpsertBatch) : Finset OccurrenceId :=
  (findings.observations.map (·.occurrenceId)).toFinset

def validateScannedChainAndCount (findings : FindingsUpsertBatch) :
    Except ResultCommitRequestError Nat := do
  checkEach (fun index f =>
    failIf (f.findingId H ∉ findingIdsWithOccurrences findings)
      (.findingWithoutOccurrence index)) 0 findings.findings
  checkEach (fun index o =>
    failIf (o.occurrenceId H ∉ occurrenceIdsWithObservations findings)
      (.occurrenceWithoutObservation index)) 0 findings.occurrences
  let count := (findingIdsWithOccurrences findings).card
  failIf (2 ^ 32 ≤ count) (.distinctFindingsOverflow count)
  return count

def checkFirstTenant (layer : String) (expected : TenantId) (first : Option TenantId) :
    Except ResultCommitRequestError Unit :=
  match first with
  | none => .ok ()
  | some actual => failIf (actual ≠ expected) (.tenantMismatch layer expected actual)

def validateScope (request : CommitRequest) (record : DoneLedgerRecord) :
    Except ResultCommitRequestError Unit := do
  checkFirstTenant "finding" request.writeContext.tenantId
    (request.findings.findings.head?.map (·.tenantId))
  checkFirstTenant "occurrence" request.writeContext.tenantId
    (request.findings.occurrences.head?.map (·.tenantId))
  checkEach (fun index o => do
    failIf (observationWriteContext o ≠ request.writeContext)
      (.observationWriteContextMismatch index)
    failIf (o.ovidHash ≠ record.key.ovidHash)
      (.observationOvidMismatch index record.key.ovidHash o.ovidHash)) 0
    request.findings.observations
  failIf (doneLedgerWriteContext record ≠ request.writeContext)
    (.doneLedgerWriteContextMismatch request.writeContext (doneLedgerWriteContext record))

def validateCount (request : CommitRequest) (record : DoneLedgerRecord) :
    Except ResultCommitRequestError Unit :=
  if record.status.isScanned then do
    let distinct ← validateScannedChainAndCount H request.findings
    failIf (record.findingsCount ≠ distinct) (.findingsCountMismatch record.findingsCount distinct)
  else failIf (request.findings.isEmpty = false) (.findingsPresentForUnscannedStatus record.status)

def validateRequest (request : CommitRequest) : Except ResultCommitRequestError Unit :=
  match request.doneLedger with
  | [record] => do
    record.validate.mapError .doneLedgerRecord
    (request.findings.validateReferentialIntegrity H).mapError .findingsBatch
    validateScope request record
    validateCount H request record
  | records => .error (.doneLedgerRecordCount records.length)

/-! ### Committing -/

structure ResultCommitter where
  findingsSink : InMemoryFindingsSink
  doneLedger : InMemoryDoneLedger

def UnitCommitReceipt.new (completedUnit : CompletedUnit) (durable : ItemCommitReceipt) :
    Except ResultCommitError UnitCommitReceipt :=
  if h : completedUnit.checkpointBoundary = durable.scope.checkpointBoundary then
    .ok ⟨completedUnit, durable, h⟩
  else
    .error (.boundaryMismatch completedUnit.checkpointBoundary durable.scope.checkpointBoundary)

def unitScope (request : CommitRequest) : CommitScope :=
  ⟨request.writeContext, 1, request.completedUnit.checkpointBoundary, Nat.one_pos⟩

def finishItem (request : CommitRequest) (findings : FindingsCommitReceipt)
    (result : Except InMemoryPersistenceError DoneLedgerCommitReceipt) :
    Except ResultCommitError UnitCommitReceipt := do
  let receipt ← result.mapError fun err => .doneLedgerAdvance (.wait err)
  match recordDoneLedger (unitScope request) findings receipt with
  | .ok item => UnitCommitReceipt.new request.completedUnit item
  | .err err => .error (.doneLedgerAdvance (.validation err))
  | .panic p => p.elim

/-- `commit_item`. A wait on a delayed write blocks. -/
def ResultCommitter.commitItem (order : HashOrder) (c : ResultCommitter) (request : CommitRequest) :
    Option (Except ResultCommitError UnitCommitReceipt × ResultCommitter) :=
  match validateRequest H request with
  | .error err => some (.error (.invalidRequest err), c)
  | .ok () =>
    let submitted := InMemoryFindingsSink.upsertBatch H c.findingsSink request.findings
    match submitted.1 with
    | .error err => some (.error (.findingsSubmit err), { c with findingsSink := submitted.2.1 })
    | .ok handle =>
      (submitted.2.1.wait (findingsBackend H) handle).bind fun waited =>
        let c := { c with findingsSink := waited.2 }
        match waited.1 with
        | .error err => some (.error (.findingsWait err), c)
        | .ok findings =>
          let submitted := c.doneLedger.submit (doneLedgerBackend order) request.doneLedger
          match submitted.1 with
          | .error err =>
            some (.error (.doneLedgerSubmit err), { c with doneLedger := submitted.2.1 })
          | .ok handle =>
            (submitted.2.1.wait (doneLedgerBackend order) handle).map fun waited =>
              (finishItem request findings waited.1, { c with doneLedger := waited.2 })

/-! ### What a valid request says -/

variable {H}

structure ValidRequest (H : IdentityHash) (request : CommitRequest) (record : DoneLedgerRecord) :
    Prop where
  ledger : request.doneLedger = [record]
  valid : record.Valid
  findingTenant : ∀ f ∈ request.findings.findings, f.tenantId = record.key.tenantId
  occurrenceTenant : ∀ o ∈ request.findings.occurrences, o.tenantId = record.key.tenantId
  parent : ∀ o ∈ request.findings.occurrences,
    ∃ f ∈ request.findings.findings, f.findingId H = o.findingId
  observation : ∀ o ∈ request.findings.observations, o.tenantId = record.key.tenantId ∧
    o.policyHash = record.key.policyHash ∧ o.ovidHash = record.key.ovidHash
  evidence : record.status.isScanned → ∀ o ∈ request.findings.occurrences,
    ∃ obs ∈ request.findings.observations, obs.occurrenceId = o.occurrenceId H
  count : record.status.isScanned →
    record.findingsCount = (findingIdsWithOccurrences request.findings).card

theorem tenants_of_consistent {batch : FindingsUpsertBatch}
    (h : batch.validateTenantConsistency = .ok u) (hf : batch.findings.head? = some f) :
    (∀ g ∈ batch.findings, g.tenantId = f.tenantId) ∧
      ∀ o ∈ batch.occurrences, o.tenantId = f.tenantId := by
  have he : batch.expectedTenant = some f.tenantId := by
    rw [FindingsUpsertBatch.expectedTenant, hf]
    rfl
  rw [FindingsUpsertBatch.validateTenantConsistency, he] at h
  have ha := not_not.mp (failIf_eq_ok.mp h)
  exact ⟨ha.1, ha.2.1⟩

theorem checkFirstTenant_eq_ok (h : checkFirstTenant layer expected first = .ok u) :
    ∀ actual, first = some actual → actual = expected := by
  rintro actual rfl
  exact not_not.mp (failIf_eq_ok.mp h)

variable {request : CommitRequest}

theorem validateRequest_spec (h : validateRequest H request = .ok ()) :
    ∃ record, ValidRequest H request record := by
  rw [validateRequest] at h
  split at h
  next record hl =>
    obtain ⟨_, hv, h⟩ := checks_eq_ok.mp h
    obtain ⟨_, hin, h⟩ := checks_eq_ok.mp h
    obtain ⟨_, hsc, hco⟩ := checks_eq_ok.mp h
    rw [mapError_eq_ok] at hv hin
    obtain ⟨_, hte, hin⟩ := checks_eq_ok.mp hin
    obtain ⟨_, hp, -⟩ := checks_eq_ok.mp hin
    have hp := not_not.mp (failIf_eq_ok.mp hp)
    obtain ⟨_, hfi, hsc⟩ := checks_eq_ok.mp hsc
    obtain ⟨_, -, hsc⟩ := checks_eq_ok.mp hsc
    obtain ⟨_, hob, hc⟩ := checks_eq_ok.mp hsc
    have hc : doneLedgerWriteContext record = request.writeContext :=
      not_not.mp (failIf_eq_ok.mp hc)
    have hk : record.key.tenantId = request.writeContext.tenantId :=
      congrArg WriteContext.tenantId hc
    have hpo : record.key.policyHash = request.writeContext.policyHash :=
      congrArg WriteContext.policyHash hc
    -- the tenant of every finding and occurrence is that of the first finding
    have ht : (∀ f ∈ request.findings.findings, f.tenantId = record.key.tenantId) ∧
        ∀ o ∈ request.findings.occurrences, o.tenantId = record.key.tenantId := by
      cases hh : request.findings.findings.head? with
      | none =>
        have hn : request.findings.findings = [] := List.head?_eq_none_iff.mp hh
        constructor
        · intro f hf
          rw [hn] at hf
          cases hf
        intro o ho
        obtain ⟨f, hf, -⟩ := hp o ho
        rw [hn] at hf
        cases hf
      | some f =>
        have hf : f.tenantId = record.key.tenantId := by
          rw [hk]
          exact checkFirstTenant_eq_ok hfi f.tenantId (by rw [hh]; rfl)
        have hsa := tenants_of_consistent hte hh
        rw [hf] at hsa
        exact hsa
    have hsca : record.status.isScanned → (∀ o ∈ request.findings.occurrences,
          ∃ obs ∈ request.findings.observations, obs.occurrenceId = o.occurrenceId H) ∧
        record.findingsCount = (findingIdsWithOccurrences request.findings).card := by
      intro hst
      rw [validateCount, if_pos hst] at hco
      obtain ⟨_, hd, hco⟩ := checks_eq_ok.mp hco
      obtain ⟨_, -, hd⟩ := checks_eq_ok.mp hd
      obtain ⟨_, he, hd⟩ := checks_eq_ok.mp hd
      obtain ⟨_, -, hd⟩ := checks_eq_ok.mp hd
      cases hd
      refine ⟨fun o ho => ?_, not_not.mp (failIf_eq_ok.mp hco)⟩
      obtain ⟨index, hm⟩ := checkEach_eq_ok he o ho
      have hm := not_not.mp (failIf_eq_ok.mp hm)
      rw [occurrenceIdsWithObservations, mem_toFinset] at hm
      obtain ⟨obs, hobs, heq⟩ := mem_map.mp hm
      exact ⟨obs, hobs, heq⟩
    refine ⟨record, ⟨hl, hv, ht.1, ht.2, hp, fun o ho => ?_,
      fun hs => (hsca hs).1, fun hs => (hsca hs).2⟩⟩
    obtain ⟨index, hch⟩ := checkEach_eq_ok hob o ho
    obtain ⟨_, hw, hov⟩ := checks_eq_ok.mp hch
    have hw : observationWriteContext o = request.writeContext :=
      not_not.mp (failIf_eq_ok.mp hw)
    refine ⟨?_, ?_, not_not.mp (failIf_eq_ok.mp hov)⟩
    · rw [hk, ← hw]
      rfl
    · rw [hpo, ← hw]
      rfl
  · cases h

/-! ### The backing of a row -/

def Evidence (H : IdentityHash) (d : FindingsDurable) (key : DoneLedgerKey) (id : FindingId) :
    Prop :=
  ∃ f o obs, d.findings.lookup (key.tenantId, id) = some f ∧ f.findingId H = id ∧
    d.occurrences.lookup (key.tenantId, o.occurrenceId H) = some o ∧ o.findingId = id ∧
    d.observations.lookup (key.tenantId, obs.observationId H) = some obs ∧
    obs.occurrenceId = o.occurrenceId H ∧ obs.ovidHash = key.ovidHash ∧
    obs.policyHash = key.policyHash

def Backed (H : IdentityHash) (d : FindingsDurable) (key : DoneLedgerKey) (n : Nat) : Prop :=
  ∃ ids : Finset FindingId, n ≤ ids.card ∧ ∀ id ∈ ids, Evidence H d key id

theorem observationId_of_same (h : SameIdentity a b) : a.observationId H = b.observationId H := by
  rw [ObservationRecord.observationId, ObservationRecord.observationId, h.tenantId, h.policyHash,
    h.occurrenceId]

variable {d : FindingsDurable}

theorem Evidence.extends {id} (he : Extends d d') (h : Evidence H d key id) :
    Evidence H d' key id := by
  obtain ⟨f, o, obs, hf, hid, ho, hof, hob, hoi, hov, hp⟩ := h
  obtain ⟨stored, hst, hs, -⟩ := he.observations _ obs hob
  refine ⟨f, o, stored, he.findings _ f hf, hid, he.occurrences _ o ho, hof, ?_,
    hs.occurrenceId.symm.trans hoi, hs.ovidHash.symm.trans hov,
    hs.policyHash.symm.trans hp⟩
  rw [← observationId_of_same hs]
  exact hst

theorem Backed.extends (he : Extends d d') (h : Backed H d key n) : Backed H d' key n := by
  obtain ⟨ids, hc, ha⟩ := h
  exact ⟨ids, hc, fun id hid => (ha id hid).extends he⟩

variable {record : DoneLedgerRecord}

theorem backed_of_holds (hv : ValidRequest H request record)
    (hh : Holds H request.findings d) (hst : record.status.isScanned) :
    Backed H d record.key record.findingsCount := by
  refine ⟨findingIdsWithOccurrences request.findings, (hv.count hst).le, fun id hid => ?_⟩
  rw [findingIdsWithOccurrences, mem_toFinset] at hid
  obtain ⟨o, ho, rfl⟩ := mem_map.mp hid
  obtain ⟨f, hf, hfi⟩ := hv.parent o ho
  obtain ⟨obs, hob, hoc⟩ := hv.evidence hst o ho
  obtain ⟨ht, hp, hov⟩ := hv.observation obs hob
  obtain ⟨stored, hsto, hs, -⟩ := hh.observations obs hob
  have hl := hh.findings f hf
  rw [FindingRecord.key, hv.findingTenant f hf, hfi] at hl
  have hl' := hh.occurrences o ho
  rw [OccurrenceRecord.key, hv.occurrenceTenant o ho] at hl'
  rw [ObservationRecord.key, ht, observationId_of_same hs] at hsto
  exact ⟨f, o, stored, hl, hfi, hl', rfl, hsto,
    hs.occurrenceId.symm.trans hoc, hs.ovidHash.symm.trans hov,
    hs.policyHash.symm.trans hp⟩

theorem swf_join {a b : DoneLedgerRecord} (ha : a.Valid) (hb : b.Valid)
    (h : (a.join b).status = .scannedWithFindings) :
    (a.status = .scannedWithFindings ∧ (a.join b).findingsCount = a.findingsCount) ∨
      (b.status = .scannedWithFindings ∧ (a.join b).findingsCount = b.findingsCount) := by
  have hc := DoneLedgerRecord.findingsCount_join ha hb
  rw [h, DoneLedgerRecord.mergedFindingsCount] at hc
  rw [DoneLedgerRecord.status_join] at h
  have hs : a.status = .scannedWithFindings ∨ b.status = .scannedWithFindings := by
    rw [DoneLedgerStatus.merge] at h
    split at h
    · exact .inl h
    · exact .inr h
  have hap := (DoneLedgerRecord.valid_iff.mp ha).2.1
  have hbp := (DoneLedgerRecord.valid_iff.mp hb).2.1
  rw [hc, DoneLedgerRecord.swfFindingsCount, DoneLedgerRecord.swfFindingsCount]
  by_cases has : a.status = .scannedWithFindings <;> by_cases hbs : b.status = .scannedWithFindings
  · have := hap has
    have := hbp hbs
    rw [if_pos has, if_pos hbs]
    rcases le_total a.findingsCount b.findingsCount with hl | hl
    · exact .inr ⟨hbs, by omega⟩
    · exact .inl ⟨has, by omega⟩
  · have := hap has
    rw [if_pos has, if_neg hbs]
    exact .inl ⟨has, by omega⟩
  · have := hbp hbs
    rw [if_neg has, if_pos hbs]
    exact .inr ⟨hbs, by omega⟩
  rcases hs with h | h
  · exact absurd h has
  · exact absurd h hbs

/-! ### Runs -/

def RowsBacked (H : IdentityHash) (d : FindingsDurable) (rows : DoneLedgerRows) : Prop :=
  ∀ key row, rows.lookup key = some row → row.status = .scannedWithFindings →
    Backed H d key row.findingsCount

theorem ofKey_singleton (record) (key) :
    ofKey key [record] = if key = record.key then [record] else [] := by
  split
  · next h => rw [h, ofKey_cons_self, ofKey, filter_nil]
  · next h => rw [ofKey_cons_of_ne h, ofKey, filter_nil]

/-- A backed record keeps the ledger's rows valid and backed, whether or not it is written. -/
theorem ledger_apply_backed (hr : RowsOk rows.lookup) (hb : RowsBacked H d rows)
    (hre : record.status = .scannedWithFindings → Backed H d record.key record.findingsCount)
    (h : DoneLedgerBackend.apply order rows n [record] = (result, rows', n')) :
    RowsOk rows'.lookup ∧ RowsBacked H d rows' ∧
      (result.isOk → rows'.lookup record.key = joinInto (rows.lookup record.key) record) := by
  have hsp := apply_spec order hr h
  cases result with
  | error err =>
    have hsa : rows' = rows := hsp
    rw [hsa]
    refine ⟨hr, hb, fun hok => ?_⟩
    cases hok
  | ok receipt =>
    obtain ⟨hva, hl⟩ := hsp
    have hv := hva record mem_cons_self
    have hse : rows'.lookup record.key = joinInto (rows.lookup record.key) record := by
      rw [hl, ofKey_singleton, if_pos rfl]
      rfl
    have ho : ∀ key, key ≠ record.key → rows'.lookup key = rows.lookup key := by
      intro key hn
      rw [hl, ofKey_singleton, if_neg hn]
      rfl
    refine ⟨fun key => ?_, fun key row hro hst => ?_, fun _ => hse⟩
    · show RowOk key (rows'.lookup key)
      by_cases hk : key = record.key
      · subst hk
        rw [hse]
        exact rowOk_joinInto (hr record.key) hv rfl
      · rw [ho key hk]
        exact hr key
    by_cases hk : key = record.key
    · subst hk
      rw [hse] at hro
      cases hol : rows.lookup record.key with
      | none =>
        rw [hol] at hro
        cases hro
        exact hre hst
      | some existing =>
        rw [hol] at hro
        cases hro
        obtain ⟨he, _⟩ := hr record.key existing hol
        rcases swf_join he hv hst with ⟨hs, hc⟩ | ⟨hs, hc⟩
        · rw [hc]
          exact hb record.key existing hol hs
        · rw [hc]
          exact hre hs
    · rw [ho key hk] at hro
      exact hb key row hro hst

structure CommitterInv (H : IdentityHash) (c : ResultCommitter) : Prop where
  promptFindings : Prompt c.findingsSink
  promptLedger : Prompt c.doneLedger
  rowsOk : RowsOk c.doneLedger.durable.lookup
  backed : RowsBacked H c.findingsSink.durable c.doneLedger.durable

def BothDurable (H : IdentityHash) (c c' : ResultCommitter) (request : CommitRequest) : Prop :=
  Holds H request.findings c'.findingsSink.durable ∧
    ∃ record row, request.doneLedger = [record] ∧
      mergeAll (c.doneLedger.durable.lookup record.key) [record] = .ok (some row) ∧
      c'.doneLedger.durable.lookup record.key = some row

theorem finishItem_ok (h : finishItem request findings result = .ok receipt) : result.isOk := by
  obtain ⟨_, hr, -⟩ := checks_eq_ok.mp h
  rw [mapError_eq_ok] at hr
  rw [hr]
  rfl

variable {c : ResultCommitter}

theorem CommitterInv.withFindings (hc : CommitterInv H c) {sink : InMemoryFindingsSink}
    (hp : Prompt sink) (he : Extends c.findingsSink.durable sink.durable) :
    CommitterInv H { c with findingsSink := sink } :=
  ⟨hp, hc.promptLedger, hc.rowsOk, fun key row hr hs =>
    (hc.backed key row hr hs).extends he⟩

theorem ledger_stage (order : HashOrder) (hc : CommitterInv H c)
    (hv : ValidRequest H request record)
    (hh : Holds H request.findings c.findingsSink.durable) (findings : FindingsCommitReceipt) :
    (∃ err ledger committed,
      c.doneLedger.submit (doneLedgerBackend order) request.doneLedger =
        (.error err, ledger, committed) ∧
      CommitterInv H { c with doneLedger := ledger }) ∨
    ∃ handle ledger committed result ledger',
      c.doneLedger.submit (doneLedgerBackend order) request.doneLedger =
        (.ok handle, ledger, committed) ∧
      ledger.wait (doneLedgerBackend order) handle = some (result, ledger') ∧
      CommitterInv H { c with doneLedger := ledger' } ∧
      (∀ receipt, finishItem request findings result = .ok receipt →
        BothDurable H c { c with doneLedger := ledger' } request) := by
  rcases submit_prompt (B := doneLedgerBackend order) hc.promptLedger request.doneLedger with
    ⟨err, ledger, hs, hd, hp⟩ |
    ⟨handle, ledger, committed, result, n, ledger', hs, ha, hw, hd, hp⟩
  · refine .inl ⟨err, ledger, [], hs, hc.promptFindings, hp, ?_, ?_⟩
    · show RowsOk ledger.durable.lookup
      rw [hd]
      exact hc.rowsOk
    show RowsBacked H c.findingsSink.durable ledger.durable
    rw [hd]
    exact hc.backed
  have hb : record.status = .scannedWithFindings →
      Backed H c.findingsSink.durable record.key record.findingsCount := by
    intro hst
    exact backed_of_holds hv hh (by rw [hst]; rfl)
  rw [hv.ledger] at ha
  obtain ⟨hro, hrb, hok⟩ := ledger_apply_backed hc.rowsOk hc.backed hb ha
  refine .inr ⟨handle, ledger, committed, result, ledger', hs, hw,
    ⟨hc.promptFindings, hp, ?_, ?_⟩, fun receipt hre => ⟨hh, record, ?_⟩⟩
  · show RowsOk ledger'.durable.lookup
    rw [hd]
    exact hro
  · show RowsBacked H c.findingsSink.durable ledger'.durable
    rw [hd]
    exact hrb
  have hrow := hok (finishItem_ok hre)
  have hme : ∀ r ∈ [record], r.Valid ∧ r.key = record.key := by
    intro r hr
    rw [mem_singleton.mp hr]
    exact ⟨hv.valid, rfl⟩
  have hm := mergeAll_eq (hc.rowsOk record.key) hme
  cases hj : joinInto (c.doneLedger.durable.lookup record.key) record with
  | none =>
    cases ho : c.doneLedger.durable.lookup record.key with
    | none | some existing =>
      rw [ho] at hj
      cases hj
  | some row =>
    refine ⟨row, hv.ledger, hm.trans (congrArg _ hj), ?_⟩
    show ledger'.durable.lookup record.key = some row
    rw [hd, hrow, hj]

/-- `commit_item` returns, keeps the invariant, and gives a receipt only for durable writes. -/
theorem commitItem_spec (order : HashOrder) (hc : CommitterInv H c) (request) :
    ∃ result c', c.commitItem H order request = some (result, c') ∧ CommitterInv H c' ∧
      ∀ receipt, result = .ok receipt → BothDurable H c c' request := by
  rw [ResultCommitter.commitItem]
  cases hv : validateRequest H request with
  | error err => exact ⟨_, c, rfl, hc, fun _ h => by cases h⟩
  | ok u =>
    obtain ⟨_, hva⟩ := validateRequest_spec hv
    dsimp only
    rw [InMemoryFindingsSink.upsertBatch]
    cases ht : request.findings.validateTenantConsistency with
    | error err => exact ⟨_, c, rfl, hc, fun _ h => by cases h⟩
    | ok u =>
      dsimp only
      rcases submit_prompt (B := findingsBackend H) hc.promptFindings request.findings with
        ⟨err, sink, hs, hd, hp⟩ |
        ⟨handle, sink, committed, result, n, sink', hs, ha, hw, hd, hp⟩
      · rw [hs]
        exact ⟨_, _, rfl, hc.withFindings hp (hd ▸ .refl _), fun _ h => by cases h⟩
      rw [hs]
      dsimp only
      rw [hw, Option.bind_some]
      obtain ⟨he, hh⟩ := applyFindingsPayload_spec ha
      rw [← hd] at he hh
      have hc' := hc.withFindings hp he
      cases result with
      | error err => exact ⟨_, _, rfl, hc', fun _ h => by cases h⟩
      | ok findings =>
        dsimp only
        rcases ledger_stage order hc' hva (hh rfl) findings with
          ⟨err, ledger, committed, hs, hinv⟩ |
          ⟨handle, ledger, committed, result, ledger', hs, hw, hinv, hd⟩
        · rw [hs]
          exact ⟨_, _, rfl, hinv, fun _ h => by cases h⟩
        rw [hs]
        dsimp only
        rw [hw, Option.map_some]
        exact ⟨_, _, rfl, hinv, hd⟩

inductive CommitterCall where
  | commitItem (request : CommitRequest)
  | failFindingsSubmissions (count : Nat)
  | failFindingsCommits (count : Nat)
  | failLedgerSubmissions (count : Nat)
  | failLedgerCommits (count : Nat)

def committerStep (H : IdentityHash) (order : HashOrder) (c : ResultCommitter) :
    CommitterCall → Option ResultCommitter
  | .commitItem request => (c.commitItem H order request).map (·.2)
  | .failFindingsSubmissions count =>
    (storeStep (findingsBackend H) c.findingsSink (.failNextSubmissions count)).map fun r =>
      { c with findingsSink := r.1 }
  | .failFindingsCommits count =>
    (storeStep (findingsBackend H) c.findingsSink (.failNextCommits count)).map fun r =>
      { c with findingsSink := r.1 }
  | .failLedgerSubmissions count =>
    (storeStep (doneLedgerBackend order) c.doneLedger (.failNextSubmissions count)).map fun r =>
      { c with doneLedger := r.1 }
  | .failLedgerCommits count =>
    (storeStep (doneLedgerBackend order) c.doneLedger (.failNextCommits count)).map fun r =>
      { c with doneLedger := r.1 }

def ResultCommitter.new : ResultCommitter :=
  ⟨.withAutoComplete .empty true, .withAutoComplete ∅ true⟩

inductive CommitterReachable (H : IdentityHash) (order : HashOrder) : ResultCommitter → Prop
  | new : CommitterReachable H order .new
  | step {c c' : ResultCommitter} (call : CommitterCall) : CommitterReachable H order c →
      committerStep H order c call = some c' → CommitterReachable H order c'

theorem committerInv_new : CommitterInv H .new where
  promptFindings := ⟨rfl, rfl⟩
  promptLedger := ⟨rfl, rfl⟩
  rowsOk := fun key => rowOk_none key
  backed := fun _ _ h => by cases h

theorem committerInv_step (hc : CommitterInv H c) (h : committerStep H order c call = some c') :
    CommitterInv H c' := by
  cases call with
  | commitItem request =>
    obtain ⟨_, _, hco, hinv, -⟩ := commitItem_spec order hc request
    rw [committerStep, hco] at h
    cases h
    exact hinv
  | failFindingsSubmissions count | failFindingsCommits count =>
    cases h
    exact ⟨⟨hc.promptFindings.auto, hc.promptFindings.delay⟩, hc.promptLedger, hc.rowsOk, hc.backed⟩
  | failLedgerSubmissions count | failLedgerCommits count =>
    cases h
    exact ⟨hc.promptFindings, ⟨hc.promptLedger.auto, hc.promptLedger.delay⟩, hc.rowsOk, hc.backed⟩

theorem committerInv_of_reachable (h : CommitterReachable H order c) : CommitterInv H c := by
  induction h with
  | new => exact committerInv_new
  | step call _ hstep ih => exact committerInv_step ih hstep

/-- In every reachable state each ledger row with findings is backed by that many distinct durable
findings with their evidence; every call returns, with a receipt only if both its writes are
durable. -/
theorem commit_ordering (H : IdentityHash) (order : HashOrder) (c : ResultCommitter)
    (hc : CommitterReachable H order c) :
    (∀ key row, c.doneLedger.durable.lookup key = some row → row.status = .scannedWithFindings →
      Backed H c.findingsSink.durable key row.findingsCount) ∧
    ∀ request, ∃ result c', c.commitItem H order request = some (result, c') ∧
      ∀ receipt, result = .ok receipt → BothDurable H c c' request := by
  have hinv := committerInv_of_reachable hc
  refine ⟨hinv.backed, fun request => ?_⟩
  obtain ⟨result, c', hcommit, -, hdurable⟩ := commitItem_spec order hinv request
  exact ⟨result, c', hcommit, hdurable⟩

def sampleRequest : CommitRequest where
  writeContext := ⟨⟨0⟩, 0, ⟨1⟩, ⟨1⟩, 1⟩
  completedUnit := ⟨1, .orderedContent ⟨some [1], none⟩⟩
  findings :=
    ⟨[⟨⟨0⟩, 0, 0, 0⟩], [⟨⟨0⟩, 0, 0, 10, 5, by decide⟩], [sampleObservation 1 1 none]⟩
  doneLedger := [sampleRecord .scannedWithFindings 1 none]

/-- The ledger refuses the first commit after the findings were written; the second goes through. -/
theorem commit_ordering_retry :
    ∃ c : ResultCommitter, CommitterReachable zeroHash insertionOrder c ∧
      (∃ row, c.doneLedger.durable.lookup ⟨⟨0⟩, 0, 0⟩ = some row ∧
        row.status = .scannedWithFindings ∧
        Backed zeroHash c.findingsSink.durable ⟨⟨0⟩, 0, 0⟩ row.findingsCount) := by
  have hrun : ∃ c row, CommitterReachable zeroHash insertionOrder c ∧
      c.doneLedger.durable.lookup ⟨⟨0⟩, 0, 0⟩ = some row ∧ row.status = .scannedWithFindings :=
    ⟨_, _, .step (.commitItem sampleRequest) (.step (.commitItem sampleRequest)
      (.step (.failLedgerCommits 1) .new rfl) rfl) rfl, rfl, rfl⟩
  obtain ⟨c, row, hc, hrow, hstatus⟩ := hrun
  exact ⟨c, hc, row, hrow, hstatus,
    (commit_ordering zeroHash insertionOrder c hc).1 _ row hrow hstatus⟩

end GossipRs.Runtime
