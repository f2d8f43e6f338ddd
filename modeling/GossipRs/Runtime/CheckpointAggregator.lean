import GossipRs.Contracts.Identity

/-! The committed-prefix checkpoint aggregator (`checkpoint_aggregator.rs`, with the receipts of
`commit_model.rs` and `page_commit.rs`). The reorder buffer is the list of the receipts in ascending
order of their sequence numbers. Counters are naturals with the source's overflow checks. A failed
call carries the aggregator it leaves. -/

namespace GossipRs.Runtime

open Lib

structure ConnectorCursor where
  lastKey : Option Bytes
  token : Option Bytes
deriving DecidableEq, Repr

inductive CheckpointBoundaryKind where
  | orderedContent
  | repoFrontier
deriving DecidableEq, Repr

inductive CheckpointBoundary where
  | orderedContent (cursor : ConnectorCursor)
  | repoFrontier (cursor : ConnectorCursor)
deriving DecidableEq, Repr

namespace CheckpointBoundary

def kind : CheckpointBoundary → CheckpointBoundaryKind
  | .orderedContent _ => .orderedContent
  | .repoFrontier _ => .repoFrontier

def cursor : CheckpointBoundary → ConnectorCursor
  | .orderedContent cursor => cursor
  | .repoFrontier cursor => cursor

end CheckpointBoundary

structure WriteContext where
  tenantId : TenantId
  policyHash : BitVec 256
  runId : RunId
  shardId : ShardId
  fenceEpoch : FenceEpoch
deriving DecidableEq, Repr

/-- `CommitScope`: the write context, how many units it covers, and where they end. -/
@[ext]
structure CommitScope where
  writeContext : WriteContext
  committedUnits : Nat
  checkpointBoundary : CheckpointBoundary
  units_pos : 0 < committedUnits
deriving Repr

instance : DecidableEq CommitScope := fun _ _ => decidable_of_iff _ CommitScope.ext_iff.symm

structure FindingsCommitReceipt where
  findingCount : Nat
  occurrenceCount : Nat
  observationCount : Nat
deriving DecidableEq, Repr

structure DoneLedgerCommitReceipt where
  recordCount : Nat
  scannedCount : Nat
  findingsCount : Nat
deriving DecidableEq, Repr

structure ItemCommitReceipt where
  scope : CommitScope
  findings : FindingsCommitReceipt
  doneLedger : DoneLedgerCommitReceipt
deriving DecidableEq, Repr

structure CheckpointCommitReceipt where
  scope : CommitScope
  checkpointedAt : LogicalTime
deriving DecidableEq, Repr

structure PageCommitReceipt where
  itemCommit : ItemCommitReceipt
  checkpoint : CheckpointCommitReceipt
deriving DecidableEq, Repr

structure CompletedUnit where
  sequenceNo : Nat
  checkpointBoundary : CheckpointBoundary
deriving DecidableEq, Repr

structure UnitCommitReceipt where
  completedUnit : CompletedUnit
  durable : ItemCommitReceipt
  boundary_eq : completedUnit.checkpointBoundary = durable.scope.checkpointBoundary
deriving DecidableEq, Repr

namespace UnitCommitReceipt

def sequenceNo (receipt : UnitCommitReceipt) : Nat := receipt.completedUnit.sequenceNo

def boundary (receipt : UnitCommitReceipt) : CheckpointBoundary :=
  receipt.completedUnit.checkpointBoundary

def lastKey (receipt : UnitCommitReceipt) : Option Bytes := receipt.boundary.cursor.lastKey

end UnitCommitReceipt

inductive PageCommitValidationError where
  | ledgerUnitCountMismatch (expected actual : Nat)
  | checkpointScopeMismatch (expected actual : CommitScope)
deriving DecidableEq, Repr

inductive PrefixCheckpointError where
  | ownershipMismatch (sequenceNo : Nat) (expected actual : WriteContext)
  | receiptBoundaryMismatch (sequenceNo : Nat)
  | missingProgressKey (sequenceNo : Nat)
  | perUnitReceiptExpected (sequenceNo actual : Nat)
  | boundaryKindMismatch (expected actual : CheckpointBoundaryKind)
  | conflictingReceiptForSequence (sequenceNo : Nat)
  | boundaryRegression (sequenceNo : Nat)
  | orderedContentEqualKey (sequenceNo : Nat)
  | bufferFull (buffered capacity : Nat)
  | countOverflow (sequenceNo : Option Nat) (field : String)
  | invalidPreparedCheckpoint (error : PageCommitValidationError)
  | noPendingCheckpoint
  | invalidCheckpointReceipt (error : PageCommitValidationError)
  | internalInconsistency (detail : String)
deriving DecidableEq, Repr

inductive ReceiptRecordOutcome where
  | buffered
  | duplicateBuffered
  | alreadyCheckpointed
deriving DecidableEq, Repr

structure PendingPrefixCheckpoint where
  firstSequenceNo : Nat
  lastSequenceNo : Nat
  page : ItemCommitReceipt
deriving DecidableEq, Repr

structure PrefixCheckpointAggregator where
  writeContext : WriteContext
  nextSequenceNo : Nat
  checkpointedUnits : Nat
  maxBuffered : Nat
  boundaryKind : Option CheckpointBoundaryKind
  lastCheckpointKey : Option Bytes
  receipts : List UnitCommitReceipt
  pending : Option PendingPrefixCheckpoint
  maxBuffered_pos : 0 < maxBuffered

abbrev Checked := Outcome Empty PrefixCheckpointError

abbrev Aggregate (α : Type) := Prog PrefixCheckpointAggregator Empty PrefixCheckpointError α

def checkedAdd (total next : Nat) (sequenceNo : Option Nat) (field : String) : Checked Nat := do
  .ensure (total + next < 2 ^ 64) (.countOverflow sequenceNo field)
  return total + next

structure Totals where
  findingCount : Nat
  occurrenceCount : Nat
  observationCount : Nat
  recordCount : Nat
  scannedCount : Nat
  doneLedgerFindingsCount : Nat
  committedUnits : Nat
deriving DecidableEq, Repr

namespace Totals

def zero : Totals := ⟨0, 0, 0, 0, 0, 0, 0⟩

def accumulate (totals : Totals) (receipt : UnitCommitReceipt) : Checked Totals := do
  let seq := some receipt.sequenceNo
  let findings := receipt.durable.findings
  let ledger := receipt.durable.doneLedger
  let findingCount ← checkedAdd totals.findingCount findings.findingCount seq "finding_count"
  let occurrenceCount ←
    checkedAdd totals.occurrenceCount findings.occurrenceCount seq "occurrence_count"
  let observationCount ←
    checkedAdd totals.observationCount findings.observationCount seq "observation_count"
  let recordCount ← checkedAdd totals.recordCount ledger.recordCount seq "record_count"
  let scannedCount ← checkedAdd totals.scannedCount ledger.scannedCount seq "scanned_count"
  let doneLedgerFindingsCount ← checkedAdd totals.doneLedgerFindingsCount ledger.findingsCount seq
    "done_ledger_findings_count"
  let committedUnits ← checkedAdd totals.committedUnits receipt.durable.scope.committedUnits seq
    "committed_units"
  return { findingCount, occurrenceCount, observationCount, recordCount, scannedCount,
           doneLedgerFindingsCount, committedUnits }

end Totals

/-- `validate_receipt`: the kind of a receipt the aggregator may take. -/
def validateReceipt (writeContext : WriteContext) (receipt : UnitCommitReceipt) :
    Checked CheckpointBoundaryKind := do
  let seq := receipt.sequenceNo
  let scope := receipt.durable.scope
  .ensure (scope.writeContext = writeContext)
    (.ownershipMismatch seq writeContext scope.writeContext)
  .ensure (scope.committedUnits = 1) (.perUnitReceiptExpected seq scope.committedUnits)
  .ensure (scope.checkpointBoundary = receipt.boundary) (.receiptBoundaryMismatch seq)
  .ensure receipt.lastKey.isSome (.missingProgressKey seq)
  return receipt.boundary.kind

/-- `normalize_checkpoint_cursor`: ordered content keeps the key and drops the token. -/
def normalizeCheckpointCursor : CheckpointBoundary → Option CheckpointBoundary
  | .orderedContent cursor => cursor.lastKey.map fun key => .orderedContent ⟨some key, none⟩
  | .repoFrontier cursor => some (.repoFrontier cursor)

structure PrefixScan where
  expected : Nat
  previousKey : Option Bytes
  totals : Totals
  last : Option UnitCommitReceipt

def checkKey (kind : Option CheckpointBoundaryKind) (sequenceNo : Nat) (key : Bytes) :
    Option Bytes → Checked Unit
  | none => .ok ()
  | some prev => do
    .ensure (¬ key < prev) (.boundaryRegression sequenceNo)
    .ensure (¬ (key = prev ∧ kind = some .orderedContent)) (.orderedContentEqualKey sequenceNo)

/-- The loop of `build_contiguous_prefix`, over the buffer from the expected number on. -/
def scanPrefix (kind : Option CheckpointBoundaryKind) :
    List UnitCommitReceipt → PrefixScan → Checked PrefixScan
  | [], scan => .ok scan
  | receipt :: rest, scan =>
    if receipt.sequenceNo ≠ scan.expected then .ok scan
    else do
      let key ← .okOr receipt.lastKey (.missingProgressKey receipt.sequenceNo)
      checkKey kind receipt.sequenceNo key scan.previousKey
      let totals ← scan.totals.accumulate receipt
      let next := { scan with previousKey := some key, totals := totals, last := some receipt }
      -- the largest sequence number has no successor
      if scan.expected + 1 < 2 ^ 64 then
        scanPrefix kind rest { next with expected := scan.expected + 1 }
      else .ok next

def recordDoneLedger (scope : CommitScope) (findings : FindingsCommitReceipt)
    (ledger : DoneLedgerCommitReceipt) :
    Outcome Empty PageCommitValidationError ItemCommitReceipt := do
  .ensure (scope.committedUnits = ledger.recordCount)
    (.ledgerUnitCountMismatch scope.committedUnits ledger.recordCount)
  return ⟨scope, findings, ledger⟩

def pageOf (writeContext : WriteContext) (totals : Totals) (last : UnitCommitReceipt) :
    Checked ItemCommitReceipt := do
  let boundary ← .okOr (normalizeCheckpointCursor last.boundary)
    (.missingProgressKey last.sequenceNo)
  if h : 0 < totals.committedUnits then
    let scope : CommitScope := ⟨writeContext, totals.committedUnits, boundary, h⟩
    (recordDoneLedger scope
      ⟨totals.findingCount, totals.occurrenceCount, totals.observationCount⟩
      ⟨totals.recordCount, totals.scannedCount, totals.doneLedgerFindingsCount⟩).mapErr
        .invalidPreparedCheckpoint
  else .err (.internalInconsistency "non-empty contiguous prefix committed zero units")

namespace PrefixCheckpointAggregator

/-- A fresh aggregator; the source rejects a buffer without capacity. -/
def new (writeContext : WriteContext) (nextSequenceNo maxBuffered : Nat) (h : 0 < maxBuffered) :
    PrefixCheckpointAggregator :=
  ⟨writeContext, nextSequenceNo, 0, maxBuffered, none, none, [], none, h⟩

def receiptsBefore (sequenceNo : Nat) (l : List UnitCommitReceipt) : List UnitCommitReceipt :=
  l.takeWhile fun receipt => decide (receipt.sequenceNo < sequenceNo)

def receiptsFrom (sequenceNo : Nat) (l : List UnitCommitReceipt) : List UnitCommitReceipt :=
  l.dropWhile fun receipt => decide (receipt.sequenceNo < sequenceNo)

def findReceipt (sequenceNo : Nat) (l : List UnitCommitReceipt) : Option UnitCommitReceipt :=
  l.find? fun receipt => decide (receipt.sequenceNo = sequenceNo)

def insertReceipt (receipt : UnitCommitReceipt) (l : List UnitCommitReceipt) :
    List UnitCommitReceipt :=
  receiptsBefore receipt.sequenceNo l ++ receipt :: receiptsFrom receipt.sequenceNo l

def buildContiguousPrefix (agg : PrefixCheckpointAggregator) :
    Checked (Option PendingPrefixCheckpoint) := do
  let first := agg.nextSequenceNo
  let scan ← scanPrefix agg.boundaryKind (receiptsFrom first agg.receipts)
    ⟨first, agg.lastCheckpointKey, .zero, none⟩
  match scan.last with
  | none => return none
  | some last =>
    let page ← pageOf agg.writeContext scan.totals last
    return some ⟨first, last.sequenceNo, page⟩

def pinBoundaryKind (kind : CheckpointBoundaryKind) : Aggregate Unit := do
  let agg ← Prog.get
  match agg.boundaryKind with
  | none => Prog.set { agg with boundaryKind := some kind }
  | some expected =>
    if expected = kind then return () else Prog.throw (.boundaryKindMismatch expected kind)

def bufferReceipt (receipt : UnitCommitReceipt) : Aggregate ReceiptRecordOutcome := do
  let agg ← Prog.get
  let seq := receipt.sequenceNo
  match findReceipt seq agg.receipts with
  | none =>
    -- the receipt the prefix waits for is always admitted
    if seq ≠ agg.nextSequenceNo ∧ agg.maxBuffered ≤ agg.receipts.length then
      Prog.throw (.bufferFull agg.receipts.length agg.maxBuffered)
    else
      Prog.set { agg with receipts := insertReceipt receipt agg.receipts }
      return .buffered
  | some existing =>
    if existing = receipt then return .duplicateBuffered
    else Prog.throw (.conflictingReceiptForSequence seq)

def recordReceipt (receipt : UnitCommitReceipt) : Aggregate ReceiptRecordOutcome := do
  let agg ← Prog.get
  let kind ← Prog.lift (validateReceipt agg.writeContext receipt)
  if receipt.sequenceNo < agg.nextSequenceNo then
    return .alreadyCheckpointed
  else
    pinBoundaryKind kind
    bufferReceipt receipt

def prepareCheckpoint : Aggregate (Option PendingPrefixCheckpoint) := do
  let agg ← Prog.get
  if agg.pending.isSome then return agg.pending
  else
    let built ← Prog.lift agg.buildContiguousPrefix
    Prog.set { agg with pending := built }
    return built

def discardPending : Aggregate (Option PendingPrefixCheckpoint) := do
  let agg ← Prog.get
  Prog.set { agg with pending := none }
  return agg.pending

def recordCheckpoint (page : ItemCommitReceipt) (receipt : CheckpointCommitReceipt) :
    Outcome Empty PageCommitValidationError PageCommitReceipt := do
  .ensure (receipt.scope = page.scope) (.checkpointScopeMismatch page.scope receipt.scope)
  return ⟨page, receipt⟩

def checkAcknowledged (agg : PrefixCheckpointAggregator) (pending : PendingPrefixCheckpoint)
    (receipt : CheckpointCommitReceipt) : Checked (Nat × Nat × PageCommitReceipt) := do
  let next ← checkedAdd pending.lastSequenceNo 1 none "next_sequence_no"
  let units ← checkedAdd agg.checkpointedUnits pending.page.scope.committedUnits none
    "checkpointed_units"
  let page ← (recordCheckpoint pending.page receipt).mapErr .invalidCheckpointReceipt
  return (next, units, page)

def acknowledgeCheckpoint (receipt : CheckpointCommitReceipt) : Aggregate PageCommitReceipt := do
  let agg ← Prog.get
  Prog.set { agg with pending := none }
  match agg.pending with
  | none => Prog.throw .noPendingCheckpoint
  | some pending =>
    -- every failure puts the pending prefix back
    let checked ← Prog.onErr (Prog.lift (checkAcknowledged agg pending receipt)) fun e => do
      Prog.modify fun a => { a with pending := some pending }
      return e
    Prog.modify fun a => { a with
      receipts := receiptsFrom (pending.lastSequenceNo + 1) a.receipts
      nextSequenceNo := checked.1
      checkpointedUnits := checked.2.1
      lastCheckpointKey := pending.page.scope.checkpointBoundary.cursor.lastKey }
    return checked.2.2

end PrefixCheckpointAggregator

end GossipRs.Runtime
