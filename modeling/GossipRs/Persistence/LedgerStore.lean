import GossipRs.Persistence.Store
import GossipRs.Runtime.CheckpointAggregator

/-! The in-memory done-ledger (`gossip-persistence-inmemory/done_ledger.rs`). Every reachable ledger
holds, for each key, the merge of exactly its committed records. -/

namespace GossipRs.Persistence

open Lib List
open DoneLedgerRecord (join_assoc join_comm merge_eq_join valid_join)
open GossipRs.Runtime (DoneLedgerCommitReceipt)

structure HashOrder where
  arrange : List (Σ _ : DoneLedgerKey, DoneLedgerRecord) →
    List (Σ _ : DoneLedgerKey, DoneLedgerRecord)
  perm : ∀ entries, (arrange entries).Perm entries

abbrev DoneLedgerRows := FMap DoneLedgerKey DoneLedgerRecord

abbrev DoneLedgerBatch := AList fun _ : DoneLedgerKey => DoneLedgerRecord

namespace DoneLedgerBackend

def checkRecord (r : DoneLedgerRecord) : Except PersistenceInputError Unit := do
  r.validate
  if r.provenance.finishedAt < r.provenance.startedAt then
    .error (.provenanceOrdering r.provenance.startedAt r.provenance.finishedAt)

def checkRecords : List DoneLedgerRecord → Except PersistenceInputError Unit
  | [] => .ok ()
  | r :: rest => do
    checkRecord r
    checkRecords rest

def dedupe (byKey : DoneLedgerBatch) :
    List DoneLedgerRecord → Except PersistenceInputError DoneLedgerBatch
  | [] => .ok byKey
  | r :: rest =>
    match byKey.lookup r.key with
    | some existing =>
      match existing.merge r with
      | .error err => .error err
      | .ok merged => dedupe (byKey.insert r.key merged) rest
    | none => dedupe (byKey.insert r.key r) rest

/-- Write the records of a batch into the rows. A failure leaves the rows written before it. -/
def upsertAll (rows : DoneLedgerRows) : List (Σ _ : DoneLedgerKey, DoneLedgerRecord) →
    Except PersistenceInputError Unit × DoneLedgerRows
  | [] => (.ok (), rows)
  | e :: rest =>
    match rows.lookup e.1 with
    | some existing =>
      match existing.merge e.2 with
      | .error err => (.error err, rows)
      | .ok merged => upsertAll (rows.insert e.1 merged) rest
    | none => upsertAll (rows.insert e.1 e.2) rest

def receipt (byKey : DoneLedgerBatch) : DoneLedgerCommitReceipt where
  recordCount := byKey.entries.length
  scannedCount := (byKey.entries.filter fun e => e.2.status.isScanned).length
  findingsCount :=
    byKey.entries.foldl (fun acc e => min (acc + e.2.findingsCount) (2 ^ 64 - 1)) 0

def apply (order : HashOrder) (rows : DoneLedgerRows) (failCommitRemaining : Nat)
    (records : List DoneLedgerRecord) :
    Except InMemoryPersistenceError DoneLedgerCommitReceipt × DoneLedgerRows × Nat :=
  if 0 < failCommitRemaining then
    (.error (.injectedCommitFailure .doneLedger), rows, failCommitRemaining - 1)
  else
    match checkRecords records with
    | .error err => (.error (.batchValidation err), rows, failCommitRemaining)
    | .ok () =>
      match dedupe ∅ records with
      | .error err => (.error (.batchValidation err), rows, failCommitRemaining)
      | .ok byKey =>
        let written := upsertAll rows (order.arrange byKey.entries)
        match written.1 with
        | .error err => (.error (.batchValidation err), written.2, failCommitRemaining)
        | .ok () => (.ok (receipt byKey), written.2, failCommitRemaining)

end DoneLedgerBackend

def doneLedgerBackend (order : HashOrder) :
    StoreBackend (List DoneLedgerRecord) DoneLedgerCommitReceipt DoneLedgerRows where
  kind := .doneLedger
  apply := DoneLedgerBackend.apply order

abbrev InMemoryDoneLedger :=
  StoreState (List DoneLedgerRecord) DoneLedgerCommitReceipt DoneLedgerRows

/-! ### Joining records one after the other -/

def joinInto (row : Option DoneLedgerRecord) (r : DoneLedgerRecord) : Option DoneLedgerRecord :=
  match row with
  | none => some r
  | some existing => some (existing.join r)

def joinAll (row : Option DoneLedgerRecord) (records : List DoneLedgerRecord) :
    Option DoneLedgerRecord :=
  records.foldl joinInto row

/-- Merge a list of records from the left, as the source merges a record into a row. -/
def mergeAll (row : Option DoneLedgerRecord) :
    List DoneLedgerRecord → Except PersistenceInputError (Option DoneLedgerRecord)
  | [] => .ok row
  | r :: rest =>
    match row with
    | none => mergeAll (some r) rest
    | some existing => do
      let merged ← existing.merge r
      mergeAll (some merged) rest

def RowOk (key : DoneLedgerKey) (row : Option DoneLedgerRecord) : Prop :=
  ∀ r, row = some r → r.Valid ∧ r.key = key

theorem rowOk_none (key) : RowOk key none := by
  intro r h
  cases h

variable {key : DoneLedgerKey} {row : Option DoneLedgerRecord}

theorem rowOk_joinInto (hr : RowOk key row) (hv : r.Valid) (hke : r.key = key) :
    RowOk key (joinInto row r) := by
  intro merged hm
  cases row with
  | none =>
    cases hm
    exact ⟨hv, hke⟩
  | some existing =>
    cases hm
    obtain ⟨he, hk⟩ := hr existing rfl
    exact ⟨valid_join he hv, hk⟩

variable {records : List DoneLedgerRecord}

theorem rowOk_joinAll (hro : RowOk key row) (hv : ∀ r ∈ records, r.Valid ∧ r.key = key) :
    RowOk key (joinAll row records) := by
  induction records generalizing row with
  | nil => exact hro
  | cons r rest ih =>
    obtain ⟨hr, hk⟩ := hv r mem_cons_self
    exact ih (rowOk_joinInto hro hr hk) fun x hx => hv x (mem_cons_of_mem r hx)

theorem mergeAll_eq (hro : RowOk key row) (hv : ∀ r ∈ records, r.Valid ∧ r.key = key) :
    mergeAll row records = .ok (joinAll row records) := by
  induction records generalizing row with
  | nil => rfl
  | cons r rest ih =>
    obtain ⟨hr, hk⟩ := hv r mem_cons_self
    have hre := ih (rowOk_joinInto hro hr hk) fun x hx => hv x (mem_cons_of_mem r hx)
    cases row with
    | none => exact hre
    | some existing =>
      obtain ⟨he, hek⟩ := hro existing rfl
      rw [mergeAll, merge_eq_join he hr (hek.trans hk.symm)]
      exact hre

theorem joinInto_right_comm (hk : a.key = b.key) (row) :
    joinInto (joinInto row a) b = joinInto (joinInto row b) a := by
  cases row with
  | none => exact congrArg some (join_comm hk)
  | some existing =>
    refine congrArg some ?_
    rw [join_assoc, join_comm hk, ← join_assoc]

theorem joinAll_perm (hp : l.Perm l') (hk : ∀ r ∈ l, r.key = key)
    (row) : joinAll row l = joinAll row l' :=
  hp.foldl_eq' (fun a ha b hb row =>
    joinInto_right_comm ((hk a ha).trans (hk b hb).symm) row) row

theorem joinAll_some (existing) (row)
    (records) :
    (joinAll (some row) records).elim (some existing) (joinInto (some existing)) =
      joinAll (joinInto (some existing) row) records := by
  induction records generalizing row with
  | nil => rfl
  | cons r rest ih =>
    refine (ih (row.join r)).trans ?_
    show joinAll (some (existing.join (row.join r))) rest =
      joinAll (some ((existing.join row).join r)) rest
    rw [join_assoc]

theorem joinAll_batch (row) (records) :
    (joinAll none records).elim row (joinInto row) = joinAll row records := by
  cases records with
  | nil => rfl
  | cons r rest =>
    cases row with
    | none =>
      show (joinAll (some r) rest).elim none (joinInto none) = joinAll (some r) rest
      cases joinAll (some r) rest with
      | none | some _ => rfl
    | some existing => exact joinAll_some existing r rest

/-! ### Applying a batch -/

def ofKey (key : DoneLedgerKey) (records : List DoneLedgerRecord) : List DoneLedgerRecord :=
  records.filter (·.key = key)

theorem mem_ofKey : r ∈ ofKey key records ↔ r ∈ records ∧ r.key = key := by
  simp [ofKey]

theorem ofKey_cons_self (r) (rest) :
    ofKey r.key (r :: rest) = r :: ofKey r.key rest :=
  filter_cons_of_pos (by simp)

theorem ofKey_cons_of_ne (h : key ≠ r.key) (rest) :
    ofKey key (r :: rest) = ofKey key rest :=
  filter_cons_of_neg (by simpa using fun he => h he.symm)

theorem checkRecords_valid (h : DoneLedgerBackend.checkRecords records = .ok ()) :
    ∀ r ∈ records, r.Valid := by
  induction records with
  | nil =>
    intro r hr
    cases hr
  | cons r rest ih =>
    rw [DoneLedgerBackend.checkRecords, DoneLedgerBackend.checkRecord] at h
    cases hv : r.validate with
    | error err =>
      rw [hv] at h
      cases h
    | ok u =>
      rw [hv] at h
      replace h : (if r.provenance.finishedAt < r.provenance.startedAt then
          (.error (.provenanceOrdering r.provenance.startedAt r.provenance.finishedAt) :
            Except PersistenceInputError Unit) else .ok ()) >>= (fun _ =>
          DoneLedgerBackend.checkRecords rest) = .ok () := h
      split at h
      · cases h
      intro x hx
      rcases mem_cons.mp hx with rfl | hx
      · exact hv
      · exact ih h x hx

def RowsOk (lookup : DoneLedgerKey → Option DoneLedgerRecord) : Prop :=
  ∀ key, RowOk key (lookup key)

theorem dedupe_spec (hro : RowsOk byKey.lookup) (hv : ∀ r ∈ records, r.Valid) :
    ∃ batch, DoneLedgerBackend.dedupe byKey records = .ok batch ∧
      ∀ key, batch.lookup key = joinAll (byKey.lookup key) (ofKey key records) := by
  induction records generalizing byKey with
  | nil => exact ⟨byKey, rfl, fun key => rfl⟩
  | cons r rest ih =>
    have hr := hv r mem_cons_self
    -- both branches of the loop body write the joined row
    have hs : ∃ row, joinInto (byKey.lookup r.key) r = some row ∧
        DoneLedgerBackend.dedupe byKey (r :: rest) =
          DoneLedgerBackend.dedupe (byKey.insert r.key row) rest := by
      rw [DoneLedgerBackend.dedupe]
      cases hlo : byKey.lookup r.key with
      | none => exact ⟨r, rfl, rfl⟩
      | some existing =>
        obtain ⟨he, hk⟩ := hro r.key existing hlo
        refine ⟨existing.join r, rfl, ?_⟩
        dsimp only
        rw [merge_eq_join he hr hk]
    obtain ⟨row, hrow, hs⟩ := hs
    have hl : ∀ key, (byKey.insert r.key row).lookup key =
        if key = r.key then some row else byKey.lookup key := by
      intro key
      split
      · next h => rw [h, AList.lookup_insert]
      · next h => rw [AList.lookup_insert_ne h]
    have hr' : RowsOk (byKey.insert r.key row).lookup := by
      intro key
      show RowOk key ((byKey.insert r.key row).lookup key)
      rw [hl]
      split
      · next h =>
        rw [← hrow, h]
        exact rowOk_joinInto (hro r.key) hr rfl
      · exact hro key
    obtain ⟨batch, hb, hsp⟩ := ih hr' fun x hx => hv x (mem_cons_of_mem r hx)
    refine ⟨batch, hs.trans hb, fun key => (hsp key).trans ?_⟩
    rw [hl]
    split
    · next h => rw [h, ofKey_cons_self, ← hrow, joinAll, joinAll, foldl_cons]
    · next h => rw [ofKey_cons_of_ne h]

variable {rows : DoneLedgerRows}

theorem upsertAll_spec (hn : entries.NodupKeys) (hr : RowsOk rows.lookup)
    (hen : ∀ e ∈ entries, e.2.Valid ∧ e.2.key = e.1) :
    ∃ rows', DoneLedgerBackend.upsertAll rows entries = (.ok (), rows') ∧ ∀ key, rows'.lookup key =
        (entries.dlookup key).elim (rows.lookup key) (joinInto (rows.lookup key)) := by
  induction entries generalizing rows with
  | nil => exact ⟨rows, rfl, fun key => rfl⟩
  | cons e rest ih =>
    obtain ⟨he, hek⟩ := hen e mem_cons_self
    have hs : ∃ row, joinInto (rows.lookup e.1) e.2 = some row ∧
        DoneLedgerBackend.upsertAll rows (e :: rest) =
          DoneLedgerBackend.upsertAll (rows.insert e.1 row) rest := by
      rw [DoneLedgerBackend.upsertAll]
      cases hl : rows.lookup e.1 with
      | none => exact ⟨e.2, rfl, rfl⟩
      | some existing =>
        obtain ⟨hx, hk⟩ := hr e.1 existing hl
        refine ⟨existing.join e.2, rfl, ?_⟩
        dsimp only
        rw [merge_eq_join hx he (hk.trans hek.symm)]
    obtain ⟨row, hro, hs⟩ := hs
    have hr' : RowsOk (rows.insert e.1 row).lookup := by
      intro key
      show RowOk key ((rows.insert e.1 row).lookup key)
      rw [FMap.lookup_insert_eq]
      split
      · next h =>
        rw [← hro, h]
        exact rowOk_joinInto (hr e.1) he hek
      · exact hr key
    obtain ⟨rows', hr'', hsp⟩ := ih (nodupKeys_cons.mp hn).2 hr'
      fun x hx => hen x (mem_cons_of_mem e hx)
    refine ⟨rows', hs.trans hr'', fun key => (hsp key).trans ?_⟩
    rw [FMap.lookup_insert_eq]
    by_cases hke : key = e.1
    · subst hke
      -- the key does not come again in the batch
      rw [if_pos rfl, dlookup_cons_eq,
        dlookup_eq_none.mpr (nodupKeys_cons.mp hn).1, Option.elim_none,
        Option.elim_some, hro]
    · rw [if_neg hke, dlookup_cons_ne rest e hke]

/-- A failed application leaves the rows, a success joins the records of each key into its row. -/
theorem apply_spec (order : HashOrder) {rows' n n'} (hro : RowsOk rows.lookup)
    (h : DoneLedgerBackend.apply order rows n records = (result, rows', n')) : match result with
    | .error _ => rows' = rows
    | .ok _ => (∀ r ∈ records, r.Valid) ∧
        ∀ key, rows'.lookup key = joinAll (rows.lookup key) (ofKey key records) := by
  rw [DoneLedgerBackend.apply] at h
  split at h
  · cases h
    rfl
  split at h
  · cases h
    rfl
  next hc =>
    have hv := checkRecords_valid hc
    obtain ⟨batch, hb, hl⟩ := dedupe_spec
      (show RowsOk (∅ : DoneLedgerBatch).lookup from fun key => rowOk_none key) hv
    have hn : (order.arrange batch.entries).NodupKeys :=
      (perm_nodupKeys (order.perm batch.entries)).mpr batch.nodupKeys
    have hen : ∀ e ∈ order.arrange batch.entries, e.2.Valid ∧ e.2.key = e.1 := by
      intro e he
      have hm : batch.lookup e.1 = some e.2 :=
        AList.mem_lookup_iff.mpr ((order.perm batch.entries).mem_iff.mp he)
      refine rowOk_joinAll (rowOk_none e.1) (fun r hr => ?_) e.2 ((hl e.1).symm.trans hm)
      obtain ⟨hr, hk⟩ := mem_ofKey.mp hr
      exact ⟨hv r hr, hk⟩
    obtain ⟨_, hw, hs⟩ := upsertAll_spec hn hro hen
    rw [hb] at h
    dsimp only at h
    rw [hw] at h
    cases h
    refine ⟨hv, fun key => (hs key).trans ?_⟩
    rw [perm_dlookup key hn (order.perm batch.entries)]
    have hke : batch.entries.dlookup key = joinAll none (ofKey key records) := hl key
    rw [hke, joinAll_batch]

/-! ### Runs -/

structure Converged (log : List (List DoneLedgerRecord)) (rows : DoneLedgerRows) : Prop where
  valid : ∀ r ∈ log.flatten, r.Valid
  row : ∀ key, rows.lookup key = joinAll none (ofKey key log.flatten)

variable {log : List (List DoneLedgerRecord)}

theorem Converged.rowsOk (h : Converged log rows) : RowsOk rows.lookup := by
  intro key
  show RowOk key (rows.lookup key)
  rw [h.row key]
  refine rowOk_joinAll (rowOk_none key) fun r hr => ?_
  obtain ⟨hr, hk⟩ := mem_ofKey.mp hr
  exact ⟨h.valid r hr, hk⟩

theorem converged_of_applies (h : Applies (doneLedgerBackend order) ∅ log rows) :
    Converged log rows := by
  induction h with
  | refl =>
    refine ⟨fun r hr => ?_, fun key => rfl⟩
    cases hr
  | @ok rows rows' log n n' records r _ happly ih =>
    obtain ⟨hv, hro⟩ := apply_spec order ih.rowsOk happly
    have hf : (log ++ [records]).flatten = log.flatten ++ records := by simp
    refine ⟨fun x hx => ?_, fun key => ?_⟩
    · rw [hf] at hx
      rcases mem_append.mp hx with hx | hx
      · exact ih.valid x hx
      · exact hv x hx
    · rw [hro key, ih.row key, hf, ofKey, ofKey, ofKey, filter_append, joinAll, joinAll,
        joinAll, foldl_append]
  | fail _ happly ih =>
    rw [apply_spec order ih.rowsOk happly]
    exact ih

theorem converged_of_run {s : InMemoryDoneLedger} (h : StoreRun (doneLedgerBackend order) ∅ log s) :
    Converged log s.durable :=
  converged_of_applies h.applies

def insertionOrder : HashOrder := ⟨fun entries => entries, fun entries => .refl entries⟩

def sampleRecord (status : DoneLedgerStatus) (findingsCount : Nat)
    (errorCode : Option DoneLedgerErrorCode) : DoneLedgerRecord :=
  ⟨⟨⟨0⟩, 0, 0⟩, status, 5, findingsCount, ⟨⟨1⟩, ⟨1⟩, 1, 1, 2⟩, errorCode⟩

end GossipRs.Persistence
