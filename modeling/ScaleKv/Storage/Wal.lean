import ScaleKv.Storage.SlottedPage

namespace ScaleKv
namespace Storage

/-!
# Log records, batches and redo

The write-ahead log of a storage node is a sequence of batches.  A batch covers
the log sequence numbers from its start up to, but not including, its end; each
of them belongs to one record.
-/

/-- The operation byte of a record. -/
inductive WalOp
  | pageImage
  | pagePut
  | pageDel
  | txnPut
  | txnDel
  | txnCommit
  | unknown (code : UInt8)
deriving DecidableEq

/-- Records of transactions are no business of page replay. -/
def WalOp.isTxn : WalOp -> Bool
  | .txnPut => true
  | .txnDel => true
  | .txnCommit => true
  | _ => false

structure WalRecord where
  lsn : Nat
  op : WalOp
  pageId : PageId
  slotId : Nat
  key : Bytes
  value : Bytes

/-- The record that a transaction batch has for one page. -/
def WalRecord.ofImage (lsn : Nat) (id : PageId) (image : PageImage) : WalRecord :=
  { lsn := lsn, op := .pageImage, pageId := id, slotId := 0, key := [], value := image.bytes }

structure WalBatch where
  requestId : Nat
  startLsn : Nat
  endLsn : Nat
  records : List WalRecord

/-- `apply_wal_record`. -/
def applyWalRecord (page : Bytes) (record : WalRecord) : Result Bytes :=
  match record.op with
  | .pageImage =>
    if record.value.length ≠ pageSize then
      .error (.error (.invalidPageSize record.value.length pageSize))
    else .ok record.value
  | .pagePut => SlottedPage.insertRecordAtSlotChecked page record.slotId record.key record.value
  | .pageDel => SlottedPage.clearSlot page record.slotId
  | .txnPut => .ok page
  | .txnDel => .ok page
  | .txnCommit => .ok page
  | .unknown _ => .ok page

theorem applyWalRecord_ofImage (page : Bytes) (lsn : Nat) (id : PageId) (image : PageImage) :
    applyWalRecord page (.ofImage lsn id image) = .ok image.bytes := by
  unfold applyWalRecord WalRecord.ofImage
  rw [if_neg (by simp [image.length_eq])]

/-- The first record of a batch whose sequence number is not the one expected,
with the expected one. -/
def firstMisnumbered (lsn : Nat) : List WalRecord -> Option (Nat × Nat)
  | [] => none
  | record :: rest => if record.lsn = lsn then firstMisnumbered (lsn + 1) rest else some (record.lsn, lsn)

/-- `validate_incoming_wal_batch` against the value of `durable_lsn` it loads. -/
def validateIncomingWalBatch (durableLsn : Nat) (batch : WalBatch) : Except Error Unit :=
  if batch.startLsn ≠ durableLsn then
    .error (.io .invalidInput
      s!"wal batch out of order: start_lsn={batch.startLsn} expected_start={durableLsn}")
  else if batch.endLsn < batch.startLsn then
    .error (.io .invalidInput "wal batch invalid range")
  else if batch.endLsn - batch.startLsn ≠ batch.records.length then
    .error (.io .invalidInput
      s!"wal batch length mismatch: records={batch.records.length} range_len={batch.endLsn - batch.startLsn}")
  else
    match firstMisnumbered batch.startLsn batch.records with
    | some (got, want) =>
      .error (.io .invalidInput s!"wal record lsn mismatch: got={got} want={want}")
    | none => .ok ()

/-- The sequence numbers of the records are consecutive. -/
def Numbered (lsn : Nat) : List WalRecord -> Prop
  | [] => True
  | record :: rest => record.lsn = lsn ∧ Numbered (lsn + 1) rest

variable {lsn : Nat} {records : List WalRecord}

theorem firstMisnumbered_eq_none :
    firstMisnumbered lsn records = none <-> Numbered lsn records := by
  induction records generalizing lsn with
  | nil => simp [firstMisnumbered, Numbered]
  | cons head tail ih =>
    unfold firstMisnumbered Numbered
    by_cases same : head.lsn = lsn
    · simp [same, ih]
    · simp [same]

theorem validateIncomingWalBatch_eq_ok {durableLsn : Nat} {batch : WalBatch} :
    validateIncomingWalBatch durableLsn batch = .ok () <->
      batch.startLsn = durableLsn ∧ batch.endLsn = batch.startLsn + batch.records.length ∧
        Numbered batch.startLsn batch.records := by
  unfold validateIncomingWalBatch
  split
  · next outOfOrder => simp [outOfOrder]
  · next _ =>
    split
    · next _ =>
      simp only [reduceCtorEq, false_iff, not_and]
      intro _ length
      omega
    · split
      · next _ =>
        simp only [reduceCtorEq, false_iff, not_and]
        intro _ length
        omega
      · next _ =>
        rw [← firstMisnumbered_eq_none]
        cases firstMisnumbered batch.startLsn batch.records with
        | some => simp
        | none =>
          simp only [and_true, true_iff]
          omega

theorem Numbered.append {first second : List WalRecord} :
    Numbered lsn (first ++ second) <-> Numbered lsn first ∧ Numbered (lsn + first.length) second := by
  induction first generalizing lsn with
  | nil => simp [Numbered]
  | cons head tail ih =>
    simp only [List.cons_append, Numbered, ih, List.length_cons, and_assoc]
    rw [show lsn + 1 + tail.length = lsn + (tail.length + 1) by omega]

theorem Numbered.bounds (numbered : Numbered lsn records) {record : WalRecord}
    (member : record ∈ records) : lsn ≤ record.lsn ∧ record.lsn < lsn + records.length := by
  induction records generalizing lsn with
  | nil => cases member
  | cons head tail ih =>
    rw [List.length_cons]
    rcases List.mem_cons.mp member with same | inTail
    · have := numbered.1
      rw [same]
      omega
    · have := ih numbered.2 inTail
      omega

theorem Numbered.ascending (numbered : Numbered lsn records) :
    records.Pairwise (fun left right => left.lsn < right.lsn) := by
  induction records generalizing lsn with
  | nil => exact List.Pairwise.nil
  | cons head tail ih =>
    refine List.Pairwise.cons ?_ (ih numbered.2)
    intro _ member
    have := numbered.2.bounds member
    have := numbered.1
    omega

end Storage
end ScaleKv
