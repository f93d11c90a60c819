import ScaleKv.Storage.Wal
import ScaleKv.Foundation.OrderedMap
import Mathlib.Data.List.Induction

namespace ScaleKv
namespace Storage

open Foundation List Option Std

/-!
# Transaction records and the version map

A batch that ends with a commit record publishes its transaction records in a
map from keys to versions.  The map is in memory only; a node that is opened
builds it again from the frames that it finds.
-/

structure MvccVersion where
  commitLsn : Nat
  value : Option Bytes
deriving DecidableEq

/-- The versions of a key in the order in which they were pushed. -/
abbrev Mvcc := TreeMap Bytes (List MvccVersion)

namespace WalBatch

/-- The last record is a commit record. -/
def isCommitted (batch : WalBatch) : Bool :=
  batch.records.getLast?.any (fun record => record.op = .txnCommit)

end WalBatch

namespace Mvcc

def push (mvcc : Mvcc) (key : Bytes) (version : MvccVersion) : Mvcc :=
  mvcc.insert key (mvcc.getD key [] ++ [version])

def applyRecord (commitLsn : Nat) (mvcc : Mvcc) (record : WalRecord) : Mvcc :=
  match record.op with
  | .txnPut => mvcc.push record.key { commitLsn := commitLsn, value := some record.value }
  | .txnDel => mvcc.push record.key { commitLsn := commitLsn, value := none }
  | _ => mvcc

/-- `apply_txn_batch_to_mvcc`. -/
def applyTxnBatch (mvcc : Mvcc) (batch : WalBatch) : Mvcc :=
  if batch.isCommitted then batch.records.foldl (applyRecord batch.endLsn) mvcc else mvcc

/-- `mvcc_get_at`. -/
def getAt (mvcc : Mvcc) (key : Bytes) (readLsn : Nat) : Option (Option Bytes) :=
  mvcc[key]?.bind (fun versions =>
    (versions.reverse.find? (fun version => version.commitLsn ≤ readLsn)).map MvccVersion.value)

/-- What `gc_mvcc_versions` leaves of the versions of one key: the last of the
leading versions up to the watermark, and all behind it. -/
def collect (watermark : Nat) (versions : List MvccVersion) : List MvccVersion :=
  versions.drop ((versions.takeWhile (fun version => version.commitLsn ≤ watermark)).length - 1)

/-- `gc_mvcc_versions`, without its counts. -/
def gcVersions (mvcc : Mvcc) (watermark : Nat) : Mvcc :=
  mvcc.map (fun _ versions => collect watermark versions)

/-! ## The latest version of a key -/

/-- The version that was pushed last. -/
def latest (mvcc : Mvcc) (key : Bytes) : Option MvccVersion :=
  mvcc[key]?.bind List.getLast?

theorem latest_empty (key : Bytes) : latest ∅ key = none := by
  unfold latest
  rw [TreeMap.getElem?_emptyc]
  rfl

theorem latest_push (mvcc : Mvcc) (pushed key : Bytes) (version : MvccVersion) :
    (mvcc.push pushed version).latest key = if pushed = key then some version else mvcc.latest key := by
  unfold latest push
  rw [OrderedMap.lookup_insert]
  split
  · rw [bind_some, List.getLast?_concat]
  · rfl

variable {mvcc left right : Mvcc} {bound : Nat}

theorem getAt_eq_latest {key : Bytes} {readLsn : Nat}
    (above : ∀ version, mvcc.latest key = some version -> version.commitLsn ≤ readLsn) :
    mvcc.getAt key readLsn = (mvcc.latest key).map MvccVersion.value := by
  unfold getAt
  unfold latest at above ⊢
  cases stored : mvcc[key]? with
  | none => rfl
  | some versions =>
    rw [stored, bind_some] at above
    rw [bind_some, bind_some]
    cases last : versions.getLast? with
    | none =>
      rw [List.getLast?_eq_none_iff.mp last]
      rfl
    | some version =>
      rcases List.getLast?_eq_some_iff.mp last with ⟨_, shape⟩
      have found : decide (version.commitLsn ≤ readLsn) = true :=
        decide_eq_true (above version last)
      rw [shape, reverse_append, reverse_singleton, singleton_append]
      simp only [List.find?_cons, found]

theorem getLast?_collect (watermark : Nat) (versions : List MvccVersion) :
    (collect watermark versions).getLast? = versions.getLast? := by
  unfold collect
  rw [List.getLast?_drop]
  have within : (versions.takeWhile (fun version => version.commitLsn ≤ watermark)).length ≤
      versions.length := (takeWhile_sublist _).length_le
  split
  · next _ =>
    have empty : versions = [] := eq_nil_of_length_eq_zero (by omega)
    rw [empty]
    rfl
  · rfl

theorem latest_gcVersions (mvcc : Mvcc) (watermark : Nat) (key : Bytes) :
    (mvcc.gcVersions watermark).latest key = mvcc.latest key := by
  unfold latest gcVersions
  rw [TreeMap.getElem?_map]
  cases mvcc[key]? with
  | none => rfl
  | some versions => exact getLast?_collect watermark versions

/-- Two maps whose latest versions agree for every key. -/
def SameLatest (left right : Mvcc) : Prop := ∀ key, left.latest key = right.latest key

/-- What every push of a batch preserves, the batch preserves. -/
theorem applyTxnBatch_related {related : Mvcc -> Mvcc -> Prop} (batch : WalBatch)
    (pushes : ∀ (left right : Mvcc) key value, related left right ->
      related (left.push key ⟨batch.endLsn, value⟩) (right.push key ⟨batch.endLsn, value⟩))
    (start : related left right) :
    related (left.applyTxnBatch batch) (right.applyTxnBatch batch) := by
  unfold applyTxnBatch
  split
  · generalize batch.records = records
    induction records generalizing left right with
    | nil => exact start
    | cons head tail ih =>
      refine ih ?_
      unfold applyRecord
      split
      · exact pushes _ _ _ _ start
      · exact pushes _ _ _ _ start
      · exact start
  · exact start

theorem SameLatest.applyTxnBatch (same : SameLatest left right) (batch : WalBatch) :
    SameLatest (left.applyTxnBatch batch) (right.applyTxnBatch batch) := by
  refine applyTxnBatch_related batch ?_ same
  intro left right _ _ same key
  rw [latest_push, latest_push, same key]

/-- The map that a sequence of batches leaves. -/
def ofBatches (batches : List WalBatch) : Mvcc := batches.foldl applyTxnBatch ∅

theorem ofBatches_concat (batches : List WalBatch) (batch : WalBatch) :
    ofBatches (batches ++ [batch]) = (ofBatches batches).applyTxnBatch batch :=
  foldl_concat _ _ _ _

theorem ofBatches_filter (batches : List WalBatch) :
    ofBatches (batches.filter WalBatch.isCommitted) = ofBatches batches := by
  unfold ofBatches
  generalize (∅ : Mvcc) = start
  induction batches generalizing start with
  | nil => rfl
  | cons head tail ih =>
    rw [foldl_cons]
    by_cases committed : head.isCommitted = true
    · rw [filter_cons_of_pos committed, foldl_cons]
      exact ih _
    · rw [filter_cons_of_neg committed, ih, applyTxnBatch, if_neg committed]

/-- No latest version lies above the bound. -/
def Below (bound : Nat) (mvcc : Mvcc) : Prop :=
  ∀ key version, mvcc.latest key = some version -> version.commitLsn ≤ bound

theorem Below.push (below : Below bound mvcc) (key : Bytes) {version : MvccVersion}
    (small : version.commitLsn ≤ bound) : Below bound (mvcc.push key version) := by
  intro other found stored
  rw [latest_push] at stored
  split at stored
  · cases stored
    exact small
  · exact below other found stored

theorem Below.applyTxnBatch (below : Below bound mvcc) {batch : WalBatch}
    (small : batch.endLsn ≤ bound) : Below bound (mvcc.applyTxnBatch batch) :=
  @applyTxnBatch_related mvcc mvcc (fun left _ => Below bound left) batch
    (fun _ _ _ _ below => below.push _ small) below

theorem below_ofBatches {batches : List WalBatch}
    (small : ∀ batch ∈ batches, batch.endLsn ≤ bound) :
    Below bound (ofBatches batches) := by
  induction batches using List.reverseRecOn with
  | nil =>
    intro _ _ found
    rw [ofBatches, foldl_nil, latest_empty] at found
    cases found
  | append_singleton _ last ih =>
    rw [ofBatches_concat]
    exact (ih (fun batch member => small batch (mem_append_left _ member))).applyTxnBatch
        (small last (mem_concat_self))

end Mvcc

end Storage
end ScaleKv
