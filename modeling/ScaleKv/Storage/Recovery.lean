import ScaleKv.Storage.StorageNode
import ScaleKv.Storage.PageStoreSafety
import ScaleKv.Storage.AppendSafety

namespace ScaleKv
namespace Storage

open Foundation List Function OrderedMap RawPageFile

/-!
# What recovery makes of a directory

Recovery skips every record up to the larger one of `wal_state` and
`checkpoint_state` and redoes the others into the buffer pool.  It writes nothing
to the page file, and it fails at the first frame above 16 MiB.
-/

variable {id : PageId}

namespace PageStore

/-! ## Reads and redo -/

theorem get_eq (store : PageStore) (id : PageId) :
    store.get id = (store.pool[id]?.map BufferPage.data).or (store.file.readPage id) := by
  unfold get getWithLsn
  cases store.pool[id]? with
  | some => rfl
  | none => simp [comp_def]

theorem getWithLsn_file (store : PageStore) (id : PageId) :
    (store.getWithLsn id).2.file = store.file := by
  unfold getWithLsn
  split <;> rfl

theorem getFrom_eq {store : PageStore} {bytes : RawPageFile} (holds : RawPageFile.Holds bytes store.file)
    (addressable : Addressable id) : store.getFrom bytes id = store.get id := by
  rw [get_eq, getFrom, holds.readPage addressable]

theorem get_getWithLsn (store : PageStore) (touched id : PageId) :
    (store.getWithLsn touched).2.get id = store.get id := by
  rw [get_eq, get_eq]
  unfold getWithLsn
  cases lookup : store.pool[touched]? with
  | none => rfl
  | some =>
    rw [lookup_insert]
    by_cases same : touched = id
    · subst same
      rw [if_pos rfl, lookup]
      rfl
    · rw [if_neg same]

theorem get_put (store : PageStore) (written id : PageId) (image : PageImage) (lsn : Nat) :
    (store.put written image lsn).get id = if written = id then some image else store.get id := by
  rw [get_eq, get_eq]
  unfold put
  rw [lookup_insert]
  split <;> rfl

theorem redoRecord_ofImage (store : PageStore) (lsn : Nat) (id : PageId) (image : PageImage) :
    store.redoRecord (.ofImage lsn id image) =
      .ok ((store.getWithLsn id).2.put id image lsn) := by
  unfold redoRecord
  rw [applyWalRecord_ofImage]
  have sized : PageImage.ofSlice image.bytes = .ok image := PageImage.ofSlice_eq_ok.mpr rfl
  simp only [bind, Except.bind, sized]
  rfl

end PageStore

/-! ## Recovery -/

/-- The record of a page image. -/
def WalRecord.IsImage (record : WalRecord) : Prop :=
  ∃ image : PageImage, record = .ofImage record.lsn record.pageId image

namespace PageStoreReplay

theorem recoverFrame_eq {frame : WalBatch} (short : frame.frameLen ≤ maxWalFrameLen)
    (replay : PageStoreReplay) :
    replay.recoverFrame frame = frame.records.foldlM recoverRecord
      { replay with requestIndex := noteRequest replay.requestIndex frame } := by
  unfold recoverFrame readWalBatch
  rw [if_neg (not_lt.mpr short)]
  rfl

theorem recoverFrame_eq_ok {replay after : PageStoreReplay} {frame : WalBatch} :
    replay.recoverFrame frame = .ok after <-> frame.frameLen ≤ maxWalFrameLen ∧
      frame.records.foldlM recoverRecord
        { replay with requestIndex := noteRequest replay.requestIndex frame } = .ok after := by
  by_cases short : frame.frameLen ≤ maxWalFrameLen
  · rw [recoverFrame_eq short, and_iff_right short]
  · simp [recoverFrame, readWalBatch, short, not_le.mp short, bind, Except.bind]

/-- What recovery has made of the records that it has read: those above the
last applied LSN that was found, and the page file below them. -/
structure Recovered (found : Nat) (file : PageFile) (read : List WalRecord)
    (replay : PageStoreReplay) : Prop where
  sameFile : replay.store.file = file
  content : ∀ id, (replay.store.get id).map PageImage.bytes =
    ((read.filter (fun record => record.pageId = id ∧ found < record.lsn)).getLast?.map
      WalRecord.value).or ((file.readPage id).map PageImage.bytes)
  lastApplied : ∀ lsn, (∀ record ∈ read, record.lsn < lsn) ->
    (lsn ≤ replay.lastApplied <-> lsn ≤ found)

section Recover

variable {found : Nat} {file : PageFile} {read : List WalRecord} {replay : PageStoreReplay}

theorem recovered_opened (pages : PageFile) (checkpointState lastApplied walState : Nat)
    (requestIndex : Std.TreeMap Nat Nat) :
    Recovered lastApplied pages []
      { store := PageStore.opened pages checkpointState
        lastApplied := lastApplied
        walState := walState
        requestIndex := requestIndex } where
  sameFile := rfl
  content := by
    intro _
    rw [PageStore.get_eq]
    simp [PageStore.opened]
  lastApplied := fun _ _ => Iff.rfl

theorem Recovered.skip {record : WalRecord} (recovered : Recovered found file read replay)
    (old : record.lsn ≤ found) : Recovered found file (read ++ [record]) replay where
  sameFile := recovered.sameFile
  content := by
    intro id
    rw [filter_append, filter_cons_of_neg (by simp; omega), filter_nil,
      append_nil]
    exact recovered.content id
  lastApplied := fun lsn above => recovered.lastApplied lsn
    (fun other member => above other (mem_append_left _ member))

theorem applyRecord_ofImage {lsn : Nat} (ahead : replay.lastApplied < lsn) (id : PageId)
    (image : PageImage) :
    replay.applyRecord (.ofImage lsn id image) =
      .ok { replay with
        store := (replay.store.getWithLsn id).2.put id image lsn
        lastApplied := lsn
        walState := lsn } := by
  unfold applyRecord
  rw [PageStore.redoRecord_ofImage]
  exact congrArg Except.ok (if_pos ahead)

section

variable (recovered : Recovered found file read replay)

include recovered

theorem Recovered.apply {lsn : Nat} {image : PageImage} (new : found < lsn)
    (ahead : replay.lastApplied < lsn) :
    ∃ after, replay.applyRecord (.ofImage lsn id image) = .ok after ∧
      Recovered found file (read ++ [.ofImage lsn id image]) after := by
  refine ⟨_, applyRecord_ofImage ahead id image, ?_, ?_, ?_⟩
  · exact (PageStore.getWithLsn_file _ id).trans recovered.sameFile
  · intro other
    rw [PageStore.get_put, PageStore.get_getWithLsn, filter_append]
    by_cases same : id = other
    · rw [if_pos same, filter_cons_of_pos (by simp [WalRecord.ofImage, same, new])]
      simp [WalRecord.ofImage]
    · rw [if_neg same, filter_cons_of_neg (by simp [WalRecord.ofImage, same]),
        filter_nil, append_nil]
      exact recovered.content other
  · intro next above
    have below : lsn < next := above (.ofImage lsn id image) (by simp)
    dsimp only
    omega

theorem Recovered.record {record : WalRecord} (isImage : record.IsImage)
    (above : ∀ other ∈ read, other.lsn < record.lsn) :
    ∃ after, replay.recoverRecord record = .ok after ∧
      Recovered found file (read ++ [record]) after := by
  have decides := recovered.lastApplied record.lsn above
  unfold recoverRecord
  by_cases old : record.lsn ≤ found
  · rw [if_pos (decides.mpr old)]
    exact ⟨replay, rfl, recovered.skip old⟩
  · have ahead : ¬ record.lsn ≤ replay.lastApplied := fun le => old (decides.mp le)
    rcases isImage with ⟨_, shape⟩
    rw [if_neg ahead]
    rw [shape] at ahead old ⊢
    rw [if_neg (by simp [WalRecord.ofImage, WalOp.isTxn])]
    exact recovered.apply (not_le.mp old) (not_le.mp ahead)

theorem Recovered.records {records : List WalRecord}
    (images : ∀ record ∈ records, record.IsImage)
    (ascending : (read ++ records).Pairwise (fun left right => left.lsn < right.lsn)) :
    ∃ after, records.foldlM recoverRecord replay = .ok after ∧
      Recovered found file (read ++ records) after := by
  induction records generalizing read replay with
  | nil => exact ⟨replay, rfl, by rw [append_nil]; exact recovered⟩
  | cons head tail ih =>
    have above : ∀ other ∈ read, other.lsn < head.lsn := fun other member =>
      (pairwise_append.mp ascending).2.2 other member head mem_cons_self
    rcases recovered.record (images head mem_cons_self) above with ⟨_, taken, held⟩
    rw [append_cons] at ascending ⊢
    rw [foldlM_cons, taken]
    exact ih held
      (fun record member => images record (mem_cons_of_mem _ member)) ascending

theorem Recovered.frames {frames : List WalBatch}
    (readable : ∀ frame ∈ frames, frame.frameLen ≤ maxWalFrameLen)
    (images : ∀ record ∈ frames.flatMap WalBatch.records, record.IsImage)
    (ascending : (read ++ frames.flatMap WalBatch.records).Pairwise
      (fun left right => left.lsn < right.lsn)) :
    ∃ after, frames.foldlM recoverFrame replay = .ok after ∧
      Recovered found file (read ++ frames.flatMap WalBatch.records) after := by
  induction frames generalizing read replay with
  | nil =>
    rw [flatMap_nil, append_nil]
    exact ⟨replay, rfl, recovered⟩
  | cons head tail ih =>
    rw [flatMap_cons] at images ascending ⊢
    rw [← append_assoc] at ascending ⊢
    have noted : Recovered found file read
        { replay with requestIndex := noteRequest replay.requestIndex head } :=
      { recovered with }
    rcases noted.records (fun record member => images record (mem_append_left _ member))
      (pairwise_append.mp ascending).1 with ⟨_, taken, held⟩
    rw [foldlM_cons, recoverFrame_eq_ok.mpr ⟨readable head mem_cons_self, taken⟩]
    exact ih held
      (fun other member => readable other (mem_cons_of_mem _ member))
      (fun record member => images record (mem_append_right _ member)) ascending

end

end Recover

theorem replayWalSegmentsToStore_eq (replay : PageStoreReplay) (segments : List Segment) :
    replay.replayWalSegmentsToStore segments =
      (segments.flatMap Segment.frames).foldlM recoverFrame replay := by
  unfold replayWalSegmentsToStore
  induction segments generalizing replay with
  | nil => rfl
  | cons head tail ih =>
    rw [foldlM_cons, flatMap_cons, foldlM_append]
    exact bind_congr (fun middle => ih middle)

variable {replay after : PageStoreReplay} {abstract : Replay}

theorem readable_of_recoverFrames {frames : List WalBatch}
    (replayed : frames.foldlM recoverFrame replay = .ok after) :
    ∀ frame ∈ frames, frame.frameLen ≤ maxWalFrameLen := by
  induction frames generalizing replay with
  | nil => exact fun frame member => absurd member not_mem_nil
  | cons head tail ih =>
    rw [foldlM_cons] at replayed
    rcases bind_eq_ok.mp replayed with ⟨_, first, rest⟩
    exact forall_mem_cons.mpr ⟨(recoverFrame_eq_ok.mp first).1, ih rest⟩

/-- Recovery into the page store is recovery over the page contents. -/
structure Refines (replay : PageStoreReplay) (abstract : Replay) : Prop where
  pages : ∀ id, abstract.pages id = (replay.store.get id).getD .zero
  lastApplied : abstract.lastApplied = replay.lastApplied

theorem Refines.record {record : WalRecord} (refines : replay.Refines abstract)
    (recovered : replay.recoverRecord record = .ok after) :
    ∃ result, abstract.recoverRecord record = .ok result ∧ after.Refines result := by
  unfold recoverRecord at recovered
  unfold Replay.recoverRecord
  rw [refines.lastApplied]
  split at recovered
  · next old =>
    cases recovered
    exact ⟨abstract, if_pos old, refines⟩
  · next new =>
    rw [if_neg new]
    split at recovered
    · next txn =>
      cases recovered
      exact ⟨abstract, if_pos txn, refines⟩
    · next page =>
      rw [if_neg page]
      rcases bind_eq_ok.mp recovered with ⟨_, redone, shape⟩
      rcases bind_eq_ok.mp redone with ⟨_, applied, rest⟩
      rcases bind_eq_ok.mp rest with ⟨_, sized, put⟩
      cases put
      have ahead : replay.lastApplied < record.lsn := not_le.mp new
      simp only [updateLastApplied, if_pos ahead] at shape
      cases shape
      unfold Replay.applyRecord Replay.writePage
      rw [refines.pages, applied]
      simp only [bind, Except.bind, sized]
      refine ⟨_, rfl, ?_, ?_⟩
      · intro id
        rw [PageStore.get_put, PageStore.get_getWithLsn]
        simp only [Replay.noteApplied, Replay.updateLastApplied]
        by_cases same : record.pageId = id
        · subst same
          rw [update_self, if_pos rfl]
          rfl
        · rw [update_of_ne (Ne.symm same), if_neg same]
          exact refines.pages id
      · simp only [Replay.noteApplied, Replay.updateLastApplied, refines.lastApplied]
        exact max_eq_right (le_of_lt ahead)

end PageStoreReplay

namespace StorageNode

/-- All records whose frames were flushed, in the order of the log. -/
def logged (flushed : List WalBatch) : List WalRecord := flushed.flatMap WalBatch.records

theorem logged_append (first second : List WalBatch) :
    logged (first ++ second) = logged first ++ logged second := flatMap_append

theorem logged_singleton (batch : WalBatch) : logged [batch] = batch.records :=
  flatMap_singleton _ _

/-- The LSN from which recovery starts. -/
def recoveryLsn (disk : Disk) : Nat := max disk.walState disk.checkpointState

def survivingFrames (disk : Disk) : List WalBatch := disk.segments.flatMap Segment.frames

variable {disk : Disk}

theorem openWithMaintenance_spec
    (readable : ∀ frame ∈ survivingFrames disk, frame.frameLen ≤ maxWalFrameLen)
    (images : ∀ record ∈ logged (survivingFrames disk), record.IsImage)
    (ascending : (logged (survivingFrames disk)).Pairwise
      (fun left right => left.lsn < right.lsn)) :
    ∃ reopened, openWithMaintenance disk = .ok reopened ∧ reopened.store.file = disk.pages ∧
      ∀ id, (reopened.store.get id).map PageImage.bytes =
        (((logged (survivingFrames disk)).filter
          (fun record => record.pageId = id ∧ recoveryLsn disk < record.lsn)).getLast?.map
            WalRecord.value).or ((disk.pages.readPage id).map PageImage.bytes) := by
  rcases (PageStoreReplay.recovered_opened disk.pages disk.checkpointState (recoveryLsn disk)
    disk.walState ∅).frames readable images ascending with ⟨_, replayed, recovered⟩
  have segments := (PageStoreReplay.replayWalSegmentsToStore_eq _ disk.segments).trans replayed
  refine ⟨_, congrArg (· >>= _) segments, recovered.sameFile, ?_⟩
  rw [nil_append] at recovered
  exact recovered.content

theorem readable_of_openWithMaintenance {reopened : StorageNode}
    (opened : openWithMaintenance disk = .ok reopened) :
    ∀ frame ∈ survivingFrames disk, frame.frameLen ≤ maxWalFrameLen := by
  rcases bind_eq_ok.mp opened with ⟨_, recovered, _⟩
  rw [PageStoreReplay.replayWalSegmentsToStore_eq] at recovered
  exact PageStoreReplay.readable_of_recoverFrames recovered

end StorageNode

end Storage
end ScaleKv
