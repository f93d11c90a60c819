import ScaleKv.Storage.AppendCalls
import ScaleKv.Storage.PageStore

namespace ScaleKv
namespace Storage

/-!
# The directory of a storage node and its opening

The directory of a node holds the page file, `checkpoint_state`, `wal_state`
and the log segments.  The buffer pool, the counters and the replay loop are in
memory, and opening a directory rebuilds them from the files.
-/

/-! ## Log segments -/

namespace WalBatch

/-- The length that `encode_wal_batch` writes in front of the frame. -/
def frameLen (batch : WalBatch) : Nat :=
  8 + 8 + 8 + 4 + (batch.records.map (fun record =>
    8 + 1 + 8 + 2 + 4 + 4 + record.key.length + record.value.length)).sum

end WalBatch

def maxWalFrameLen : Nat := 16 * 1024 * 1024

def maxSegmentSize : Nat := 64 * 1024 * 1024

/-- `read_wal_batch` at a frame that was written completely. -/
def readWalBatch (frame : WalBatch) : Result WalBatch :=
  if maxWalFrameLen < frame.frameLen then
    .error (.error (.io .invalidData
      s!"wal frame too large: {frame.frameLen} > {maxWalFrameLen} bytes"))
  else .ok frame

/-- A segment file with its synced frames. -/
structure Segment where
  fileId : Nat
  frames : List WalBatch

namespace Segment

def size (segment : Segment) : Nat := (segment.frames.map (fun frame => 4 + frame.frameLen)).sum

/-- `get_wal_segment_max_lsn`: the scan stops at the first frame that it cannot
read. -/
def maxLsn (segment : Segment) : Nat :=
  (segment.frames.takeWhile (fun frame => frame.frameLen ≤ maxWalFrameLen)).foldl
    (fun largest frame => if largest < frame.endLsn then frame.endLsn else largest) 0

/-- The condition under which `truncate_wal_segments` removes the segment. -/
def truncatable (segment : Segment) (checkpointLsn : Nat) : Bool :=
  0 < segment.maxLsn ∧ segment.maxLsn ≤ checkpointLsn

end Segment

/-! ## Replay into the page store -/

namespace PageStore

/-- `PageStore::get`. -/
def get (store : PageStore) (id : PageId) : Option PageImage :=
  (store.getWithLsn id).1.map Prod.fst

/-- Read a page, apply a record to it and put it back: what `apply_record` and
`replay_page_records` do for one record. -/
def redoRecord (store : PageStore) (record : WalRecord) : Result PageStore := do
  let page <- applyWalRecord ((store.get record.pageId).getD .zero).bytes record
  let image <- PageImage.ofSlice page
  return (store.getWithLsn record.pageId).2.put record.pageId image record.lsn

end PageStore

/-- `PageStoreReplay` as recovery uses it, with the file that
`update_last_applied` writes and the request index. -/
structure PageStoreReplay where
  store : PageStore
  lastApplied : Nat
  walState : Nat
  requestIndex : Std.TreeMap Nat Nat

namespace PageStoreReplay

def updateLastApplied (replay : PageStoreReplay) (lsn : Nat) : PageStoreReplay :=
  if replay.lastApplied < lsn then { replay with lastApplied := lsn, walState := lsn } else replay

def applyRecord (replay : PageStoreReplay) (record : WalRecord) : Result PageStoreReplay := do
  let store <- replay.store.redoRecord record
  return { replay with store := store }.updateLastApplied record.lsn

def recoverRecord (replay : PageStoreReplay) (record : WalRecord) : Result PageStoreReplay :=
  if record.lsn ≤ replay.lastApplied then .ok replay
  else if record.op.isTxn then .ok replay
  else replay.applyRecord record

def recoverFrame (replay : PageStoreReplay) (frame : WalBatch) : Result PageStoreReplay := do
  let batch <- readWalBatch frame
  batch.records.foldlM recoverRecord
    { replay with requestIndex := noteRequest replay.requestIndex batch }

/-- `replay_wal_segments_to_store`; the segments come in the order of their ids. -/
def replayWalSegmentsToStore (replay : PageStoreReplay) (segments : List Segment) :
    Result PageStoreReplay :=
  segments.foldlM (fun current segment => segment.frames.foldlM recoverFrame current) replay

end PageStoreReplay

/-! ## The node -/

/-- What a crash leaves behind. -/
structure Disk where
  pages : PageFile
  checkpointState : Nat
  walState : Nat
  segments : List Segment

/-- What `open_with_maintenance` has when the loops of a node start.  `archived`
lists the segments that are no longer written to and `current` the one that is. -/
structure StorageNode where
  store : PageStore
  walState : Nat
  archived : List Segment
  current : Segment
  size : Nat
  durableLsn : Nat
  lastApplied : Nat
  requestIndex : Std.TreeMap Nat Nat

namespace StorageNode

/-- `open_with_maintenance` on the files of a directory. -/
def openWithMaintenance (disk : Disk) : Result StorageNode := do
  let store := PageStore.opened disk.pages disk.checkpointState
  let lastApplied := max disk.walState store.checkpointLsn
  let replayed <- PageStoreReplay.replayWalSegmentsToStore
    { store := store, lastApplied := lastApplied, walState := disk.walState, requestIndex := ∅ }
    disk.segments
  let recovered := max replayed.walState lastApplied
  let current := disk.segments.getLast?.getD { fileId := 1, frames := [] }
  return {
    store := replayed.store
    walState := replayed.walState
    archived := disk.segments.dropLast
    current := current
    size := current.size
    durableLsn := recovered + 1
    lastApplied := recovered
    requestIndex := replayed.requestIndex }

end StorageNode

end Storage
end ScaleKv
