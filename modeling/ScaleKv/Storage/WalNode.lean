import ScaleKv.Storage.StorageNode
import ScaleKv.Storage.Mvcc

namespace ScaleKv
namespace Storage

/-!
# A storage node at work

The model follows one life of a node, in the steps between which a crash leaves
different files behind.  The batches have any records, the appends wait for replay
or do not, and an append or a flush may fail.  Slot records and transaction records
behave differently from images in one respect each: a slot record waits in the
buffer of its page until 8 KB have come together, and a transaction record is never
applied to a page, so that it does not move the last applied LSN.

Batches are accepted one after another: a call is made when the writer loop has
done with the one before.  The request index, which only the calls for page
images read, is left out.
-/

/-- A batch that fills its range. -/
def WalBatch.starting (startLsn : Nat) (records : List WalRecord) : WalBatch :=
  { requestId := 0
    startLsn := startLsn
    endLsn := startLsn + records.length
    records := records }

/-- Where the writer loop stands with a batch: its frame is written, it is
synced, or its end has been stored as `durable_lsn`. -/
inductive WriterStage
  | idle
  | appended (batch : WalBatch)
  | synced (batch : WalBatch)
  | published (batch : WalBatch)

def WriterStage.isIdle : WriterStage -> Bool
  | .idle => true
  | _ => false

/-- Where the replay loop goes on when a buffer has been flushed: with the other
records of its batch, or with the other buffers when the channel is closed. -/
inductive Resume
  | records (lastSeen : Nat) (rest : List WalRecord)
  | closing (rest : List PageId)

/-- Where the replay loop stands.  A flush puts the page, then stores the last
applied LSN, then writes `wal_state`. -/
inductive LoopStage
  | idle
  | running (resume : Resume)
  | flushing (id : PageId) (records : List WalRecord) (resume : Resume)
  | written (lsn : Nat) (resume : Resume)
  | stored (lsn : Nat) (resume : Resume)
  | ended

def Resume.isClosing : Resume -> Bool
  | .records _ _ => false
  | .closing _ => true

/-- The channel has been closed. -/
def LoopStage.isClosing : LoopStage -> Bool
  | .idle => false
  | .running resume => resume.isClosing
  | .flushing _ _ resume => resume.isClosing
  | .written _ resume => resume.isClosing
  | .stored _ resume => resume.isClosing
  | .ended => true

namespace PageStore

/-- `replay_page_records` up to the put. -/
def redoRecords (store : PageStore) (id : PageId) (records : List WalRecord) : Result PageStore := do
  let page <- records.foldlM applyWalRecord ((store.get id).getD .zero).bytes
  let image <- PageImage.ofSlice page
  return (store.getWithLsn id).2.put id image (Storage.maxLsn records)

end PageStore

/-- A storage node, at rest where nothing else is said.  The last five fields record
the past and are read by no step: the batches whose frames were flushed, those of failed calls whose frames
came into the log all the same, those that replay has taken in, those whose
calls returned, and the records that were put into the page store. -/
structure WalNode where
  store : PageStore
  walState : Nat
  archived : List Segment
  current : Segment
  size : Nat
  durableLsn : Nat
  lastApplied : Nat
  mvcc : Mvcc
  call : Option WalBatch := none
  writer : WriterStage := .idle
  channel : List WalBatch := []
  buffers : Std.TreeMap PageId ReplayBuffer := ∅
  loop : LoopStage := .idle
  accepted : List WalBatch := []
  failed : List WalBatch := []
  received : List WalBatch := []
  acknowledged : List WalBatch := []
  applied : List WalRecord := []

inductive WalNodeAction
  | appendWalBatch (sync : Bool) (batch : WalBatch)
  | appendFails (batch : WalBatch) (inFile : Bool)
  | flush
  | flushFails (inFile : Bool)
  | storeDurableLsn
  | handOver
  | acknowledge
  | receiveBatch
  | replayRecord
  | replayPage
  | updateLastApplied
  | writeWalState
  | close (order : List PageId)
  | maintain (action : PageStoreAction)
  | truncateWal (fileId : Nat)
  | gcMvcc (minReadLsn : Option Nat)

namespace WalNode

/-- `open_with_maintenance`: the pages as for any node, and the version map from
the frames of the segments. -/
def openWithMaintenance (disk : Disk) : Result WalNode := do
  let opened <- StorageNode.openWithMaintenance disk
  return {
    store := opened.store
    walState := opened.walState
    archived := opened.archived
    current := opened.current
    size := opened.size
    durableLsn := opened.durableLsn
    lastApplied := opened.lastApplied
    mvcc := Mvcc.ofBatches (disk.segments.flatMap Segment.frames) }

/-- The node on an empty directory. -/
def created : WalNode :=
  { store := PageStore.opened ∅ 0
    walState := 0
    archived := []
    current := { fileId := 1, frames := [] }
    size := 0
    durableLsn := 1
    lastApplied := 0
    mvcc := ∅ }

theorem openWithMaintenance_empty :
    openWithMaintenance { pages := ∅, checkpointState := 0, walState := 0, segments := [] } =
      .ok created := rfl

/-- The files of the node. -/
def disk (node : WalNode) : Disk :=
  { pages := node.store.file
    checkpointState := node.store.checkpointState
    walState := node.walState
    segments := node.archived ++ [node.current] }

/-- The first pages of a maintenance task that is writing when a crash comes. -/
def interrupted (node : WalNode) (writing : Option (TaskId × Nat)) : List (PageId × PageImage) :=
  writing.elim [] (fun task => (node.store.tasks[task.1]?.elim [] Task.toWrite).take task.2)

/-- The files after a crash, which may come while a task is writing. -/
def diskAfterCrash (node : WalNode) (writing : Option (TaskId × Nat)) : Disk :=
  { node.disk with pages := node.store.file.writePages (node.interrupted writing) }

/-- `txn_get`. -/
def txnGet (node : WalNode) (key : Bytes) (readLsn : Nat) : Option (Option Bytes) :=
  node.mvcc.getAt key readLsn

def rotateIfNeeded (node : WalNode) : WalNode :=
  if node.size < maxSegmentSize then node
  else
    { node with
      archived := node.archived ++ [node.current]
      current := { fileId := node.current.fileId + 1, frames := [] }
      size := 0 }

/-- The bytes of a frame are in the current segment. -/
def addFrame (node : WalNode) (batch : WalBatch) : WalNode :=
  { node with current := { node.current with frames := node.current.frames ++ [batch] } }

/-- The frame of a failed call, in the file or not. -/
def fail (node : WalNode) (batch : WalBatch) (inFile : Bool) : WalNode :=
  if inFile then { node.addFrame batch with failed := node.failed ++ [batch] } else node

/-- The frame of a batch is flushed. -/
def flushed (node : WalNode) (batch : WalBatch) : WalNode :=
  { node.addFrame batch with writer := .synced batch, accepted := node.accepted ++ [batch] }

/-- The records of a page have been put into the store. -/
def putRecords (node : WalNode) (store : PageStore) (records : List WalRecord) (resume : Resume) : WalNode :=
  { node with
    store := store
    applied := node.applied ++ records
    loop := .written (maxLsn records) resume }

/-- `truncate_wal_segments` for one file. -/
def truncated (node : WalNode) (fileId : Nat) : WalNode :=
  { node with archived := node.archived.filter (fun segment =>
      !(segment.fileId = fileId ∧ segment.truncatable node.store.checkpointLsn)) }

/-- A call is made on a node that is not being dropped, when no other call waits. -/
def ready (node : WalNode) : Bool :=
  node.call.isNone && node.writer.isIdle && !node.loop.isClosing

def bufferOf (node : WalNode) (id : PageId) : ReplayBuffer := node.buffers.getD id ReplayBuffer.new

def setBuffer (node : WalNode) (id : PageId) (buffer : ReplayBuffer) : WalNode :=
  { node with buffers := node.buffers.insert id buffer }

/-- Empty the buffer of a page and go on to apply its records. -/
def takeBuffer (node : WalNode) (id : PageId) (resume : Resume) : WalNode :=
  { node.setBuffer id ReplayBuffer.new with
    loop := .flushing id (node.bufferOf id).records resume }

/-- The loop puts a page record into the buffer of its page. -/
def bufferRecord (node : WalNode) (record : WalRecord) (rest : List WalRecord) : WalNode :=
  let pushed := (node.bufferOf record.pageId).push record
  if pushed.shouldFlush then
    (node.setBuffer record.pageId pushed).takeBuffer record.pageId (.records record.lsn rest)
  else { node.setBuffer record.pageId pushed with loop := .running (.records record.lsn rest) }

/-- One step.  `fetch_max` stores the last applied LSN only when it grows, and
only then is `wal_state` written.  The error of a flush is dropped together
with its records; a panic would end the loop. -/
def step (node : WalNode) : WalNodeAction -> Option WalNode
  | .appendWalBatch sync batch =>
    if node.ready then
      match validateIncomingWalBatch node.durableLsn batch with
      | .error _ => some node
      | .ok () =>
        let rotated := node.rotateIfNeeded
        if 2 ^ 32 ≤ batch.frameLen then some rotated
        else
          some { rotated with
            size := rotated.size + 4 + batch.frameLen
            call := if sync then some batch else none
            writer := .appended batch }
    else none
  | .appendFails batch inFile =>
    if node.ready then
      match validateIncomingWalBatch node.durableLsn batch with
      | .error _ => some node
      | .ok () => some (node.rotateIfNeeded.fail batch inFile)
    else none
  | .flush =>
    match node.writer with
    | .appended batch => some (node.flushed batch)
    | _ => none
  | .flushFails inFile =>
    match node.writer with
    | .appended batch => some { node.fail batch inFile with call := none, writer := .idle }
    | _ => none
  | .storeDurableLsn =>
    match node.writer with
    | .synced batch => some { node with durableLsn := batch.endLsn, writer := .published batch }
    | _ => none
  | .handOver =>
    match node.writer with
    | .published batch => some { node with channel := node.channel ++ [batch], writer := .idle }
    | _ => none
  | .acknowledge =>
    match node.call, node.writer with
    | some batch, .idle =>
      if batch.endLsn - 1 ≤ node.lastApplied then
        some { node with call := none, acknowledged := node.acknowledged ++ [batch] }
      else none
    | _, _ => none
  | .receiveBatch =>
    match node.loop, node.channel with
    | .idle, batch :: rest =>
      some { node with
        channel := rest
        mvcc := node.mvcc.applyTxnBatch batch
        received := node.received ++ [batch]
        loop := .running (.records node.lastApplied batch.records) }
    | _, _ => none
  | .replayRecord =>
    match node.loop with
    | .running (.records _ []) => some { node with loop := .idle }
    | .running (.records lastSeen (record :: rest)) =>
      if record.lsn ≤ lastSeen then
        some { node with loop := .running (.records lastSeen rest) }
      else if record.lsn ≠ lastSeen + 1 then some { node with loop := .idle }
      else if record.op.isTxn then
        some { node with loop := .running (.records record.lsn rest) }
      else some (node.bufferRecord record rest)
    | .running (.closing []) => some { node with loop := .ended }
    | .running (.closing (id :: rest)) => some (node.takeBuffer id (.closing rest))
    | _ => none
  | .replayPage =>
    match node.loop with
    | .flushing _ [] resume => some { node with loop := .running resume }
    | .flushing id records resume =>
      match node.store.redoRecords id records with
      | .ok store => some (node.putRecords store records resume)
      | .error (.error _) => some { node with loop := .running resume }
      | .error .panicked => none
    | _ => none
  | .updateLastApplied =>
    match node.loop with
    | .written lsn resume =>
      if node.lastApplied < lsn then
        some { node with lastApplied := lsn, loop := .stored lsn resume }
      else some { node with loop := .running resume }
    | _ => none
  | .writeWalState =>
    match node.loop with
    | .stored lsn resume => some { node with walState := lsn, loop := .running resume }
    | _ => none
  | .close order =>
    match node.writer, node.channel, node.loop with
    | .idle, [], .idle =>
      if node.call.isNone ∧ order.Perm node.buffers.keys then
        some { node with loop := .running (.closing order) }
      else none
    | _, _, _ => none
  | .maintain action =>
    if action.isPut then none
    else (node.store.step action).map (fun store => { node with store := store })
  | .truncateWal fileId => some (node.truncated fileId)
  | .gcMvcc minReadLsn =>
    some { node with
      mvcc := node.mvcc.gcVersions (min (minReadLsn.getD node.durableLsn) node.durableLsn) }

/-- The pages that a step writes to the page file. -/
def fileWrites (node : WalNode) : WalNodeAction -> List (PageId × PageImage)
  | .maintain action => node.store.fileWrites action
  | _ => []

end WalNode

end Storage
end ScaleKv
