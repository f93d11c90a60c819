import ScaleKv.Storage.Wal
import ScaleKv.Foundation.OrderedMap

namespace ScaleKv
namespace Storage

/-!
# Two ways to replay the log

While a node runs, `wal_replay_loop` takes the batches from a channel, collects
the records of each page in a buffer of its own and applies a buffer once it
holds 8 KB.  When a node is opened, `replay_wal_segments_to_store` applies the
records of the segments one by one.

Both are modelled over the contents of the pages.  A page that the store does
not have is all zero here, which is what replay starts from in that case.
Checkpoints and truncation, which the live loop also triggers, do not change
what a page read returns and are not part of this module.
-/

/-- What reading a page gives, all zero when it is missing. -/
abbrev Pages := PageId -> PageImage

/-- `PageStoreReplay`: the page store and the last applied LSN.  `applied` lists
the records that were written to the page store; no function reads it. -/
structure Replay where
  pages : Pages
  lastApplied : Nat
  applied : List WalRecord

namespace Replay

def writePage (replay : Replay) (id : PageId) (page : Bytes) : Result Replay := do
  let image <- PageImage.ofSlice page
  return { replay with pages := Function.update replay.pages id image }

/-- `last_applied_lsn.fetch_max(lsn)`. -/
def updateLastApplied (replay : Replay) (lsn : Nat) : Replay :=
  { replay with lastApplied := max replay.lastApplied lsn }

def noteApplied (replay : Replay) (records : List WalRecord) : Replay :=
  { replay with applied := replay.applied ++ records }

/-- `PageStoreReplay::apply_record`. -/
def applyRecord (replay : Replay) (record : WalRecord) : Result Replay := do
  let page <- applyWalRecord (replay.pages record.pageId).bytes record
  let written <- replay.writePage record.pageId page
  return (written.updateLastApplied record.lsn).noteApplied [record]

/-- The loop body of `replay_wal_segments_to_store` for one record. -/
def recoverRecord (replay : Replay) (record : WalRecord) : Result Replay :=
  if record.lsn ≤ replay.lastApplied then .ok replay
  else if record.op.isTxn then .ok replay
  else replay.applyRecord record

def recover (replay : Replay) (batches : List WalBatch) : Result Replay :=
  batches.foldlM (fun current batch => batch.records.foldlM recoverRecord current) replay

end Replay

/-- The records that wait for a page. -/
structure ReplayBuffer where
  bytes : Nat
  records : List WalRecord

namespace ReplayBuffer

def new : ReplayBuffer := { bytes := 0, records := [] }

/-- The size with which a record counts in its buffer. -/
def recordSize (record : WalRecord) : Nat := record.key.length + record.value.length + 32

def push (buffer : ReplayBuffer) (record : WalRecord) : ReplayBuffer :=
  { bytes := buffer.bytes + recordSize record, records := buffer.records ++ [record] }

def shouldFlush (buffer : ReplayBuffer) : Bool := 8 * 1024 ≤ buffer.bytes

end ReplayBuffer

def maxLsn (records : List WalRecord) : Nat :=
  records.foldl (fun largest record => if largest < record.lsn then record.lsn else largest) 0

/-- `replay_page_records`. -/
def replayPageRecords (replay : Replay) (id : PageId) (records : List WalRecord) : Result Replay :=
  if records.isEmpty then .ok replay
  else do
    let page <- records.foldlM applyWalRecord (replay.pages id).bytes
    let written <- replay.writePage id page
    return (written.updateLastApplied (maxLsn records)).noteApplied records

/-- The variables of `wal_replay_loop`. -/
structure LiveReplay where
  replay : Replay
  buffers : Std.TreeMap PageId ReplayBuffer

namespace LiveReplay

def bufferOf (live : LiveReplay) (id : PageId) : ReplayBuffer :=
  live.buffers.getD id ReplayBuffer.new

def setBuffer (live : LiveReplay) (id : PageId) (buffer : ReplayBuffer) : LiveReplay :=
  { live with buffers := live.buffers.insert id buffer }

/-- Empty a buffer and apply its records.  An error is dropped together with
the records; a panic ends the loop. -/
def flush (live : LiveReplay) (id : PageId) : Result LiveReplay :=
  let emptied := live.setBuffer id ReplayBuffer.new
  match replayPageRecords live.replay id (live.bufferOf id).records with
  | .ok replay => .ok { emptied with replay := replay }
  | .error (.error _) => .ok emptied
  | .error .panicked => .error .panicked

def buffer (live : LiveReplay) (record : WalRecord) : Result LiveReplay :=
  let pushed := (live.bufferOf record.pageId).push record
  if pushed.shouldFlush then (live.setBuffer record.pageId pushed).flush record.pageId
  else .ok (live.setBuffer record.pageId pushed)

/-- The inner loop over the records of a batch. -/
def replayRecords (lastSeen : Nat) (live : LiveReplay) : List WalRecord -> Result LiveReplay
  | [] => .ok live
  | record :: rest =>
    if record.lsn ≤ lastSeen then replayRecords lastSeen live rest
    else if record.lsn ≠ lastSeen + 1 then .ok live
    else if record.op.isTxn then replayRecords record.lsn live rest
    else do
      let live <- live.buffer record
      replayRecords record.lsn live rest

/-- `last_seen` starts from the last applied LSN in every batch. -/
def replayBatch (live : LiveReplay) (batch : WalBatch) : Result LiveReplay :=
  live.replayRecords live.replay.lastApplied batch.records

/-- The loop, and the buffers that it flushes when the channel is closed. -/
def run (replay : Replay) (batches : List WalBatch) : Result LiveReplay := do
  let live <- batches.foldlM replayBatch { replay := replay, buffers := ∅ }
  live.buffers.keys.foldlM flush live

end LiveReplay

/-- Batches that pass the validation one after another. -/
def Accepted (durableLsn : Nat) : List WalBatch -> Prop
  | [] => True
  | batch :: rest => validateIncomingWalBatch durableLsn batch = .ok () ∧ Accepted batch.endLsn rest

/-! ## What the records do to the pages -/

/-- The effect of one record on the page contents. -/
def redo (pages : Pages) (record : WalRecord) : Result Pages :=
  if record.op.isTxn then .ok pages
  else do
    let page <- applyWalRecord (pages record.pageId).bytes record
    let image <- PageImage.ofSlice page
    return Function.update pages record.pageId image

def redoAll (pages : Pages) (batches : List WalBatch) : Result Pages :=
  (batches.flatMap WalBatch.records).foldlM redo pages

/-! ## When the live loop falls behind -/

/-- How much of each buffer is filled, and whether the last record went
straight through to its page. -/
structure Backlog where
  caughtUp : Bool
  waiting : Std.TreeMap PageId Nat

namespace Backlog

def none : Backlog := { caughtUp := true, waiting := ∅ }

def push (backlog : Backlog) (record : WalRecord) : Backlog :=
  if record.op.isTxn then { backlog with caughtUp := false }
  else
    let total := backlog.waiting.getD record.pageId 0 + ReplayBuffer.recordSize record
    if 8 * 1024 ≤ total then
      { caughtUp := true, waiting := backlog.waiting.insert record.pageId 0 }
    else { caughtUp := false, waiting := backlog.waiting.insert record.pageId total }

def after (backlog : Backlog) (records : List WalRecord) : Backlog := records.foldl push backlog

/-- The batches that the live loop takes in, and those that it drops. -/
def split (backlog : Backlog) : List WalBatch -> List WalBatch × List WalBatch
  | [] => ([], [])
  | batch :: rest =>
    if backlog.caughtUp then
      let later := (backlog.after batch.records).split rest
      (batch :: later.1, later.2)
    else ([], batch :: rest)

end Backlog

end Storage
end ScaleKv
