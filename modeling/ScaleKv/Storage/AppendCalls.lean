import ScaleKv.Storage.Replay
import ScaleKv.Foundation.Run

namespace ScaleKv
namespace Storage

/-!
# Concurrent append calls on a storage node

A synchronous append validates its batch against `durable_lsn`, checks the log
limits, takes the sender lock, hands the batch to the writer loop and keeps the
lock until replay has reached its last LSN.  The validation comes before the
lock and is not repeated behind it.

The writer loop takes a group of waiting requests, appends and syncs their
frames, stores the largest end as the new `durable_lsn` and passes the batches
on to the replay loop.  Checkpoints and truncation, which the limit check may
run, touch none of this and are left out.
-/

abbrev CallId := Nat

/-- Where a call stands.  `flushed` means that its frame is synced and
`durable_lsn` not yet stored; `handed` waits for the replay loop. -/
inductive CallPhase
  | validated
  | sent
  | flushed
  | handed
  | acknowledged
  | repeated (commitLsn : Nat)
  | refused (error : Error)

/-- What `append_wal_batch_sync` makes of a batch before it takes the lock. -/
def startPhase (durableLsn : Nat) (batch : WalBatch) : CallPhase :=
  match validateIncomingWalBatch durableLsn batch with
  | .ok () => .validated
  | .error error => .refused error

/-- The records of a transaction batch, numbered from its start. -/
def imageRecords (startLsn : Nat) : List (PageId × PageImage) -> List WalRecord
  | [] => []
  | write :: rest => .ofImage startLsn write.1 write.2 :: imageRecords (startLsn + 1) rest

def txnBatch (requestId startLsn endLsn : Nat) (writes : List (PageId × PageImage)) : WalBatch :=
  { requestId := requestId
    startLsn := startLsn
    endLsn := endLsn
    records := imageRecords startLsn writes }

/-- The same for `append_txn_batch_with_lsn_sync`; its writes have the page
size, another size is refused like an empty batch. -/
def startTxnPhase (requestIndex : Std.TreeMap Nat Nat) (durableLsn requestId startLsn endLsn : Nat)
    (writes : List (PageId × PageImage)) : CallPhase :=
  if requestId ≠ 0 ∧ requestIndex.contains requestId then
    .repeated (requestIndex.getD requestId 0)
  else if writes.isEmpty then
    .refused (.io .invalidInput "txn batch must be non-empty")
  else if endLsn ≠ startLsn + writes.length then
    .refused (.io .invalidInput
      s!"txn batch end_lsn mismatch: got={endLsn} expected={startLsn + writes.length}")
  else startPhase durableLsn (txnBatch requestId startLsn endLsn writes)

/-- The replay loop notes the request of every batch that it takes in. -/
def noteRequest (index : Std.TreeMap Nat Nat) (batch : WalBatch) : Std.TreeMap Nat Nat :=
  if batch.requestId ≠ 0 then index.insert batch.requestId batch.endLsn else index

/-- A call; `txn` tells `append_txn_batch_with_lsn_sync` from
`append_wal_batch_sync`. -/
structure AppendCall where
  txn : Bool
  batch : WalBatch
  phase : CallPhase

/-- A storage node as far as appends are concerned.  The last three fields
record the past and are read by no step: the batches in the order of their
acknowledgement, the pages with every replayed record applied, and the fill of
the replay buffers. -/
structure AppendNode where
  durableLsn : Nat
  sender : Option CallId
  queue : List CallId
  group : List CallId
  log : List WalBatch
  channel : List WalBatch
  live : LiveReplay
  requestIndex : Std.TreeMap Nat Nat
  calls : Std.TreeMap CallId AppendCall
  acknowledged : List WalBatch
  logical : Pages
  backlog : Backlog

inductive AppendAction
  | appendTxnBatch (id : CallId) (requestId startLsn endLsn : Nat) (writes : List (PageId × PageImage))
  | appendWalBatch (id : CallId) (batch : WalBatch)
  | refuseByLimit (id : CallId) (segments bytes maxSegments maxBytes : Nat)
  | send (id : CallId)
  | writeGroup (size : Nat)
  | storeDurableLsn
  | replay
  | acknowledge (id : CallId)

namespace AppendNode

/-- The node right after it was opened. -/
def opened (replay : Replay) : AppendNode :=
  { durableLsn := replay.lastApplied + 1
    sender := none
    queue := []
    group := []
    log := []
    channel := []
    live := { replay := replay, buffers := ∅ }
    requestIndex := ∅
    calls := ∅
    acknowledged := []
    logical := replay.pages
    backlog := .none }

def setCall (node : AppendNode) (id : CallId) (call : AppendCall) : AppendNode :=
  { node with calls := node.calls.insert id call }

def setPhase (node : AppendNode) (id : CallId) (phase : CallPhase) : AppendNode :=
  match node.calls[id]? with
  | some call => node.setCall id { call with phase := phase }
  | none => node

def batchesOf (node : AppendNode) (ids : List CallId) : List WalBatch :=
  ids.filterMap (fun id => node.calls[id]?.map AppendCall.batch)

def redoLogical (pages : Pages) (records : List WalRecord) : Pages :=
  match records.foldlM redo pages with
  | .ok redone => redone
  | .error _ => pages

/-- One step.  A group consists of the requests that the writer finds in its
queue; how many it waits for is a matter of timing. -/
def step (node : AppendNode) : AppendAction -> Option AppendNode
  | .appendTxnBatch id requestId startLsn endLsn writes =>
    if node.calls.contains id then none
    else some (node.setCall id ⟨true, txnBatch requestId startLsn endLsn writes,
      startTxnPhase node.requestIndex node.durableLsn requestId startLsn endLsn writes⟩)
  | .appendWalBatch id batch =>
    if node.calls.contains id then none
    else some (node.setCall id ⟨false, batch, startPhase node.durableLsn batch⟩)
  | .refuseByLimit id segments bytes maxSegments maxBytes => do
      match <- node.calls[id]? with
      | ⟨txn, batch, .validated⟩ =>
        return node.setCall id ⟨txn, batch, .refused (.io .wouldBlock
          s!"wal backpressure: segments={segments} bytes={bytes} limits=(segments:{maxSegments} bytes:{maxBytes})")⟩
      | _ => none
  | .send id => do
      match <- node.calls[id]? with
      | ⟨txn, batch, .validated⟩ =>
        if node.sender = none then
          return { node.setCall id ⟨txn, batch, .sent⟩ with
            sender := some id
            queue := node.queue ++ [id] }
        else none
      | _ => none
  | .writeGroup size =>
    if node.group = [] ∧ node.queue ≠ [] ∧ 0 < size then
      let taken := node.queue.take size
      some { taken.foldl (fun current id => current.setPhase id .flushed) node with
        queue := node.queue.drop size
        group := taken
        log := node.log ++ node.batchesOf taken }
    else none
  | .storeDurableLsn =>
    if node.group = [] then none
    else
      some { node.group.foldl (fun current id => current.setPhase id .handed) node with
        durableLsn := (node.batchesOf node.group).foldl (fun largest batch => max largest batch.endLsn) 0
        channel := node.channel ++ node.batchesOf node.group
        group := [] }
  | .replay =>
    match node.channel with
    | [] => none
    | batch :: rest =>
      match node.live.replayBatch batch with
      | .error _ => none
      | .ok live =>
        some { node with
          channel := rest
          live := live
          requestIndex := noteRequest node.requestIndex batch
          logical := redoLogical node.logical batch.records
          backlog := if node.backlog.caughtUp then node.backlog.after batch.records
            else node.backlog }
  | .acknowledge id => do
      match <- node.calls[id]? with
      | ⟨txn, batch, .handed⟩ =>
        if batch.endLsn - 1 ≤ node.live.replay.lastApplied then
          return { node.setCall id ⟨txn, batch, .acknowledged⟩ with
            sender := none
            requestIndex := if txn then noteRequest node.requestIndex batch
              else node.requestIndex
            acknowledged := node.acknowledged ++ [batch] }
        else none
      | _ => none

end AppendNode

end Storage
end ScaleKv
