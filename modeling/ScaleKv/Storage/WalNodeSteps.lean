import ScaleKv.Storage.WalNode
import ScaleKv.Storage.Recovery

namespace ScaleKv
namespace Storage

open Foundation

/-!
# What one step of a storage node can do

`WalNode.Moves` lists the outcomes of a step with the conditions under which
each of them happens.  Every invariant below is proved from this list, and not
from the step function.
-/

namespace WalNode

/-- A record that fills the buffer of its page is taken out again with the others. -/
def filled (node : WalNode) (record : WalRecord) (resume : Resume) : WalNode :=
  { node with
    buffers := (node.buffers.insert record.pageId
      ((node.bufferOf record.pageId).push record)).insert record.pageId ReplayBuffer.new
    loop := .flushing record.pageId ((node.bufferOf record.pageId).records ++ [record]) resume }

inductive Moves (node : WalNode) : WalNodeAction -> WalNode -> Prop
  | refuses {action} (nothing : node.fileWrites action = []) : Moves node action node
  | rotates {sync batch} (ready : node.ready = true) :
      Moves node (.appendWalBatch sync batch) node.rotateIfNeeded
  | appends {sync batch} (ready : node.ready = true)
      (valid : validateIncomingWalBatch node.durableLsn batch = .ok ()) :
      Moves node (.appendWalBatch sync batch)
        { node.rotateIfNeeded with
          size := node.rotateIfNeeded.size + 4 + batch.frameLen
          call := if sync then some batch else none
          writer := .appended batch }
  | appendFails {batch inFile} (ready : node.ready = true)
      (valid : validateIncomingWalBatch node.durableLsn batch = .ok ()) :
      Moves node (.appendFails batch inFile) (node.rotateIfNeeded.fail batch inFile)
  | flushes {batch} (writer : node.writer = .appended batch) :
      Moves node .flush (node.flushed batch)
  | flushFails {batch inFile} (writer : node.writer = .appended batch) :
      Moves node (.flushFails inFile) { node.fail batch inFile with call := none, writer := .idle }
  | publishes {batch} (writer : node.writer = .synced batch) :
      Moves node .storeDurableLsn
        { node with durableLsn := batch.endLsn, writer := .published batch }
  | handsOver {batch} (writer : node.writer = .published batch) :
      Moves node .handOver { node with channel := node.channel ++ [batch], writer := .idle }
  | acknowledges {batch} (call : node.call = some batch) (writer : node.writer = .idle)
      (reached : batch.endLsn - 1 ≤ node.lastApplied) :
      Moves node .acknowledge
        { node with call := none, acknowledged := node.acknowledged ++ [batch] }
  | receives {batch rest} (loop : node.loop = .idle)
      (channel : node.channel = batch :: rest) :
      Moves node .receiveBatch
        { node with
          channel := rest
          mvcc := node.mvcc.applyTxnBatch batch
          received := node.received ++ [batch]
          loop := .running (.records node.lastApplied batch.records) }
  | endsBatch {lastSeen} (loop : node.loop = .running (.records lastSeen [])) :
      Moves node .replayRecord { node with loop := .idle }
  | skips {lastSeen record rest}
      (loop : node.loop = .running (.records lastSeen (record :: rest)))
      (old : record.lsn ≤ lastSeen) :
      Moves node .replayRecord { node with loop := .running (.records lastSeen rest) }
  | breaksOff {lastSeen record rest}
      (loop : node.loop = .running (.records lastSeen (record :: rest)))
      (gap : lastSeen + 1 < record.lsn) :
      Moves node .replayRecord { node with loop := .idle }
  | passes {lastSeen record rest}
      (loop : node.loop = .running (.records lastSeen (record :: rest)))
      (follows : record.lsn = lastSeen + 1) (txn : record.op.isTxn = true) :
      Moves node .replayRecord { node with loop := .running (.records record.lsn rest) }
  | waits {lastSeen record rest}
      (loop : node.loop = .running (.records lastSeen (record :: rest)))
      (follows : record.lsn = lastSeen + 1) (page : record.op.isTxn = false)
      (short : ((node.bufferOf record.pageId).push record).shouldFlush = false) :
      Moves node .replayRecord
        { node.setBuffer record.pageId ((node.bufferOf record.pageId).push record) with
          loop := .running (.records record.lsn rest) }
  | fills {lastSeen record rest}
      (loop : node.loop = .running (.records lastSeen (record :: rest)))
      (follows : record.lsn = lastSeen + 1) (page : record.op.isTxn = false)
      (full : ((node.bufferOf record.pageId).push record).shouldFlush = true) :
      Moves node .replayRecord (node.filled record (.records record.lsn rest))
  | ends (loop : node.loop = .running (.closing [])) :
      Moves node .replayRecord { node with loop := .ended }
  | takes {id rest} (loop : node.loop = .running (.closing (id :: rest))) :
      Moves node .replayRecord (node.takeBuffer id (.closing rest))
  | hasNothing {id resume} (loop : node.loop = .flushing id [] resume) :
      Moves node .replayPage { node with loop := .running resume }
  | redoes {id records resume store}
      (loop : node.loop = .flushing id records resume) (some : records ≠ [])
      (redone : node.store.redoRecords id records = .ok store) :
      Moves node .replayPage (node.putRecords store records resume)
  | redoFails {id records resume error}
      (loop : node.loop = .flushing id records resume)
      (failed : node.store.redoRecords id records = .error (.error error)) :
      Moves node .replayPage { node with loop := .running resume }
  | raises {lsn resume} (loop : node.loop = .written lsn resume)
      (higher : node.lastApplied < lsn) :
      Moves node .updateLastApplied { node with lastApplied := lsn, loop := .stored lsn resume }
  | keeps {lsn resume} (loop : node.loop = .written lsn resume)
      (lower : lsn ≤ node.lastApplied) :
      Moves node .updateLastApplied { node with loop := .running resume }
  | writesState {lsn resume} (loop : node.loop = .stored lsn resume) :
      Moves node .writeWalState { node with walState := lsn, loop := .running resume }
  | closes {order} (writer : node.writer = .idle) (channel : node.channel = [])
      (loop : node.loop = .idle) (listed : order.Perm node.buffers.keys) :
      Moves node (.close order) { node with loop := .running (.closing order) }
  | maintains {action store} (notPut : action.isPut = false)
      (stepped : node.store.step action = some store) :
      Moves node (.maintain action) { node with store := store }
  | truncates {fileId} :
      Moves node (.truncateWal fileId) (node.truncated fileId)
  | collects {minReadLsn} :
      Moves node (.gcMvcc minReadLsn)
        { node with
          mvcc := node.mvcc.gcVersions (min (minReadLsn.getD node.durableLsn) node.durableLsn) }

section MovesOfStep

variable {node next : WalNode}

theorem bufferOf_setBuffer (node : WalNode) (written id : PageId) (buffer : ReplayBuffer) :
    (node.setBuffer written buffer).bufferOf id =
      if written = id then buffer else node.bufferOf id := by
  unfold bufferOf setBuffer
  simp only [Std.TreeMap.getD_eq_getD_getElem?, OrderedMap.lookup_insert]
  split
  · rfl
  · rfl

theorem moves_replayRecord (taken : node.step .replayRecord = some next) :
    Moves node .replayRecord next := by
  rw [step] at taken
  split at taken
  · next loop =>
    cases taken
    exact .endsBatch loop
  · next _ record _ loop =>
    split at taken
    · next old =>
      cases taken
      exact .skips loop old
    · next _ =>
      split at taken
      · next _ =>
        cases taken
        exact .breaksOff loop (by omega)
      · next follows =>
        have follows := not_not.mp follows
        split at taken
        · next txn =>
          cases taken
          exact .passes loop follows txn
        · next page =>
          have page := Bool.not_eq_true _ ▸ page
          unfold bufferRecord at taken
          dsimp only at taken
          split at taken
          · next full =>
            cases taken
            have pushed := bufferOf_setBuffer node record.pageId record.pageId
              ((node.bufferOf record.pageId).push record)
            rw [if_pos rfl] at pushed
            unfold takeBuffer
            rw [pushed]
            exact .fills loop follows page full
          · next short =>
            cases taken
            exact .waits loop follows page (Bool.not_eq_true _ ▸ short)
  · next loop =>
    cases taken
    exact .ends loop
  · next _ _ loop =>
    cases taken
    exact .takes loop
  · cases taken

theorem moves_replayPage (taken : node.step .replayPage = some next) :
    Moves node .replayPage next := by
  rw [step] at taken
  split at taken
  · next loop =>
    cases taken
    exact .hasNothing loop
  · next _ _ _ some loop =>
    split at taken
    · next _ redone =>
      cases taken
      exact .redoes loop some redone
    · next _ failed =>
      cases taken
      exact .redoFails loop failed
    · cases taken
  · cases taken

theorem moves_of_step {action : WalNodeAction} (taken : node.step action = some next) :
    Moves node action next := by
  cases action with
  | appendWalBatch =>
    rw [step] at taken
    split at taken
    · next ready =>
      split at taken
      · cases taken
        exact .refuses rfl
      · next valid =>
        split at taken
        · cases taken
          exact .rotates ready
        · cases taken
          exact .appends ready valid
    · cases taken
  | appendFails =>
    rw [step] at taken
    split at taken
    · next ready =>
      split at taken
      · cases taken
        exact .refuses rfl
      · next valid =>
        cases taken
        exact .appendFails ready valid
    · cases taken
  | flush =>
    rw [step] at taken
    split at taken
    · next writer =>
      cases taken
      exact .flushes writer
    · cases taken
  | flushFails =>
    rw [step] at taken
    split at taken
    · next writer =>
      cases taken
      exact .flushFails writer
    · cases taken
  | storeDurableLsn =>
    rw [step] at taken
    split at taken
    · next writer =>
      cases taken
      exact .publishes writer
    · cases taken
  | handOver =>
    rw [step] at taken
    split at taken
    · next writer =>
      cases taken
      exact .handsOver writer
    · cases taken
  | acknowledge =>
    rw [step] at taken
    split at taken
    · next call writer =>
      split at taken
      · next reached =>
        cases taken
        exact .acknowledges call writer reached
      · cases taken
    · cases taken
  | receiveBatch =>
    rw [step] at taken
    split at taken
    · next loop channel =>
      cases taken
      exact .receives loop channel
    · cases taken
  | replayRecord => exact moves_replayRecord taken
  | replayPage => exact moves_replayPage taken
  | updateLastApplied =>
    rw [step] at taken
    split at taken
    · next loop =>
      split at taken
      · next higher =>
        cases taken
        exact .raises loop higher
      · next lower =>
        cases taken
        exact .keeps loop (not_lt.mp lower)
    · cases taken
  | writeWalState =>
    rw [step] at taken
    split at taken
    · next loop =>
      cases taken
      exact .writesState loop
    · cases taken
  | close =>
    rw [step] at taken
    split at taken
    · next writer channel loop =>
      split at taken
      · next listed =>
        cases taken
        exact .closes writer channel loop listed.2
      · cases taken
    · cases taken
  | maintain =>
    rw [step] at taken
    split at taken
    · cases taken
    · next notPut =>
      rcases Option.map_eq_some_iff.mp taken with ⟨_, stepped, rfl⟩
      exact .maintains (Bool.not_eq_true _ ▸ notPut) stepped
  | truncateWal =>
    cases taken
    exact .truncates
  | gcMvcc =>
    cases taken
    exact .collects

theorem Moves.file_eq {action : WalNodeAction} (moves : Moves node action next) :
    next.store.file = node.store.file.writePages (node.fileWrites action) := by
  cases moves with
  | refuses nothing =>
    rw [nothing]
    rfl
  | rotates | appends =>
    unfold rotateIfNeeded
    split <;> rfl
  | appendFails =>
    unfold fail rotateIfNeeded addFrame
    split <;> split <;> rfl
  | flushFails =>
    unfold fail addFrame
    split <;> rfl
  | redoes _ _ redone =>
    rcases bind_eq_ok.mp redone with ⟨_, _, imaged⟩
    rcases bind_eq_ok.mp imaged with ⟨_, _, shape⟩
    cases shape
    exact PageStore.getWithLsn_file node.store _
  | maintains _ stepped => exact (PageStore.moves_of_step stepped).file_eq
  | _ => rfl

end MovesOfStep

end WalNode

end Storage
end ScaleKv
