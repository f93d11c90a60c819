import ScaleKv.Storage.WalNodeSteps
import ScaleKv.Foundation.Ascending
import Mathlib.Data.List.Flatten

namespace ScaleKv
namespace Storage

open Foundation List

/-!
# The order of the log and the LSNs in the page store

The records that replay has still to see are a suffix of the log, whatever the
records are.  The LSNs that a page store knows of, in its pool, in its tasks
and as its checkpoint LSN, all come from puts.
-/

/-! ## LSNs in a page store -/

/-- The LSNs that a task carries lie within the bound. -/
def Task.UpTo (bound : Nat) : Task -> Prop
  | .snapshotted pages => ∀ page ∈ pages, page.lsn ≤ bound
  | .synced pages => ∀ page ∈ pages, page.lsn ≤ bound
  | .cleared lsn => lsn ≤ bound
  | .stored lsn => lsn ≤ bound
  | _ => True

namespace PageStore

/-- All LSNs in the store lie within the bound. -/
structure UpTo (store : PageStore) (bound : Nat) : Prop where
  checkpointLsn : store.checkpointLsn ≤ bound
  checkpointState : store.checkpointState ≤ bound
  pool : ∀ (id : PageId) (page : BufferPage), store.pool[id]? = some page -> page.lsn ≤ bound
  tasks : ∀ (id : TaskId) (task : Task), store.tasks[id]? = some task -> task.UpTo bound

section UpTo

variable {store next : PageStore} {bound : Nat}

theorem Task.UpTo.mono {task : Task} {more : Nat} (upTo : task.UpTo bound) (le : bound ≤ more) :
    task.UpTo more := by
  cases task with
  | snapshotted => exact fun page member => (upTo page member).trans le
  | synced => exact fun page member => (upTo page member).trans le
  | cleared => exact le_trans upTo le
  | stored => exact le_trans upTo le
  | _ => trivial

section

variable (upTo : store.UpTo bound)

include upTo

theorem UpTo.mono {more : Nat} (le : bound ≤ more) :
    store.UpTo more where
  checkpointLsn := upTo.checkpointLsn.trans le
  checkpointState := upTo.checkpointState.trans le
  pool := fun id page found => (upTo.pool id page found).trans le
  tasks := fun id task found => Task.UpTo.mono (upTo.tasks id task found) le

theorem UpTo.frame (id : TaskId) (task : Option Task)
    (sameTasks : next.tasks = task.elim (store.tasks.erase id) (store.tasks.insert id))
    (checkpointLsn : next.checkpointLsn ≤ bound) (checkpointState : next.checkpointState ≤ bound)
    (pool : ∀ (id : PageId) page, next.pool[id]? = some page -> page.lsn ≤ bound)
    (new : ∀ entry, task = some entry -> entry.UpTo bound) : next.UpTo bound := by
  refine ⟨checkpointLsn, checkpointState, pool, ?_⟩
  intro other otherTask found
  rcases tasks_cases sameTasks found with isNew | before
  · exact new otherTask isNew
  · exact upTo.tasks other otherTask before

omit upTo in
theorem getWithLsn_checkpoint (store : PageStore) (id : PageId) :
    (store.getWithLsn id).2.checkpointLsn = store.checkpointLsn ∧
      (store.getWithLsn id).2.checkpointState = store.checkpointState ∧
      (store.getWithLsn id).2.tasks = store.tasks := by
  unfold getWithLsn
  split
  · exact ⟨rfl, rfl, rfl⟩
  · exact ⟨rfl, rfl, rfl⟩

theorem UpTo.get (id : PageId) : (store.getWithLsn id).2.UpTo bound := by
  unfold getWithLsn
  cases lookup : store.pool[id]? with
  | none => exact upTo
  | some page =>
    refine { upTo with pool := ?_ }
    exact OrderedMap.forall_insert (upTo.pool id page lookup) upTo.pool

theorem UpTo.put (id : PageId) (image : PageImage) {lsn : Nat}
    (le : lsn ≤ bound) : (store.put id image lsn).UpTo bound := by
  refine { upTo with pool := ?_ }
  exact OrderedMap.forall_insert le upTo.pool

theorem UpTo.dirtyPages (page : DirtyPage)
    (member : page ∈ PageStore.dirtyPages store.pool) : page.lsn ≤ bound := by
  rcases mem_map.mp member with ⟨entry, pooled, equal⟩
  rw [← equal]
  exact upTo.pool entry.1 entry.2
    (Std.TreeMap.mem_toList_iff_getElem?_eq_some.mp (mem_filter.mp pooled).1)

omit upTo in
theorem maxLsn_le {pages : List DirtyPage} (small : ∀ page ∈ pages, page.lsn ≤ bound) :
    PageStore.maxLsn pages ≤ bound :=
  Largest.foldl_le (Nat.zero_le bound) small

theorem UpTo.step {action : PageStoreAction}
    (notPut : action.isPut = false) (taken : store.step action = some next) :
    next.UpTo bound := by
  cases moves_of_step taken with
  | puts => cases notPut
  | ticks => exact { upTo with }
  | gets => exact upTo.get _
  | idles => exact upTo
  | snapshots =>
    refine upTo.frame _ (some _) rfl upTo.checkpointLsn upTo.checkpointState upTo.pool ?_
    rintro _ ⟨⟩
    exact upTo.dirtyPages
  | syncs lookup =>
    refine upTo.frame _ (some _) rfl upTo.checkpointLsn upTo.checkpointState upTo.pool ?_
    rintro _ ⟨⟩
    exact fun page member => upTo.tasks _ _ lookup page member
  | clears lookup =>
    refine upTo.frame _ (some _) rfl upTo.checkpointLsn upTo.checkpointState
      (forall_clearDirty upTo.pool (fun _ _ small => small)) ?_
    rintro _ ⟨⟩
    exact maxLsn_le (upTo.tasks _ _ lookup)
  | raises lookup =>
    have small := upTo.tasks _ _ lookup
    refine upTo.frame _ (some _) rfl small upTo.checkpointState upTo.pool ?_
    rintro _ ⟨⟩
    exact small
  | writesState lookup =>
    exact upTo.frame _ none rfl upTo.checkpointLsn (upTo.tasks _ _ lookup) upTo.pool (by simp)
  | removes =>
    exact upTo.frame _ none rfl upTo.checkpointLsn upTo.checkpointState
      (forall_removeCandidates upTo.pool) (by simp)
  | syncFails | stays =>
    exact upTo.frame _ none rfl upTo.checkpointLsn upTo.checkpointState upTo.pool (by simp)
  | counts | selects | copies | flushes =>
    exact upTo.frame _ (some _) rfl upTo.checkpointLsn upTo.checkpointState upTo.pool
      (by simp [Task.UpTo])

end

end UpTo

end PageStore

theorem le_maxLsn {records : List WalRecord} {record : WalRecord} (member : record ∈ records) :
    record.lsn ≤ maxLsn records :=
  Largest.measure_le_foldl member 0

variable {bound : Nat} {id : PageId}

theorem maxLsn_le {records : List WalRecord}
    (small : ∀ record ∈ records, record.lsn ≤ bound) : maxLsn records ≤ bound :=
  Largest.foldl_le (Nat.zero_le bound) small

theorem PageStore.UpTo.redoRecords {store after : PageStore}
    {records : List WalRecord} (upTo : store.UpTo bound)
    (redone : store.redoRecords id records = .ok after) (small : Storage.maxLsn records ≤ bound) :
    after.UpTo bound := by
  rcases bind_eq_ok.mp redone with ⟨_, _, rest⟩
  rcases bind_eq_ok.mp rest with ⟨image, _, put⟩
  cases put
  exact (upTo.get id).put id image small

/-! ## Opening a directory -/

namespace PageStoreReplay

/-- What holds of the counters while recovery goes on that started with the
given files and the last applied LSN found there. -/
structure Advances (disk : Disk) (found : Nat) (replay : PageStoreReplay) : Prop where
  store : replay.store.UpTo replay.lastApplied
  checkpointLsn : replay.store.checkpointLsn = disk.checkpointState
  checkpointState : replay.store.checkpointState = disk.checkpointState
  tasks : replay.store.tasks = ∅
  walState : disk.walState ≤ replay.walState
  lastApplied : replay.lastApplied = max replay.walState found

section Advances

variable {disk : Disk} {found : Nat} {replay after : PageStoreReplay}

/-- The last applied LSN does not go back, it covers the page records, and it
comes from one of them if it has grown. -/
structure Passes (replay after : PageStoreReplay) (records : List WalRecord) : Prop where
  grows : replay.lastApplied ≤ after.lastApplied
  covers : ∀ record ∈ records, record.op.isTxn = false ->
    record.lsn ≤ after.lastApplied
  within : ∀ bound, replay.lastApplied ≤ bound ->
    (∀ record ∈ records, record.op.isTxn = false -> record.lsn ≤ bound) ->
    after.lastApplied ≤ bound

theorem Advances.record {record : WalRecord} (advances : replay.Advances disk found)
    (recovered : replay.recoverRecord record = .ok after) :
    after.Advances disk found ∧ replay.Passes after [record] := by
  unfold recoverRecord at recovered
  split at recovered
  · next old =>
    cases recovered
    refine ⟨advances, le_rfl, ?_, fun _ small _ => small⟩
    intro _ member _
    rw [mem_singleton.mp member]
    exact old
  · next new =>
    split at recovered
    · next txn =>
      cases recovered
      refine ⟨advances, le_rfl, ?_, fun _ small _ => small⟩
      intro _ member page
      rw [mem_singleton.mp member, txn] at page
      cases page
    · next page =>
      rcases bind_eq_ok.mp recovered with ⟨store, redone, shape⟩
      rcases bind_eq_ok.mp redone with ⟨_, _, rest⟩
      rcases bind_eq_ok.mp rest with ⟨image, _, put⟩
      cases put
      have ahead : replay.lastApplied < record.lsn := not_le.mp new
      have top := advances.lastApplied
      simp only [updateLastApplied, if_pos ahead] at shape
      cases shape
      rcases replay.store.getWithLsn_checkpoint record.pageId with ⟨sameLsn, sameState, sameTasks⟩
      refine ⟨⟨?_, sameLsn.trans advances.checkpointLsn, sameState.trans advances.checkpointState,
        sameTasks.trans advances.tasks, ?_, ?_⟩, le_of_lt ahead, ?_, ?_⟩
      · exact ((advances.store.mono (le_of_lt ahead)).get record.pageId).put record.pageId image
          (le_refl record.lsn)
      · have := advances.walState
        dsimp only
        omega
      · dsimp only
        omega
      · intro _ member _
        rw [mem_singleton.mp member]
      · exact fun _ _ below => below record mem_cons_self (Bool.not_eq_true _ ▸ page)

theorem Passes.append {middle : PageStoreReplay} {first second : List WalRecord}
    (left : replay.Passes middle first) (right : middle.Passes after second) :
    replay.Passes after (first ++ second) where
  grows := left.grows.trans right.grows
  covers := by
    intro record member page
    rcases mem_append.mp member with before | behind
    · exact (left.covers record before page).trans right.grows
    · exact right.covers record behind page
  within := by
    intro bound small below
    refine right.within bound (left.within bound small ?_) ?_
    · exact fun record member => below record (mem_append_left _ member)
    · exact fun record member => below record (mem_append_right _ member)

theorem Advances.records {records : List WalRecord} (advances : replay.Advances disk found)
    (recovered : records.foldlM recoverRecord replay = .ok after) :
    after.Advances disk found ∧ replay.Passes after records := by
  induction records generalizing replay with
  | nil =>
    cases recovered
    exact ⟨advances, le_rfl, by simp, fun _ small _ => small⟩
  | cons head tail ih =>
    rw [foldlM_cons] at recovered
    rcases bind_eq_ok.mp recovered with ⟨_, taken, rest⟩
    rcases advances.record taken with ⟨next, passed⟩
    rcases ih next rest with ⟨final, passedRest⟩
    exact ⟨final, passed.append passedRest⟩

theorem Advances.frames {frames : List WalBatch} (advances : replay.Advances disk found)
    (recovered : frames.foldlM recoverFrame replay = .ok after) :
    after.Advances disk found ∧ replay.Passes after (frames.flatMap WalBatch.records) := by
  induction frames generalizing replay with
  | nil =>
    cases recovered
    exact ⟨advances, le_rfl, by simp, fun _ small _ => small⟩
  | cons head tail ih =>
    rw [foldlM_cons] at recovered
    rcases bind_eq_ok.mp recovered with ⟨_, first, rest⟩
    have noted : Advances disk found
        { replay with requestIndex := noteRequest replay.requestIndex head } :=
      { advances with }
    rcases noted.records (recoverFrame_eq_ok.mp first).2 with ⟨next, passed⟩
    rcases ih next rest with ⟨final, passedRest⟩
    rw [flatMap_cons]
    exact ⟨final, Passes.append { passed with } passedRest⟩

end Advances

end PageStoreReplay

/-! ## Records on their way to the pages -/

def Resume.rest : Resume -> List WalRecord
  | .records _ rest => rest
  | .closing _ => []

/-- The records of the batch in progress that the loop has not looked at. -/
def LoopStage.rest : LoopStage -> List WalRecord
  | .idle => []
  | .running resume => resume.rest
  | .flushing _ _ resume => resume.rest
  | .written _ resume => resume.rest
  | .stored _ resume => resume.rest
  | .ended => []

/-- The records that were taken out of a buffer and are about to be applied. -/
def LoopStage.inHand : LoopStage -> List WalRecord
  | .flushing _ records _ => records
  | _ => []

/-- The records of a flushed batch that the writer loop has not handed over. -/
def WriterStage.unsent : WriterStage -> List WalRecord
  | .synced batch => batch.records
  | .published batch => batch.records
  | _ => []

namespace WalNode

open StorageNode (logged logged_append logged_singleton)

/-- The frames in the segments. -/
def frames (node : WalNode) : List WalBatch :=
  (node.archived ++ [node.current]).flatMap Segment.frames

theorem frames_addFrame (node : WalNode) (batch : WalBatch) :
    (node.addFrame batch).frames = node.frames ++ [batch] := by
  unfold frames addFrame
  simp

theorem frames_flushed (node : WalNode) (batch : WalBatch) :
    (node.flushed batch).frames = node.frames ++ [batch] :=
  frames_addFrame node batch

theorem logged_flushed (node : WalNode) (batch : WalBatch) :
    logged (node.flushed batch).accepted = logged node.accepted ++ batch.records := by
  unfold flushed
  rw [logged_append, logged_singleton]

/-- What a node starts with. -/
structure Opened (disk : Disk) (start : WalNode) : Prop where
  durable : start.durableLsn = start.lastApplied + 1
  store : start.store.UpTo start.lastApplied
  checkpointLsn : start.store.checkpointLsn = start.store.checkpointState
  tasks : start.store.tasks = ∅
  walState : start.walState ≤ start.lastApplied
  recovery : start.lastApplied ≤ max start.walState start.store.checkpointState
  atLeast : StorageNode.recoveryLsn disk ≤ start.lastApplied
  atMost : ∀ bound, StorageNode.recoveryLsn disk ≤ bound ->
    (∀ record ∈ logged start.frames, record.op.isTxn = false ->
      record.lsn ≤ bound) -> start.lastApplied ≤ bound
  readable : ∀ frame ∈ start.frames, frame.frameLen ≤ maxWalFrameLen
  covered : ∀ record ∈ logged start.frames, record.op.isTxn = false ->
    record.lsn ≤ start.lastApplied
  frames : start.frames = StorageNode.survivingFrames disk
  mvcc : start.mvcc = Mvcc.ofBatches start.frames
  idle : start.call = none ∧ start.writer = .idle ∧ start.channel = [] ∧ start.buffers = ∅ ∧
    start.loop = .idle
  blank : start.accepted = [] ∧ start.failed = [] ∧ start.received = [] ∧
    start.acknowledged = [] ∧ start.applied = []

theorem frames_getLast? (segments : List Segment) :
    (segments.dropLast ++ [segments.getLast?.getD { fileId := 1, frames := [] }]).flatMap
      Segment.frames = segments.flatMap Segment.frames := by
  cases last : segments.getLast? with
  | none =>
    rw [List.getLast?_eq_none_iff.mp last]
    rfl
  | some =>
    rcases List.getLast?_eq_some_iff.mp last with ⟨_, shape⟩
    rw [shape, dropLast_concat]
    rfl

theorem opened_of_open {disk : Disk} {start : WalNode}
    (opened : openWithMaintenance disk = .ok start) : Opened disk start := by
  rcases bind_eq_ok.mp opened with ⟨_, nodeOpened, shape⟩
  rcases bind_eq_ok.mp nodeOpened with ⟨replayed, recovered, nodeShape⟩
  cases nodeShape
  cases shape
  rw [PageStoreReplay.replayWalSegmentsToStore_eq] at recovered
  have sameFrames := frames_getLast? disk.segments
  have starts : PageStoreReplay.Advances disk (max disk.walState disk.checkpointState)
      { store := PageStore.opened disk.pages disk.checkpointState
        lastApplied := max disk.walState disk.checkpointState
        walState := disk.walState
        requestIndex := ∅ } := by
    refine ⟨⟨le_max_right _ _, le_max_right _ _, ?_, ?_⟩, rfl, rfl, rfl, le_rfl, ?_⟩
    · intro _ page found
      cases (Std.TreeMap.getElem?_emptyc.symm.trans found : none = some page)
    · intro _ task found
      cases (Std.TreeMap.getElem?_emptyc.symm.trans found : none = some task)
    · dsimp only
      omega
  rcases starts.frames recovered with ⟨advances, passed⟩
  have top := advances.lastApplied
  have kept := advances.walState
  have state := advances.checkpointState
  refine ⟨rfl, ?_, advances.checkpointLsn.trans state.symm, advances.tasks, le_max_left _ _, ?_,
    le_max_right _ _, ?_, ?_, ?_, ?_, ?_,
    ⟨rfl, rfl, rfl, rfl, rfl⟩, ⟨rfl, rfl, rfl, rfl, rfl⟩⟩
  · have store := advances.store
    rw [top] at store
    exact store
  · change max replayed.walState (max disk.walState disk.checkpointState) ≤
      max replayed.walState replayed.store.checkpointState
    rw [state]
    omega
  · intro bound small below
    change max replayed.walState (max disk.walState disk.checkpointState) ≤ bound
    rw [← top]
    refine passed.within bound small ?_
    intro record member
    refine below record ?_
    change record ∈ ((disk.segments.dropLast ++ _).flatMap Segment.frames).flatMap _
    rw [sameFrames]
    exact member
  · intro frame member
    refine PageStoreReplay.readable_of_recoverFrames recovered frame ?_
    rw [← sameFrames]
    exact member
  · intro record member page
    change record ∈ ((disk.segments.dropLast ++ _).flatMap Segment.frames).flatMap _ at member
    rw [sameFrames] at member
    have covered := passed.covers record member page
    rw [top] at covered
    exact covered
  · exact sameFrames
  · exact congrArg Mvcc.ofBatches sameFrames.symm

/-- All flushed records that the replay loop has not looked at. -/
def pending (node : WalNode) : List WalRecord :=
  node.loop.rest ++ (node.channel.flatMap WalBatch.records ++ node.writer.unsent)

/-- The records in the buffers of all pages. -/
def waiting (node : WalNode) : List WalRecord :=
  node.buffers.toList.flatMap (fun entry => entry.2.records)

/-- The loop has taken the record in and not applied it. -/
def Waits (node : WalNode) (record : WalRecord) : Prop :=
  record ∈ node.waiting ∨ record ∈ node.loop.inHand

variable {node : WalNode} {buffer : ReplayBuffer}

theorem mem_waiting {record : WalRecord} :
    record ∈ node.waiting <-> ∃ id, record ∈ (node.bufferOf id).records := by
  unfold waiting
  rw [mem_flatMap]
  constructor
  · rintro ⟨entry, member, listed⟩
    have found := Std.TreeMap.mem_toList_iff_getElem?_eq_some.mp member
    refine ⟨entry.1, ?_⟩
    rw [bufferOf, Std.TreeMap.getD_eq_getD_getElem?, found]
    exact listed
  · rintro ⟨id, listed⟩
    rw [bufferOf, Std.TreeMap.getD_eq_getD_getElem?] at listed
    cases found : node.buffers[id]? with
    | none =>
      rw [found] at listed
      cases listed
    | some buffer =>
      rw [found] at listed
      exact ⟨(id, buffer), Std.TreeMap.mem_toList_iff_getElem?_eq_some.mpr found, listed⟩

theorem mem_waiting_setBuffer {record : WalRecord}
    (member : record ∈ (node.setBuffer id buffer).waiting) :
    record ∈ buffer.records ∨ record ∈ node.waiting := by
  rcases mem_waiting.mp member with ⟨other, listed⟩
  rw [bufferOf_setBuffer] at listed
  split at listed
  · exact .inl listed
  · exact .inr (mem_waiting.mpr ⟨other, listed⟩)

theorem mem_setBuffer_waiting {record : WalRecord} (member : record ∈ node.waiting) :
    record ∈ (node.setBuffer id buffer).waiting ∨ record ∈ (node.bufferOf id).records := by
  rcases mem_waiting.mp member with ⟨other, listed⟩
  by_cases same : id = other
  · right
    rw [same]
    exact listed
  · left
    refine mem_waiting.mpr ⟨other, ?_⟩
    rw [bufferOf_setBuffer, if_neg same]
    exact listed

/-! ## The order of the log -/

/-- `durable_lsn` is the end of the log, except between a sync and its store. -/
def WriterOk (first : Nat) (node : WalNode) : Prop :=
  match node.writer with
  | .idle => node.durableLsn = first + (logged node.accepted).length
  | .appended batch =>
    node.durableLsn = first + (logged node.accepted).length ∧
      validateIncomingWalBatch node.durableLsn batch = .ok ()
  | .synced batch => batch.endLsn = first + (logged node.accepted).length
  | .published _ => node.durableLsn = first + (logged node.accepted).length

/-- The records of the flushed batches are numbered from the first LSN of this
life on, replay sees them in this order, and what waits comes from them. -/
structure Ordered (first : Nat) (node : WalNode) : Prop where
  numbered : Numbered first (logged node.accepted)
  writer : node.WriterOk first
  suffix : node.pending <:+ logged node.accepted
  waits : ∀ record, node.Waits record ->
    record ∈ logged node.accepted ∧ record.op.isTxn = false

section Ordered

variable {first : Nat} {node next : WalNode}

theorem rotateIfNeeded_eq (node : WalNode) : ∃ archived current size,
    node.rotateIfNeeded = { node with archived := archived, current := current, size := size } ∧
      frames { node with archived := archived, current := current, size := size } = node.frames := by
  unfold rotateIfNeeded
  split
  · exact ⟨node.archived, node.current, node.size, rfl, rfl⟩
  · exact ⟨_, _, _, rfl, by simp [frames]⟩

theorem fail_eq (node : WalNode) (batch : WalBatch) (inFile : Bool) : ∃ current failed,
    node.fail batch inFile = { node with current := current, failed := failed } := by
  unfold fail
  split
  · exact ⟨_, _, rfl⟩
  · exact ⟨node.current, node.failed, rfl⟩

theorem rotateIfNeeded_fail (node : WalNode) (batch : WalBatch) (inFile : Bool) :
    ∃ archived current size failed, node.rotateIfNeeded.fail batch inFile =
      { node with archived := archived, current := current, size := size, failed := failed } := by
  rcases node.rotateIfNeeded.fail_eq batch inFile with ⟨current, failed, failShape⟩
  rcases node.rotateIfNeeded_eq with ⟨archived, _, size, shape, _⟩
  rw [failShape, shape]
  exact ⟨archived, current, size, failed, rfl⟩

theorem writer_of_ready (isReady : node.ready = true) : node.writer = .idle := by
  rcases Bool.and_eq_true_iff.mp isReady with ⟨free, _⟩
  rcases Bool.and_eq_true_iff.mp free with ⟨_, idle⟩
  cases writer : node.writer with
  | idle => rfl
  | appended | synced | published =>
    rw [writer] at idle
    cases idle

/-- Actions of the callers and of the writer loop, apart from a flush. -/
def isOutside : WalNodeAction -> Bool
  | .appendWalBatch .. | .appendFails .. | .flushFails _ | .storeDurableLsn | .handOver => true
  | .acknowledge | .truncateWal _ | .gcMvcc _ => true
  | _ => false

/-- What such an action leaves as it is. -/
structure Outside (node next : WalNode) : Prop where
  store : next.store = node.store
  walState : next.walState = node.walState
  lastApplied : next.lastApplied = node.lastApplied
  buffers : next.buffers = node.buffers
  loop : next.loop = node.loop
  accepted : next.accepted = node.accepted
  applied : next.applied = node.applied
  pending : next.pending = node.pending

theorem outside_of_step {action : WalNodeAction} (outside : isOutside action = true)
    (taken : node.step action = some next) : Outside node next := by
  cases moves_of_step taken with
  | rotates =>
    rcases node.rotateIfNeeded_eq with ⟨_, _, _, shape, _⟩
    rw [shape]
    exact ⟨rfl, rfl, rfl, rfl, rfl, rfl, rfl, rfl⟩
  | appends ready =>
    rcases node.rotateIfNeeded_eq with ⟨_, _, _, shape, _⟩
    rw [shape]
    refine ⟨rfl, rfl, rfl, rfl, rfl, rfl, rfl, ?_⟩
    unfold pending
    rw [writer_of_ready ready]
    rfl
  | @appendFails batch inFile =>
    rcases node.rotateIfNeeded_fail batch inFile with ⟨_, _, _, _, shape⟩
    rw [shape]
    exact ⟨rfl, rfl, rfl, rfl, rfl, rfl, rfl, rfl⟩
  | @flushFails batch inFile writer =>
    rcases node.fail_eq batch inFile with ⟨_, _, shape⟩
    rw [shape]
    refine ⟨rfl, rfl, rfl, rfl, rfl, rfl, rfl, ?_⟩
    unfold pending
    rw [writer]
    rfl
  | publishes writer =>
    refine ⟨rfl, rfl, rfl, rfl, rfl, rfl, rfl, ?_⟩
    unfold pending
    rw [writer]
    rfl
  | handsOver writer =>
    refine ⟨rfl, rfl, rfl, rfl, rfl, rfl, rfl, ?_⟩
    simp [pending, writer, WriterStage.unsent]
  | refuses | acknowledges | truncates | collects => exact ⟨rfl, rfl, rfl, rfl, rfl, rfl, rfl, rfl⟩
  | _ => cases outside

theorem Ordered.at_stage {stage : WriterStage} (ordered : Ordered first node)
    (writer : node.writer = stage) : Ordered first { node with writer := stage } := by
  subst writer
  exact ordered

theorem Ordered.appended {batch : WalBatch} (ordered : Ordered first node)
    (writer : node.writer = .appended batch) :
    node.durableLsn = first + (logged node.accepted).length ∧
      validateIncomingWalBatch node.durableLsn batch = .ok () :=
  (ordered.at_stage writer).writer

theorem Ordered.transfer (ordered : Ordered first node) (accepted : next.accepted = node.accepted)
    (durable : next.durableLsn = node.durableLsn) (writer : next.writer = node.writer)
    (suffix : next.pending <:+ node.pending)
    (waits : ∀ record, next.Waits record ->
      node.Waits record ∨ (record ∈ node.pending ∧ record.op.isTxn = false)) :
    Ordered first next where
  numbered := by
    rw [accepted]
    exact ordered.numbered
  writer := by
    have writerOk := ordered.writer
    unfold WriterOk at writerOk ⊢
    rw [accepted, durable, writer]
    exact writerOk
  suffix := by
    rw [accepted]
    exact suffix.trans ordered.suffix
  waits := by
    intro record waiting
    rw [accepted]
    rcases waits record waiting with before | ⟨listed, page⟩
    · exact ordered.waits record before
    · exact ⟨ordered.suffix.subset listed, page⟩

variable {batch : WalBatch}

section

variable (ordered : Ordered first node)

include ordered

theorem ordered_appends {sync : Bool} (ready : node.ready = true)
    (valid : validateIncomingWalBatch node.durableLsn batch = .ok ()) :
    Ordered first
      { node.rotateIfNeeded with
        size := node.rotateIfNeeded.size + 4 + batch.frameLen
        call := if sync then some batch else none
        writer := .appended batch } := by
  rcases node.rotateIfNeeded_eq with ⟨_, _, _, shape, _⟩
  rw [shape]
  have staged := ordered.at_stage (writer_of_ready ready)
  exact ⟨ordered.numbered, ⟨staged.writer, valid⟩, staged.suffix, ordered.waits⟩

theorem ordered_flushes (writer : node.writer = .appended batch) :
    Ordered first (node.flushed batch) := by
  rcases ordered.appended writer with ⟨durable, valid⟩
  have suffix := (ordered.at_stage writer).suffix
  rcases validateIncomingWalBatch_eq_ok.mp valid with ⟨start, length, numbered⟩
  refine ⟨?_, ?_, ?_, ?_⟩
  · rw [logged_flushed, Numbered.append, ← durable, ← start]
    exact ⟨ordered.numbered, numbered⟩
  · change batch.endLsn = _
    rw [logged_flushed, length_append]
    omega
  · rw [logged_flushed]
    change node.loop.rest ++ (node.channel.flatMap WalBatch.records ++ batch.records) <:+ _
    rw [← append_assoc]
    change node.loop.rest ++ (node.channel.flatMap WalBatch.records ++ []) <:+
      logged node.accepted at suffix
    rw [append_nil] at suffix
    rcases suffix with ⟨seen, shape⟩
    exact ⟨seen, by rw [← append_assoc, shape]⟩
  · intro record waiting
    rw [logged_flushed]
    rcases ordered.waits record waiting with ⟨member, page⟩
    exact ⟨mem_append_left _ member, page⟩

theorem Ordered.moveLoop (accepted : next.accepted = node.accepted)
    (durable : next.durableLsn = node.durableLsn) (writer : next.writer = node.writer)
    (channel : next.channel = node.channel) (buffers : next.buffers = node.buffers)
    (rest : next.loop.rest <:+ node.loop.rest)
    (inHand : ∀ record ∈ next.loop.inHand, record ∈ node.loop.inHand) :
    Ordered first next := by
  refine ordered.transfer accepted durable writer ?_ ?_
  · rcases rest with ⟨_, shape⟩
    unfold pending
    rw [← shape, append_assoc, channel, writer]
    exact suffix_append _ _
  · intro record waits
    rcases waits with buffered | taken
    · left
      left
      unfold waiting at buffered ⊢
      rw [← buffers]
      exact buffered
    · exact .inl (.inr (inHand record taken))

theorem Ordered.takeIn {lastSeen : Nat} {record : WalRecord}
    {rest : List WalRecord} (loop : node.loop = .running (.records lastSeen (record :: rest)))
    (page : record.op.isTxn = false) {buffers : Std.TreeMap PageId ReplayBuffer}
    {stage : LoopStage} (stageRest : stage.rest = rest)
    (waits : ∀ other, Waits { node with buffers := buffers, loop := stage } other ->
      node.Waits other ∨ other = record) :
    Ordered first { node with buffers := buffers, loop := stage } := by
  have head : node.pending = record :: (rest ++
      (node.channel.flatMap WalBatch.records ++ node.writer.unsent)) := by
    unfold pending
    rw [loop]
    rfl
  refine ordered.transfer rfl rfl rfl ?_ ?_
  · rw [head]
    unfold pending
    rw [stageRest]
    exact suffix_cons _ _
  · intro other waiting
    rcases waits other waiting with before | same
    · exact .inl before
    · right
      rw [head, same]
      exact ⟨mem_cons_self, page⟩

end

theorem waits_push (node : WalNode) (record : WalRecord) (stage : LoopStage)
    (none : stage.inHand = []) (other : WalRecord)
    (waiting : Waits { node.setBuffer record.pageId ((node.bufferOf record.pageId).push record) with
      loop := stage } other) : node.Waits other ∨ other = record := by
  rcases waiting with buffered | taken
  · rcases mem_waiting_setBuffer buffered with pushed | before
    · rcases mem_append.mp pushed with old | new
      · exact .inl (.inl (mem_waiting.mpr ⟨record.pageId, old⟩))
      · exact .inr (mem_singleton.mp new)
    · exact .inl (.inl before)
  · change other ∈ stage.inHand at taken
    rw [none] at taken
    cases taken

theorem waits_fill (node : WalNode) (record : WalRecord) (resume : Resume) (other : WalRecord)
    (isWaiting : (node.filled record resume).Waits other) : node.Waits other ∨ other = record := by
  rcases isWaiting with buffered | taken
  · have twice : other ∈ ((node.setBuffer record.pageId
        ((node.bufferOf record.pageId).push record)).setBuffer record.pageId
          ReplayBuffer.new).waiting := buffered
    rcases mem_waiting.mp twice with ⟨id, listed⟩
    rw [bufferOf_setBuffer] at listed
    split at listed
    · cases listed
    · next different =>
      rw [bufferOf_setBuffer, if_neg different] at listed
      exact .inl (.inl (mem_waiting.mpr ⟨id, listed⟩))
  · rcases mem_append.mp taken with old | new
    · exact .inl (.inl (mem_waiting.mpr ⟨record.pageId, old⟩))
    · exact .inr (mem_singleton.mp new)

theorem waits_takeBuffer (node : WalNode) (id : PageId) (resume : Resume) (other : WalRecord)
    (waiting : (node.takeBuffer id resume).Waits other) : node.Waits other := by
  rcases waiting with buffered | taken
  · have emptied : other ∈ (node.setBuffer id ReplayBuffer.new).waiting := buffered
    rcases mem_waiting_setBuffer emptied with none | before
    · cases none
    · exact .inl before
  · exact .inl (mem_waiting.mpr ⟨id, taken⟩)

theorem ordered_step {action : WalNodeAction} (ordered : Ordered first node)
    (taken : node.step action = some next) : Ordered first next := by
  cases moves_of_step taken with
  | refuses => exact ordered
  | rotates =>
    rcases node.rotateIfNeeded_eq with ⟨_, _, _, shape, _⟩
    rw [shape]
    exact { ordered with }
  | appends ready valid => exact ordered_appends ordered ready valid
  | @appendFails batch inFile =>
    rcases node.rotateIfNeeded_fail batch inFile with ⟨_, _, _, _, shape⟩
    rw [shape]
    exact { ordered with }
  | flushes writer => exact ordered_flushes ordered writer
  | @flushFails batch inFile writer =>
    rcases node.fail_eq batch inFile with ⟨_, _, shape⟩
    rw [shape]
    have staged := ordered.at_stage writer
    exact ⟨ordered.numbered, staged.writer.1, staged.suffix, ordered.waits⟩
  | publishes writer => exact { ordered.at_stage writer with }
  | @handsOver batch writer =>
    have staged := ordered.at_stage writer
    refine ⟨ordered.numbered, staged.writer, ?_, ordered.waits⟩
    change node.loop.rest ++ ((node.channel ++ [batch]).flatMap WalBatch.records ++ []) <:+ _
    rw [flatMap_append, flatMap_singleton, append_nil]
    exact staged.suffix
  | acknowledges | maintains | truncates | collects => exact { ordered with }
  | @receives _ _ loop channel =>
    refine ordered.transfer rfl rfl rfl ?_ ?_
    · refine ⟨[], ?_⟩
      unfold pending
      rw [loop, channel, flatMap_cons, append_assoc]
      rfl
    · intro record waiting
      rcases waiting with buffered | taken
      · exact .inl (.inl buffered)
      · cases taken
  | endsBatch | breaksOff | ends | closes =>
    exact ordered.moveLoop rfl rfl rfl rfl rfl nil_suffix (by simp [LoopStage.inHand])
  | skips loop | passes loop =>
    refine ordered.moveLoop rfl rfl rfl rfl rfl ?_ (by simp [LoopStage.inHand])
    rw [loop]
    exact suffix_cons _ _
  | waits loop _ page =>
    exact ordered.takeIn loop page rfl (waits_push node _ _ rfl)
  | fills loop _ page =>
    exact ordered.takeIn loop page rfl (waits_fill node _ _)
  | takes loop =>
    refine ordered.transfer rfl rfl rfl ?_ ?_
    · unfold pending
      rw [loop]
      exact suffix_refl _
    · exact fun record waiting => .inl (waits_takeBuffer node _ _ record waiting)
  | hasNothing loop | redoes loop | redoFails loop | raises loop | keeps loop | writesState loop =>
    refine ordered.moveLoop rfl rfl rfl rfl rfl ?_ (by simp [putRecords, LoopStage.inHand])
    rw [loop]
    exact suffix_refl _

end Ordered

end WalNode

end Storage
end ScaleKv
