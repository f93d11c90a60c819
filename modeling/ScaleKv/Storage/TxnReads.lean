import ScaleKv.Storage.DurableRestart

namespace ScaleKv
namespace Storage

open Foundation List

/-!
# Transactional reads across truncation and a restart

The version map is rebuilt from the frames that are still there.  Truncation
looks at the page store only: it removes a segment once the checkpoint LSN has
passed the ends of its batches, whether or not the segment holds committed
transactions.

Within the first life of a node this does no harm, since replay stalls behind
the first committed transaction and no checkpoint gets past it.  After a restart
recovery has applied the page records behind it, the checkpoint follows, and the
transactions go with the segment.
-/

/-! ## When a directory can be opened -/

variable {records : List WalRecord} {record : WalRecord}

namespace PageStoreReplay

section Refines

variable {replay : PageStoreReplay} {abstract result : Replay}

/-- What recovery over page contents can do, recovery into the store can do. -/
theorem Refines.record_ok (refines : replay.Refines abstract)
    (recovered : abstract.recoverRecord record = .ok result) :
    ∃ after, replay.recoverRecord record = .ok after ∧ after.Refines result := by
  have done : ∃ after, replay.recoverRecord record = .ok after := by
    unfold Replay.recoverRecord at recovered
    unfold recoverRecord
    rw [refines.lastApplied] at recovered
    split at recovered
    · next old => exact ⟨replay, if_pos old⟩
    · next new =>
      rw [if_neg new]
      split at recovered
      · next txn => exact ⟨replay, if_pos txn⟩
      · next page =>
        rw [if_neg page]
        rcases bind_eq_ok.mp recovered with ⟨_, applied, rest⟩
        rcases bind_eq_ok.mp rest with ⟨_, writes, _⟩
        rcases bind_eq_ok.mp writes with ⟨_, sized, _⟩
        rw [refines.pages] at applied
        unfold applyRecord PageStore.redoRecord
        simp only [applied, sized, bind, Except.bind]
        exact ⟨_, rfl⟩
  rcases done with ⟨after, taken⟩
  rcases refines.record taken with ⟨_, sameTaken, held⟩
  rw [recovered] at sameTaken
  cases sameTaken
  exact ⟨after, taken, held⟩

theorem Refines.records_ok (refines : replay.Refines abstract)
    (recovered : records.foldlM Replay.recoverRecord abstract = .ok result) :
    ∃ after, records.foldlM recoverRecord replay = .ok after ∧ after.Refines result := by
  induction records generalizing replay abstract with
  | nil =>
    cases recovered
    exact ⟨replay, rfl, refines⟩
  | cons head tail ih =>
    rw [foldlM_cons] at recovered
    rcases bind_eq_ok.mp recovered with ⟨_, first, rest⟩
    rcases refines.record_ok first with ⟨_, taken, held⟩
    rw [foldlM_cons, taken]
    exact ih held rest

theorem recoverFrame_txn {frame : WalBatch} (short : frame.frameLen ≤ maxWalFrameLen)
    (txn : ∀ record ∈ frame.records, record.op.isTxn = true)
    (replay : PageStoreReplay) :
    replay.recoverFrame frame =
      .ok { replay with requestIndex := noteRequest replay.requestIndex frame } := by
  rw [recoverFrame_eq short]
  generalize { replay with requestIndex := noteRequest replay.requestIndex frame } = noted
  generalize frame.records = records at txn
  induction records with
  | nil => rfl
  | cons head tail ih =>
    have passed : noted.recoverRecord head = .ok noted := by
      unfold recoverRecord
      rw [if_pos (txn head mem_cons_self), ite_self]
    rw [foldlM_cons, passed]
    exact ih (fun record member => txn record (mem_cons_of_mem _ member))

theorem Refines.frames_ok {frames : List WalBatch} (refines : replay.Refines abstract)
    (readable : ∀ frame ∈ frames, frame.frameLen ≤ maxWalFrameLen)
    (recovered : abstract.recover frames = .ok result) :
    ∃ after, frames.foldlM recoverFrame replay = .ok after ∧ after.Refines result := by
  unfold Replay.recover at recovered
  induction frames generalizing replay abstract with
  | nil =>
    cases recovered
    exact ⟨replay, rfl, refines⟩
  | cons head tail ih =>
    rw [foldlM_cons] at recovered
    rcases bind_eq_ok.mp recovered with ⟨_, first, rest⟩
    have noted : Refines
        { replay with requestIndex := noteRequest replay.requestIndex head } abstract :=
      { refines with }
    rcases noted.records_ok first with ⟨_, taken, held⟩
    rw [foldlM_cons, recoverFrame_eq (readable head mem_cons_self), taken]
    exact ih held
      (fun frame member => readable frame (mem_cons_of_mem _ member)) rest

end Refines

end PageStoreReplay

/-- The page records in the log that recovery will redo, applied to the pages
of the page file. -/
def Disk.redo (disk : Disk) : Result Replay :=
  Replay.recover
    { pages := fun id => (disk.pages.readPage id).getD .zero
      lastApplied := StorageNode.recoveryLsn disk
      applied := [] }
    (StorageNode.survivingFrames disk)

namespace WalNode

open StorageNode (logged logged_append logged_singleton)

/-- Where recovery starts from. -/
def recovering (disk : Disk) : PageStoreReplay :=
  { store := PageStore.opened disk.pages disk.checkpointState
    lastApplied := StorageNode.recoveryLsn disk
    walState := disk.walState
    requestIndex := ∅ }

variable {disk : Disk} {start node : WalNode}

theorem exists_open_of_replay {replayed : PageStoreReplay}
    (recovered : (StorageNode.survivingFrames disk).foldlM PageStoreReplay.recoverFrame
      (recovering disk) = .ok replayed) :
    ∃ start, openWithMaintenance disk = .ok start ∧ start.store = replayed.store ∧
      start.archived = disk.segments.dropLast ∧
      start.current = disk.segments.getLast?.getD { fileId := 1, frames := [] } := by
  have segments := (PageStoreReplay.replayWalSegmentsToStore_eq _ disk.segments).trans recovered
  have opened : ∃ node, StorageNode.openWithMaintenance disk = .ok node ∧
      node.store = replayed.store ∧ node.archived = disk.segments.dropLast ∧
      node.current = disk.segments.getLast?.getD { fileId := 1, frames := [] } :=
    ⟨_, congrArg (· >>= _) segments, rfl, rfl, rfl⟩
  rcases opened with ⟨_, nodeOpened, fields⟩
  exact ⟨_, congrArg (· >>= _) nodeOpened, fields⟩

theorem exists_replay {result : Replay}
    (readable : ∀ frame ∈ StorageNode.survivingFrames disk,
      frame.frameLen ≤ maxWalFrameLen) (redone : disk.redo = .ok result) :
    ∃ after, (StorageNode.survivingFrames disk).foldlM PageStoreReplay.recoverFrame
      (recovering disk) = .ok after := by
  have starts : PageStoreReplay.Refines (recovering disk)
      { pages := fun id => (disk.pages.readPage id).getD .zero
        lastApplied := StorageNode.recoveryLsn disk
        applied := [] } := by
    refine ⟨?_, rfl⟩
    intro id
    rw [PageStore.get_eq]
    simp [recovering, PageStore.opened]
  rcases starts.frames_ok readable redone with ⟨after, replayed, _⟩
  exact ⟨after, replayed⟩

/-! ## The versions and the frames -/

/-- Appends can be read back, and no removed segment holds a committed batch. -/
def keepsCommits (node : WalNode) (action : WalNodeAction) : Prop :=
  node.readableAppends action ∧
    match action with
    | .truncateWal fileId =>
      ∀ segment ∈ node.archived,
        segment.fileId = fileId ∧ segment.truncatable node.store.checkpointLsn = true ->
        ∀ frame ∈ segment.frames, frame.isCommitted = false
    | _ => True

instance keepsCommitsDecidable (node : WalNode) (action : WalNodeAction) :
    Decidable (node.keepsCommits action) := by
  unfold keepsCommits
  induction action using WalNodeAction.casesOn <;> infer_instance

/-- The batches that the writer loop has flushed and not handed over. -/
def WriterStage.batches : WriterStage -> List WalBatch
  | .synced batch => [batch]
  | .published batch => [batch]
  | _ => []

/-- All committed batches are still in the segments, and the version map has
the latest version of what replay has taken in. -/
structure VersionsOk (start node : WalNode) : Prop where
  commits : node.frames.filter WalBatch.isCommitted =
    (start.frames ++ node.accepted).filter WalBatch.isCommitted
  received : node.accepted = node.received ++ (node.channel ++ WriterStage.batches node.writer)
  latest : Mvcc.SameLatest node.mvcc (Mvcc.ofBatches (start.frames ++ node.received))

section VersionsOk

variable {start node next : WalNode}

variable (versions : VersionsOk start node)

include versions

theorem VersionsOk.transfer (frames : next.frames = node.frames)
    (accepted : next.accepted = node.accepted)
    (channel : next.channel ++ WriterStage.batches next.writer =
      node.channel ++ WriterStage.batches node.writer) (received : next.received = node.received)
    (latest : Mvcc.SameLatest next.mvcc node.mvcc) : VersionsOk start next where
  commits := by
    rw [frames, accepted]
    exact versions.commits
  received := by
    rw [accepted, received, channel]
    exact versions.received
  latest := by
    rw [received]
    exact fun key => (latest key).trans (versions.latest key)

theorem VersionsOk.truncates (fileId : Nat) (keeps : ∀ segment ∈ node.archived,
      segment.fileId = fileId ∧ segment.truncatable node.store.checkpointLsn = true ->
      ∀ frame ∈ segment.frames, frame.isCommitted = false) :
    VersionsOk start (node.truncated fileId) := by
  refine { versions with commits := Eq.trans ?_ versions.commits }
  unfold WalNode.frames truncated
  rw [flatMap_append, flatMap_append, filter_append, filter_append]
  congr 1
  generalize node.archived = archived at keeps
  induction archived with
  | nil => rfl
  | cons head tail ih =>
    have rest := ih
      (fun segment member => keeps segment (mem_cons_of_mem _ member))
    rw [flatMap_cons, filter_append, ← rest]
    by_cases removed : head.fileId = fileId ∧
        head.truncatable node.store.checkpointLsn = true
    · rw [filter_cons_of_neg (by simp [removed])]
      have none : head.frames.filter WalBatch.isCommitted = [] := by
        refine filter_eq_nil_iff.mpr ?_
        intro frame member
        rw [keeps head mem_cons_self removed frame member]
        exact Bool.false_ne_true
      rw [none, nil_append]
    · rw [filter_cons_of_pos (by rw [Bool.not_eq_true']; exact decide_eq_false removed),
        flatMap_cons, filter_append]

theorem VersionsOk.flushes {batch : WalBatch} (writer : node.writer = .appended batch) :
    VersionsOk start (node.flushed batch) := by
  have received := versions.received
  rw [writer] at received
  refine ⟨?_, ?_, versions.latest⟩
  · rw [frames_flushed, filter_append, versions.commits, flushed]
    simp only [filter_append, append_assoc]
  · change node.accepted ++ [batch] = node.received ++ (node.channel ++ [batch])
    rw [received]
    simp [WriterStage.batches]

theorem versionsOk_step {action : WalNodeAction} (keeps : node.keepsCommits action)
    (taken : node.step action = some next) :
    VersionsOk start next := by
  cases moves_of_step taken with
  | refuses => exact versions
  | rotates =>
    rcases node.rotateIfNeeded_eq with ⟨_, _, _, shape, sameFrames⟩
    rw [shape]
    exact versions.transfer sameFrames rfl rfl rfl (fun _ => rfl)
  | appends ready =>
    have idle := writer_of_ready ready
    rcases node.rotateIfNeeded_eq with ⟨_, _, _, shape, sameFrames⟩
    rw [shape]
    refine versions.transfer sameFrames rfl ?_ rfl (fun _ => rfl)
    rw [idle]
    rfl
  | appendFails => exact keeps.1.elim
  | flushes writer => exact versions.flushes writer
  | flushFails => exact keeps.1.elim
  | publishes writer =>
    refine versions.transfer rfl rfl ?_ rfl (fun _ => rfl)
    rw [writer]
    rfl
  | handsOver writer =>
    refine versions.transfer rfl rfl ?_ rfl (fun _ => rfl)
    rw [writer]
    simp [WriterStage.batches]
  | @receives batch rest _ channel =>
    have received := versions.received
    rw [channel] at received
    refine ⟨versions.commits, ?_, ?_⟩
    · change node.accepted = (node.received ++ [batch]) ++ (rest ++ _)
      rw [received]
      simp
    · change Mvcc.SameLatest (node.mvcc.applyTxnBatch batch)
        (Mvcc.ofBatches (start.frames ++ (node.received ++ [batch])))
      rw [← append_assoc, Mvcc.ofBatches_concat]
      exact versions.latest.applyTxnBatch batch
  | truncates => exact versions.truncates _ keeps.2
  | collects =>
    exact versions.transfer rfl rfl rfl rfl (fun key => Mvcc.latest_gcVersions _ _ key)
  | _ => exact versions.transfer rfl rfl rfl rfl (fun _ => rfl)

end VersionsOk

theorem Opened.versionsOk (opened : Opened disk start) : VersionsOk start start := by
  rcases opened.blank with ⟨accepted, _, received, _⟩
  rcases opened.idle with ⟨_, writer, channel, _⟩
  refine ⟨?_, ?_, ?_⟩
  · rw [accepted, append_nil]
  · rw [accepted, received, channel, writer]
    rfl
  · rw [received, append_nil, opened.mvcc]
    exact fun _ => rfl

/-- The node has flushed all committed batches and replayed them. -/
structure Retains (start node : WalNode) : Prop where
  runs : Runs start node
  versions : VersionsOk start node

theorem retains_of_reaches (opened : Opened disk start)
    (reached : Reaches step keepsCommits start node) : Retains start node := by
  refine reached.invariant ⟨⟨opened.ordered, opened.logOk, opened.counters⟩, opened.versionsOk⟩ ?_
  intro _ _ _ retains keeps taken
  exact ⟨⟨ordered_step retains.runs.ordered taken,
    logOk_step retains.runs.ordered retains.runs.log keeps.1 taken,
    counters_step retains.runs.counters retains.runs.ordered taken⟩,
    versionsOk_step retains.versions keeps taken⟩

/-- A restart gives the same transactional reads, at every snapshot that is not
below the end of a batch, if truncation has spared the committed batches and
the page records in the log can be redone. -/
theorem txnGet_after_restart (disk : Disk) (start node : WalNode) (result : Replay)
    (opened : openWithMaintenance disk = .ok start)
    (reached : Reaches step keepsCommits start node) (isQuiet : node.quiet = true)
    (redone : node.disk.redo = .ok result) :
    ∃ reopened, openWithMaintenance node.disk = .ok reopened ∧
      ∀ key readLsn,
        (∀ frame ∈ start.frames ++ node.accepted, frame.endLsn ≤ readLsn) ->
        reopened.txnGet key readLsn = node.txnGet key readLsn := by
  have retains := retains_of_reaches (opened_of_open opened) reached
  have readable : ∀ frame ∈ StorageNode.survivingFrames node.disk,
      frame.frameLen ≤ maxWalFrameLen := retains.runs.log.readable
  rcases exists_replay readable redone with ⟨_, replayed⟩
  rcases exists_open_of_replay replayed with ⟨reopened, reopens, _⟩
  refine ⟨reopened, reopens, ?_⟩
  intro key readLsn above
  have again := opened_of_open reopens
  have allReceived : node.received = node.accepted := by
    have received := retains.versions.received
    have outside := (Bool.and_eq_true_iff.mp isQuiet).1
    rw [isEmpty_iff.mp (Bool.and_eq_true_iff.mp outside).2, writer_of_quiet isQuiet] at received
    simpa [WriterStage.batches] using received.symm
  have rebuilt : reopened.mvcc = Mvcc.ofBatches (start.frames ++ node.accepted) := by
    rw [again.mvcc, again.frames, ← Mvcc.ofBatches_filter]
    change Mvcc.ofBatches (node.frames.filter WalBatch.isCommitted) = _
    rw [retains.versions.commits, Mvcc.ofBatches_filter]
  have latest := retains.versions.latest
  rw [allReceived] at latest
  have below := Mvcc.below_ofBatches above
  unfold txnGet
  rw [rebuilt, Mvcc.getAt_eq_latest (fun version => below key version),
    Mvcc.getAt_eq_latest (fun version found => below key version ((latest key) ▸ found)), latest key]

/-- A transaction survives a checkpoint, a truncation and a restart. -/
theorem txnGet_after_restart_committed : ∃ node reopened,
    Reaches step keepsCommits created node ∧ openWithMaintenance node.disk = .ok reopened ∧
      reopened.txnGet [1] 4 = some (some [2]) := by
  have passed : (runGuarded step keepsCommits created
      [.appendWalBatch false (.starting 1 [.ofImage 1 1 (.filled 7)]),
        .flush, .storeDurableLsn, .handOver, .receiveBatch, .replayRecord, .replayPage,
        .updateLastApplied, .writeWalState, .replayRecord,
        .appendWalBatch false (.starting 2 [txnRecord 2 .txnPut [1] [2], txnRecord 3 .txnCommit [] []]),
        .flush, .storeDurableLsn, .handOver, .receiveBatch, .replayRecord, .replayRecord,
        .replayRecord, .maintain (.checkpoint 0), .maintain (.writeAndSync 0 false),
        .maintain (.clearFlags 0), .maintain (.updateCheckpointLsn 0), .truncateWal 1]).any
        (fun node => node.quiet = true ∧ node.disk.redo.toOption.isSome = true ∧
          node.txnGet [1] 4 = some (some [2]) ∧
          node.accepted.all (fun frame => frame.endLsn ≤ 4) = true) = true := by
    decide +kernel
  rcases exists_reaches_of_decide passed with ⟨node, reached, isQuiet, redone, found, ends⟩
  rcases Option.isSome_iff_exists.mp redone with ⟨result, returned⟩
  have redo : node.disk.redo = .ok result := ok_of_toOption returned
  rcases txnGet_after_restart _ created node result openWithMaintenance_empty reached isQuiet
    redo with ⟨reopened, reopens, same⟩
  refine ⟨node, reopened, reached, reopens, ?_⟩
  rw [same [1] 4 (fun frame member => of_decide_eq_true (all_eq_true.mp ends frame member)),
    found]

/-! ## A segment that goes with its transactions -/

/-- The node after it has appended, flushed and taken in a batch that moves no
page. -/
def tookIn (node : WalNode) (batch : WalBatch) : WalNode :=
  { node.rotateIfNeeded.addFrame batch with
    size := node.rotateIfNeeded.size + 4 + batch.frameLen
    durableLsn := batch.endLsn
    mvcc := node.mvcc.applyTxnBatch batch
    accepted := node.accepted ++ [batch]
    received := node.received ++ [batch] }

/-- Nothing is going on in the node. -/
structure AtRest (node : WalNode) : Prop where
  call : node.call = none
  writer : node.writer = .idle
  channel : node.channel = []
  loop : node.loop = .idle

section TookIn

variable {node : WalNode} {batch : WalBatch}

theorem AtRest.tookIn (rest : node.AtRest) : (node.tookIn batch).AtRest := by
  unfold WalNode.tookIn
  rcases node.rotateIfNeeded_eq with ⟨_, _, _, shape, _⟩
  rw [shape]
  exact { rest with }

theorem AtRest.quiet (rest : node.AtRest) : node.quiet = true := by
  unfold WalNode.quiet
  rw [rest.writer, rest.channel, rest.loop]
  rfl

theorem lastApplied_tookIn (node : WalNode) (batch : WalBatch) :
    (node.tookIn batch).lastApplied = node.lastApplied := by
  unfold WalNode.tookIn
  rcases node.rotateIfNeeded_eq with ⟨_, _, _, shape, _⟩
  rw [shape]
  rfl

variable {lastSeen : Nat}

/-- Replay takes in transaction records without a put, up to the end of the
batch or to a gap. -/
theorem reaches_idle_of_txn (txn : ∀ record ∈ records, record.op.isTxn = true) :
    Reaches step anyStep { node with loop := .running (.records lastSeen records) }
      { node with loop := .idle } := by
  induction records generalizing lastSeen with
  | nil => exact .single trivial (show step _ .replayRecord = _ from rfl)
  | cons head tail ih =>
    have rest := fun seen => @ih seen
      (fun record member => txn record (mem_cons_of_mem _ member))
    have isTxn := txn head mem_cons_self
    by_cases old : head.lsn ≤ lastSeen
    · have taken : step { node with loop := .running (.records lastSeen (head :: tail)) }
          .replayRecord = some { node with loop := .running (.records lastSeen tail) } :=
        if_pos old
      exact (Reaches.single trivial taken).trans (rest lastSeen)
    · by_cases gap : head.lsn ≠ lastSeen + 1
      · have taken : step { node with loop := .running (.records lastSeen (head :: tail)) }
            .replayRecord = some { node with loop := .idle } :=
          (if_neg old).trans (if_pos gap)
        exact .single trivial taken
      · have taken : step { node with loop := .running (.records lastSeen (head :: tail)) }
            .replayRecord = some { node with loop := .running (.records head.lsn tail) } :=
          (if_neg old).trans ((if_neg gap).trans (if_pos isTxn))
        exact (Reaches.single trivial taken).trans (rest head.lsn)

theorem reaches_idle_of_gap {head : WalRecord} {tail : List WalRecord}
    (gap : lastSeen + 1 < head.lsn) :
    Reaches step anyStep { node with loop := .running (.records lastSeen (head :: tail)) }
      { node with loop := .idle } := by
  have taken : step { node with loop := .running (.records lastSeen (head :: tail)) } .replayRecord =
      some { node with loop := .idle } :=
    (if_neg (by omega)).trans (if_pos (by omega))
  exact .single trivial taken

/-- An append, its flush and the handover of the batch, up to where replay ends
it. -/
theorem reaches_tookIn (rest : node.AtRest)
    (valid : validateIncomingWalBatch node.durableLsn batch = .ok ())
    (short : batch.frameLen < 2 ^ 32)
    (passes : Reaches step anyStep
      { node.tookIn batch with loop := .running (.records node.lastApplied batch.records) }
      { node.tookIn batch with loop := .idle }) :
    Reaches step anyStep node (node.tookIn batch) := by
  have appended : node.step (.appendWalBatch false batch) = some
      { node.rotateIfNeeded with
        size := node.rotateIfNeeded.size + 4 + batch.frameLen
        call := none
        writer := .appended batch } := by
    rw [step, if_pos (by simp [ready, rest.call, rest.writer, rest.loop, WriterStage.isIdle,
      LoopStage.isClosing]), valid]
    exact if_neg (not_le.mpr short)
  refine (Reaches.single trivial appended).trans ?_
  unfold tookIn at passes ⊢
  rcases node.rotateIfNeeded_eq with ⟨_, _, _, shape, _⟩
  rw [shape] at passes ⊢
  rcases node with ⟨_, _, _, _, _, _, _, _, call,
    writer, channel, _, loop, _⟩
  rcases rest with ⟨call, writer, channel, loop⟩
  subst call writer channel loop
  refine Reaches.trans ?_ passes
  exact @reaches_of_runGuarded _ _ step anyStep _ _ _
    [.flush, .storeDurableLsn, .handOver, .receiveBatch] rfl

theorem reaches_maintain {actions : List PageStoreAction} {store : PageStore}
    (executed : runGuarded PageStore.step (fun _ action => action.isPut = false) node.store actions =
      some store) :
    Reaches step anyStep node { node with store := store } := by
  induction actions generalizing node with
  | nil =>
    cases executed
    exact .refl
  | cons action _ ih =>
    unfold runGuarded at executed
    split at executed
    · next notPut =>
      split at executed
      · next middle stepped =>
        have taken : node.step (.maintain action) = some { node with store := middle } := by
          rw [step, notPut, stepped]
          rfl
        have reached := @ih { node with store := middle } executed
        exact (Reaches.single trivial taken).trans reached
      · cases executed
    · cases executed

end TookIn

/-- A committed transaction that writes one key. -/
def txnBatch (lsn : Nat) (key value : Bytes) : WalBatch :=
  .starting lsn [txnRecord lsn .txnPut key value, txnRecord (lsn + 1) .txnCommit [] []]

def imageBatch (lsn : Nat) : WalBatch := .starting lsn [.ofImage lsn 1 (.filled 7)]

/-- A segment of four transactions that write the same key. -/
def txnSegment (value : Bytes) : Segment :=
  { fileId := 1
    frames := [txnBatch 1 [1] value, txnBatch 3 [1] value, txnBatch 5 [1] value,
      txnBatch 7 [1] value] }

/-- The transactions fill the first segment, and an image opens the second. -/
def firstLife (value : Bytes) : WalNode :=
  ((txnSegment value).frames.foldl tookIn created).tookIn (imageBatch 9)

/-- The directory that the first life leaves behind. -/
def firstDisk (value : Bytes) : Disk :=
  { pages := ∅
    checkpointState := 0
    walState := 0
    segments := [txnSegment value, { fileId := 2, frames := [imageBatch 9] }] }

section FullSegment

variable {value : Bytes}

theorem frameLen_txnBatch (filling : value.length + 83 = maxWalFrameLen) (lsn : Nat) :
    (txnBatch lsn [1] value).frameLen = maxWalFrameLen := by
  rw [← filling]
  simp only [txnBatch, WalBatch.starting, WalBatch.frameLen, txnRecord, map_cons, map_nil,
    sum_cons, sum_nil, length_cons, length_nil]
  omega

theorem disk_firstLife (filling : value.length + 83 = maxWalFrameLen) :
    (firstLife value).disk = firstDisk value := by
  simp [firstLife, firstDisk, txnSegment, tookIn, rotateIfNeeded, addFrame, created, disk, PageStore.opened,
    frameLen_txnBatch filling, maxSegmentSize, maxWalFrameLen]

theorem txn_of_mem_txnBatch {lsn : Nat} {key : Bytes}
    (member : record ∈ (txnBatch lsn key value).records) : record.op.isTxn = true := by
  rcases mem_cons.mp member with isPut | isCommit
  · rw [isPut]
    rfl
  · rw [mem_singleton.mp isCommit]
    rfl

section

variable (filling : value.length + 83 = maxWalFrameLen)

include filling

theorem reaches_tookIn_txnBatch (rest : node.AtRest) :
    Reaches step anyStep node (node.tookIn (txnBatch node.durableLsn [1] value)) := by
  refine reaches_tookIn rest ?_ ?_ (reaches_idle_of_txn ?_)
  · exact validateIncomingWalBatch_eq_ok.mpr ⟨rfl, rfl, rfl, rfl, trivial⟩
  · rw [frameLen_txnBatch filling]
    decide
  · exact fun _ => txn_of_mem_txnBatch

theorem reaches_firstLife :
    Reaches step anyStep created (firstLife value) ∧ (firstLife value).quiet = true := by
  have rest : created.AtRest := ⟨rfl, rfl, rfl, rfl⟩
  have rest1 := @AtRest.tookIn _ (txnBatch 1 [1] value) rest
  have rest3 := @AtRest.tookIn _ (txnBatch 3 [1] value) rest1
  have rest5 := @AtRest.tookIn _ (txnBatch 5 [1] value) rest3
  have rest7 := @AtRest.tookIn _ (txnBatch 7 [1] value) rest5
  have image : Reaches step anyStep ((txnSegment value).frames.foldl tookIn created)
      (firstLife value) := by
    refine reaches_tookIn rest7 ?_ (by decide +kernel) (reaches_idle_of_gap ?_)
    · exact validateIncomingWalBatch_eq_ok.mpr ⟨rfl, rfl, rfl, trivial⟩
    · have behind : ((txnSegment value).frames.foldl tookIn created).lastApplied = 0 := by
        simp only [txnSegment, foldl_cons, foldl_nil, lastApplied_tookIn]
        rfl
      rw [behind]
      decide
  have reached := (reaches_tookIn_txnBatch filling rest).trans
    ((reaches_tookIn_txnBatch filling rest1).trans
      ((reaches_tookIn_txnBatch filling rest3).trans
        ((reaches_tookIn_txnBatch filling rest5).trans image)))
  exact ⟨reached, rest7.tookIn.quiet⟩

theorem open_firstDisk :
    ∃ start, openWithMaintenance (firstDisk value) = .ok start ∧
      start.store = (PageStore.opened ∅ 0).put 1 (.filled 7) 9 ∧
      start.archived = [txnSegment value] ∧
      start.current = { fileId := 2, frames := [imageBatch 9] } := by
  have txn (lsn : Nat) := @PageStoreReplay.recoverFrame_txn (txnBatch lsn [1] value)
    (Nat.le_of_eq (frameLen_txnBatch filling lsn)) (fun _ => txn_of_mem_txnBatch)
  have image (requestIndex : Std.TreeMap Nat Nat) :
      PageStoreReplay.recoverFrame
        { store := PageStore.opened ∅ 0, lastApplied := 0, walState := 0, requestIndex := requestIndex }
        (imageBatch 9) = .ok
        { store := (PageStore.opened ∅ 0).put 1 (.filled 7) 9
          lastApplied := 9
          walState := 9
          requestIndex := noteRequest requestIndex (imageBatch 9) } := by
    rw [PageStoreReplay.recoverFrame_eq (by decide +kernel)]
    exact congrArg (· >>= pure)
      (PageStoreReplay.applyRecord_ofImage (Nat.zero_lt_succ 8) 1 (.filled 7))
  have replayed : ∃ after, (StorageNode.survivingFrames (firstDisk value)).foldlM
        PageStoreReplay.recoverFrame (recovering (firstDisk value)) = .ok after ∧
      after.store = (PageStore.opened ∅ 0).put 1 (.filled 7) 9 := by
    have frames : StorageNode.survivingFrames (firstDisk value) =
        [txnBatch 1 [1] value, txnBatch 3 [1] value, txnBatch 5 [1] value, txnBatch 7 [1] value,
          imageBatch 9] := rfl
    have starts : recovering (firstDisk value) =
        { store := PageStore.opened ∅ 0, lastApplied := 0, walState := 0, requestIndex := ∅ } := rfl
    simp only [frames, starts, foldlM_cons, foldlM_nil, txn, image, bind, Except.bind]
    exact ⟨_, rfl, rfl⟩
  rcases replayed with ⟨_, recovered, store⟩
  rcases exists_open_of_replay recovered with ⟨start, opened, sameStore, archived, current⟩
  exact ⟨start, opened, sameStore.trans store, archived, current⟩

theorem truncatable_txnSegment : (txnSegment value).truncatable 9 = true := by
  have ends (lsn : Nat) : (txnBatch lsn [1] value).endLsn = lsn + 2 := rfl
  simp [Segment.truncatable, Segment.maxLsn, txnSegment, frameLen_txnBatch filling, ends]

/-- A checkpoint gets past the first segment, which is then removed. -/
theorem reaches_truncated (archived : start.archived = [txnSegment value])
    (recovered : start.store = (PageStore.opened ∅ 0).put 1 (.filled 7) 9) :
    ∃ store, Reaches step anyStep start { start with store := store, archived := [] } := by
  have passed : ((runGuarded PageStore.step (fun _ action => action.isPut = false)
      ((PageStore.opened ∅ 0).put 1 (.filled 7) 9)
      [.checkpoint 0, .writeAndSync 0 false, .clearFlags 0, .updateCheckpointLsn 0]).any
        (fun store => store.checkpointLsn = 9)) = true := by
    decide +kernel
  rcases (Option.any_eq_true _ _).mp passed with ⟨store, executed, moved⟩
  refine ⟨store, ?_⟩
  rw [← recovered] at executed
  refine (reaches_maintain executed).trans ?_
  have taken : step { start with store := store } (.truncateWal 1) =
      some { start with store := store, archived := [] } := by
    have gone := truncatable_txnSegment filling
    rw [← of_decide_eq_true moved] at gone
    have removed : (txnSegment value).fileId = 1 ∧
        (txnSegment value).truncatable store.checkpointLsn = true := ⟨rfl, gone⟩
    rw [step, truncated, archived]
    simp [removed]
  exact .single trivial taken

end

end FullSegment

/-- Two restarts lose the transactions of a segment: after the first one a
checkpoint gets past them, truncation removes them, and the second one does not
find them any more. -/
theorem txnGet_lost_with_segment :
    ¬ (∀ (first start node : WalNode),
      Reaches step anyStep created first -> first.quiet = true ->
      openWithMaintenance first.disk = .ok start ->
      Reaches step anyStep start node -> node.quiet = true ->
      ∃ reopened, openWithMaintenance node.disk = .ok reopened ∧
        ∀ key readLsn,
          (∀ frame ∈ start.frames ++ node.accepted, frame.endLsn ≤ readLsn) ->
          reopened.txnGet key readLsn = node.txnGet key readLsn) := by
  intro keeps
  have filling : (List.replicate 16777133 (0 : UInt8)).length + 83 = maxWalFrameLen := by
    rw [length_replicate]
    decide
  generalize List.replicate 16777133 (0 : UInt8) = value at filling
  rcases reaches_firstLife filling with ⟨firstReached, firstQuiet⟩
  rcases open_firstDisk filling with ⟨start, opened, store, archived, current⟩
  rcases reaches_truncated filling archived store with ⟨written, reached⟩
  have facts := opened_of_open opened
  rcases facts.idle with ⟨call, writer, channel, _, loop⟩
  have rest : AtRest { start with store := written, archived := [] } :=
    ⟨call, writer, channel, loop⟩
  rw [← disk_firstLife filling] at opened
  rcases keeps _ _ _ firstReached firstQuiet opened reached rest.quiet with ⟨reopened, reopens, same⟩
  have startFrames : start.frames =
      [txnBatch 1 [1] value, txnBatch 3 [1] value, txnBatch 5 [1] value, txnBatch 7 [1] value,
        imageBatch 9] := facts.frames
  have before : start.txnGet [1] 10 = some (some value) := by
    unfold txnGet
    rw [facts.mvcc, startFrames]
    rfl
  have after : reopened.txnGet [1] 10 = none := by
    have again := opened_of_open reopens
    have left : StorageNode.survivingFrames (disk { start with store := written, archived := [] }) =
        [imageBatch 9] := congrArg (fun segment => [segment].flatMap Segment.frames) current
    unfold txnGet
    rw [again.mvcc, again.frames, left]
    decide +kernel
  have equal := same [1] 10 ?_
  · rw [after] at equal
    cases equal.trans before
  · change ∀ frame ∈ start.frames ++ start.accepted, frame.endLsn ≤ 10
    rw [startFrames, facts.blank.1]
    simp [txnBatch, imageBatch, WalBatch.starting]

end WalNode

end Storage
end ScaleKv
