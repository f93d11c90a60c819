import ScaleKv.Storage.Watermark
import Mathlib.Data.List.TakeWhile

namespace ScaleKv
namespace Storage

open Foundation List OrderedMap

/-!
# `durable_lsn` across a restart

While a node runs, `durable_lsn` is the end of its log.  After a restart it is
the last applied LSN plus one, and only page records are ever applied.  The two
agree, or the second is larger, exactly if the log does not end with a
transaction record.

Truncation and checkpoints do not matter for this: a segment is removed only
when the checkpoint LSN has passed it, and recovery starts from there.
-/

/-! ## How the checkpoint of a page store moves -/

variable {lsn : Nat} {records : List WalRecord}

namespace PageStore

/-- What a step does to the checkpoint LSN, to `checkpoint_state` and to the
tasks that are about to write the latter. -/
inductive CheckpointMove (store next : PageStore) : Prop
  | stays (lsn : next.checkpointLsn = store.checkpointLsn)
      (state : next.checkpointState = store.checkpointState)
      (stored : ∀ (id : TaskId) (lsn : Nat), next.tasks[id]? = some (.stored lsn) ->
        store.tasks[id]? = some (.stored lsn))
  | rises (higher : store.checkpointLsn < next.checkpointLsn)
      (state : next.checkpointState = store.checkpointState)
      (stored : ∀ (id : TaskId) (lsn : Nat), next.tasks[id]? = some (.stored lsn) ->
        store.tasks[id]? = some (.stored lsn) ∨ lsn = next.checkpointLsn)
  | isWritten {task : TaskId} (lsn : next.checkpointLsn = store.checkpointLsn)
      (found : store.tasks[task]? = some (.stored next.checkpointState))
      (stored : ∀ (id : TaskId) (lsn : Nat), next.tasks[id]? = some (.stored lsn) ->
        store.tasks[id]? = some (.stored lsn))

section Checkpoint

variable {store next : PageStore}

theorem stored_setTask {task id : TaskId} {entry : Task} (other : ∀ lsn, entry ≠ .stored lsn)
    (found : (store.setTask task entry).tasks[id]? = some (.stored lsn)) :
    store.tasks[id]? = some (.stored lsn) := by
  rcases lookup_insert_cases found with ⟨_, equal⟩ | ⟨_, before⟩
  · exact absurd equal.symm (other lsn)
  · exact before

theorem stored_endTask {task id : TaskId}
    (found : (store.endTask task).tasks[id]? = some (.stored lsn)) :
    store.tasks[id]? = some (.stored lsn) :=
  (lookup_erase_cases found).2

theorem checkpointMove_of_step {action : PageStoreAction} (taken : store.step action = some next) :
    CheckpointMove store next := by
  cases moves_of_step taken with
  | puts | ticks | idles => exact .stays rfl rfl (fun _ _ found => found)
  | @gets id =>
    rcases store.getWithLsn_checkpoint id with ⟨lsn, state, tasks⟩
    exact .stays lsn state (fun _ _ found => tasks ▸ found)
  | raises _ higher =>
    refine .rises higher rfl ?_
    intro id lsn found
    rcases lookup_insert_cases found with ⟨_, equal⟩ | ⟨_, before⟩
    · cases equal
      exact .inr rfl
    · exact .inl before
  | writesState lookup => exact .isWritten rfl lookup (fun _ _ found => stored_endTask found)
  | syncFails | stays | removes => exact .stays rfl rfl (fun _ _ found => stored_endTask found)
  | snapshots | syncs | clears | counts | selects | copies | flushes =>
    exact .stays rfl rfl (fun _ _ found => stored_setTask (by simp) found)

theorem checkpointMove_redoRecords {id : PageId}
    (redone : store.redoRecords id records = .ok next) : CheckpointMove store next := by
  rcases bind_eq_ok.mp redone with ⟨_, _, rest⟩
  rcases bind_eq_ok.mp rest with ⟨_, _, put⟩
  cases put
  rcases store.getWithLsn_checkpoint id with ⟨lsn, state, tasks⟩
  exact .stays lsn state (fun _ _ found => tasks ▸ found)

theorem CheckpointMove.checkpointLsn_le (move : CheckpointMove store next) :
    store.checkpointLsn ≤ next.checkpointLsn := by
  cases move with
  | stays lsn => exact le_of_eq lsn.symm
  | rises higher => exact le_of_lt higher
  | isWritten lsn => exact le_of_eq lsn.symm

/-- The checkpoint has reached the bound, in memory and on disk, and no task
will set it back. -/
structure From (bound : Nat) (store : PageStore) : Prop where
  checkpointLsn : bound ≤ store.checkpointLsn
  checkpointState : bound ≤ store.checkpointState
  stored : ∀ (id : TaskId) (lsn : Nat), store.tasks[id]? = some (.stored lsn) -> bound ≤ lsn

theorem From.move {bound : Nat} (reached : store.From bound) (move : CheckpointMove store next) :
    next.From bound := by
  cases move with
  | stays lsn state stored =>
    refine ⟨?_, ?_, fun id lsn found => reached.stored id lsn (stored id lsn found)⟩
    · rw [lsn]
      exact reached.checkpointLsn
    · rw [state]
      exact reached.checkpointState
  | rises _ state stored =>
    have below := reached.checkpointLsn
    refine ⟨by omega, ?_, ?_⟩
    · rw [state]
      exact reached.checkpointState
    · intro id lsn found
      rcases stored id lsn found with before | _
      · exact reached.stored id lsn before
      · omega
  | isWritten lsn found stored =>
    refine ⟨?_, reached.stored _ _ found, fun id lsn found =>
      reached.stored id lsn (stored id lsn found)⟩
    rw [lsn]
    exact reached.checkpointLsn

end Checkpoint

end PageStore

namespace WalNode

open StorageNode (logged logged_append logged_singleton)

/-! ## What is left of the log -/

/-- No append fails, and every frame is short enough to be read back. -/
def readableAppends (_node : WalNode) : WalNodeAction -> Prop
  | .appendWalBatch _ batch => batch.frameLen ≤ maxWalFrameLen
  | .appendFails _ _ => False
  | .flushFails _ => False
  | _ => True

instance readableAppendsDecidable (node : WalNode) (action : WalNodeAction) :
    Decidable (node.readableAppends action) := by
  unfold readableAppends
  induction action using WalNodeAction.casesOn <;> infer_instance

/-- The segments hold what the node found and what it has flushed since, except
for frames that the checkpoint LSN has passed. -/
structure LogOk (start node : WalNode) : Prop where
  sublist : node.frames.Sublist (start.frames ++ node.accepted)
  readable : ∀ frame ∈ node.frames, frame.frameLen ≤ maxWalFrameLen
  writer : ∀ batch, node.writer = .appended batch -> batch.frameLen ≤ maxWalFrameLen
  ends : ∀ frame ∈ node.accepted, ∀ record ∈ frame.records,
    record.lsn < frame.endLsn
  kept : ∀ frame ∈ node.accepted,
    frame ∈ node.frames ∨ frame.endLsn ≤ node.store.checkpointLsn

variable {action : WalNodeAction}

section LogOk

variable {start node next : WalNode} {first : Nat}

theorem Segment.endLsn_le_maxLsn {segment : Segment}
    (readable : ∀ frame ∈ segment.frames, frame.frameLen ≤ maxWalFrameLen)
    {frame : WalBatch} (member : frame ∈ segment.frames) : frame.endLsn ≤ segment.maxLsn := by
  unfold Segment.maxLsn
  have all : segment.frames.takeWhile (fun frame => frame.frameLen ≤ maxWalFrameLen) =
      segment.frames :=
    takeWhile_eq_self_iff.mpr (fun other listed => decide_eq_true (readable other listed))
  rw [all]
  exact Largest.measure_le_foldl member 0

theorem LogOk.transfer (log : LogOk start node) (frames : next.frames = node.frames)
    (accepted : next.accepted = node.accepted)
    (writer : ∀ batch, next.writer = .appended batch -> batch.frameLen ≤ maxWalFrameLen)
    (checkpoint : node.store.checkpointLsn ≤ next.store.checkpointLsn) : LogOk start next where
  sublist := by
    rw [frames, accepted]
    exact log.sublist
  readable := by
    rw [frames]
    exact log.readable
  writer := writer
  ends := by
    rw [accepted]
    exact log.ends
  kept := by
    rw [frames, accepted]
    intro frame member
    rcases log.kept frame member with present | passed
    · exact .inl present
    · exact .inr (passed.trans checkpoint)

theorem LogOk.truncates (log : LogOk start node) (fileId : Nat) :
    LogOk start (node.truncated fileId) := by
  have shorter : (node.truncated fileId).frames.Sublist node.frames :=
    (List.Sublist.append_right filter_sublist _).flatMap _
  refine ⟨shorter.trans log.sublist, fun frame member => log.readable frame (shorter.subset member),
    log.writer, log.ends, ?_⟩
  intro frame member
  rcases log.kept frame member with present | passed
  · rcases mem_flatMap.mp present with ⟨segment, listed, inSegment⟩
    rcases mem_append.mp listed with archived | current
    · by_cases removed : segment.fileId = fileId ∧
          segment.truncatable node.store.checkpointLsn = true
      · right
        have passed := (of_decide_eq_true removed.2).2
        refine le_trans (Segment.endLsn_le_maxLsn ?_ inSegment) passed
        exact fun other inOther => log.readable other (mem_flatMap.mpr ⟨segment, listed, inOther⟩)
      · left
        refine mem_flatMap.mpr ⟨segment, mem_append_left _ (mem_filter.mpr
          ⟨archived, ?_⟩), inSegment⟩
        rw [Bool.not_eq_true']
        exact decide_eq_false removed
    · exact .inl (mem_flatMap.mpr ⟨segment, mem_append_right _ current, inSegment⟩)
  · exact .inr passed

theorem LogOk.flushes {batch : WalBatch} (ordered : Ordered first node) (log : LogOk start node)
    (writer : node.writer = .appended batch) :
    LogOk start (node.flushed batch) := by
  rcases validateIncomingWalBatch_eq_ok.mp (ordered.appended writer).2 with ⟨_, length, numbered⟩
  refine ⟨?_, ?_, by simp [flushed], ?_, ?_⟩
  · rw [frames_flushed, flushed, ← append_assoc]
    exact log.sublist.append_right _
  · rw [frames_flushed]
    refine forall_mem_append.mpr ⟨log.readable, forall_mem_singleton.mpr ?_⟩
    exact log.writer batch writer
  · refine forall_mem_append.mpr ⟨log.ends, forall_mem_singleton.mpr ?_⟩
    intro _ inBatch
    rw [length]
    exact (numbered.bounds inBatch).2
  · rw [frames_flushed]
    intro frame member
    rcases mem_append.mp member with before | own
    · rcases log.kept frame before with present | passed
      · exact .inl (mem_append_left _ present)
      · exact .inr passed
    · exact .inl (mem_append_right _ own)

theorem logOk_step (ordered : Ordered first node) (log : LogOk start node)
    (readable : node.readableAppends action) (taken : node.step action = some next) :
    LogOk start next := by
  cases moves_of_step taken with
  | refuses => exact log
  | rotates =>
    rcases node.rotateIfNeeded_eq with ⟨_, _, _, shape, sameFrames⟩
    rw [shape]
    exact log.transfer sameFrames rfl log.writer le_rfl
  | appends =>
    rcases node.rotateIfNeeded_eq with ⟨_, _, _, shape, sameFrames⟩
    rw [shape]
    refine log.transfer sameFrames rfl ?_ le_rfl
    rintro _ ⟨⟩
    exact readable
  | appendFails => exact readable.elim
  | flushes writer => exact log.flushes ordered writer
  | flushFails => exact readable.elim
  | publishes => exact log.transfer rfl rfl (by simp) le_rfl
  | handsOver => exact log.transfer rfl rfl (by simp) le_rfl
  | redoes _ _ redone =>
    exact log.transfer rfl rfl log.writer
      (PageStore.checkpointMove_redoRecords redone).checkpointLsn_le
  | maintains _ stepped =>
    exact log.transfer rfl rfl log.writer
      (PageStore.checkpointMove_of_step stepped).checkpointLsn_le
  | truncates => exact log.truncates _
  | _ => exact log.transfer rfl rfl log.writer le_rfl

end LogOk

/-! ## The counters -/

def LoopStage.isStored : LoopStage -> Bool
  | .stored _ _ => true
  | _ => false

/-- The counters of a node since its start.  All LSNs in the page store are
applied or about to be; the last applied LSN is on disk unless `wal_state` is
about to be written; and no counter exceeds the LSNs of the page records. -/
structure Counters (start node : WalNode) : Prop where
  grows : start.lastApplied ≤ node.lastApplied
  stored : ∀ lsn resume, node.loop = .stored lsn resume -> node.lastApplied = lsn
  onDisk : LoopStage.isStored node.loop = false ->
    node.lastApplied ≤ max node.walState start.store.checkpointState
  checkpoint : node.store.From start.store.checkpointState
  store : node.store.UpTo (max node.lastApplied node.loop.putLsn)
  within : ∀ bound, start.lastApplied ≤ bound ->
    (∀ record ∈ logged node.accepted, record.op.isTxn = false ->
      record.lsn ≤ bound) ->
    node.lastApplied ≤ bound ∧ node.walState ≤ bound ∧ node.loop.putLsn ≤ bound

section Counters

variable {start node next : WalNode} {first : Nat} {resume : Resume}
  (counters : Counters start node)

include counters

theorem Counters.outside (loop : next.loop = node.loop)
    (lastApplied : next.lastApplied = node.lastApplied) (walState : next.walState = node.walState)
    (checkpoint : next.store.From start.store.checkpointState)
    (store : next.store.UpTo (max node.lastApplied node.loop.putLsn))
    (accepted : ∀ record ∈ logged node.accepted, record ∈ logged next.accepted) :
    Counters start next where
  grows := by
    rw [lastApplied]
    exact counters.grows
  stored := by
    rw [loop, lastApplied]
    exact counters.stored
  onDisk := by
    rw [loop, lastApplied, walState]
    exact counters.onDisk
  checkpoint := checkpoint
  store := by
    rw [loop, lastApplied]
    exact store
  within := by
    rw [loop, lastApplied, walState]
    intro bound small below
    exact counters.within bound small (fun record member => below record (accepted record member))

theorem Counters.moveLoop (notStored : LoopStage.isStored node.loop = false)
    (noPut : node.loop.putLsn ≤ node.lastApplied)
    (nextStored : LoopStage.isStored next.loop = false) (nextPut : next.loop.putLsn = 0)
    (lastApplied : next.lastApplied = node.lastApplied) (walState : next.walState = node.walState)
    (store : next.store = node.store) (accepted : next.accepted = node.accepted) :
    Counters start next where
  grows := by
    rw [lastApplied]
    exact counters.grows
  stored := by
    intro _ _ loop
    rw [loop] at nextStored
    cases nextStored
  onDisk := by
    intro _
    rw [lastApplied, walState]
    exact counters.onDisk notStored
  checkpoint := by
    rw [store]
    exact counters.checkpoint
  store := by
    rw [store, lastApplied, nextPut]
    refine counters.store.mono ?_
    omega
  within := by
    rw [accepted, lastApplied, walState, nextPut]
    intro bound small below
    have := counters.within bound small below
    omega

theorem Counters.redoes (ordered : Ordered first node) {id : PageId} {store : PageStore}
    (loop : node.loop = .flushing id records resume)
    (redone : node.store.redoRecords id records = .ok store) :
    Counters start (node.putRecords store records resume) where
  grows := counters.grows
  stored := by
    nofun
  onDisk := by
    intro _
    refine counters.onDisk ?_
    rw [loop]
    rfl
  checkpoint := counters.checkpoint.move (PageStore.checkpointMove_redoRecords redone)
  store := by
    have upTo := counters.store
    rw [loop] at upTo
    refine PageStore.UpTo.redoRecords (upTo.mono ?_) redone (le_max_right _ _)
    exact max_le (le_max_left _ _) (Nat.zero_le _)
  within := by
    intro bound small below
    rcases counters.within bound small below with ⟨lastApplied, walState, _⟩
    refine ⟨lastApplied, walState, maxLsn_le ?_⟩
    intro record member
    have waits : node.Waits record := by
      right
      rw [loop]
      exact member
    rcases ordered.waits record waits with ⟨isLogged, page⟩
    exact below record isLogged page

theorem Counters.raises (loop : node.loop = .written lsn resume)
    (higher : node.lastApplied < lsn) :
    Counters start { node with lastApplied := lsn, loop := .stored lsn resume } where
  grows := counters.grows.trans (le_of_lt higher)
  stored := by
    intro _ _ same
    cases same
    rfl
  onDisk := by
    nofun
  checkpoint := counters.checkpoint
  store := by
    have upTo := counters.store
    rw [loop] at upTo
    refine upTo.mono ?_
    exact max_le (le_trans (le_of_lt higher) (le_max_left _ _)) (le_max_left _ _)
  within := by
    intro bound small below
    have bounds := counters.within bound small below
    rw [loop] at bounds
    exact ⟨bounds.2.2, bounds.2.1, bounds.2.2⟩

theorem Counters.writesState (loop : node.loop = .stored lsn resume) :
    Counters start { node with walState := lsn, loop := .running resume } := by
  have same : node.lastApplied = lsn := counters.stored lsn resume loop
  refine ⟨counters.grows, ?_, ?_, counters.checkpoint, ?_, ?_⟩
  · nofun
  · intro _
    exact le_trans (le_of_eq same) (le_max_left _ _)
  · have upTo := counters.store
    rw [loop] at upTo
    refine upTo.mono ?_
    exact max_le (le_max_left _ _) (le_trans (le_of_eq same.symm) (le_max_left _ _))
  · intro bound small below
    have bounds := counters.within bound small below
    rw [loop] at bounds
    exact ⟨bounds.1, bounds.2.2, Nat.zero_le bound⟩

theorem counters_step (ordered : Ordered first node) (taken : node.step action = some next) :
    Counters start next := by
  cases moves_of_step taken with
  | refuses => exact counters
  | flushes =>
    refine counters.outside rfl rfl rfl counters.checkpoint counters.store ?_
    intro _ member
    rw [logged_flushed]
    exact mem_append_left _ member
  | redoes loop _ redone => exact counters.redoes ordered loop redone
  | raises loop higher => exact counters.raises loop higher
  | keeps loop lower =>
    refine counters.moveLoop ?_ ?_ rfl rfl rfl rfl rfl rfl
    · rw [loop]
      rfl
    · rw [loop]
      exact lower
  | writesState loop => exact counters.writesState loop
  | maintains notPut stepped =>
    exact counters.outside rfl rfl rfl
      (counters.checkpoint.move (PageStore.checkpointMove_of_step stepped))
      (counters.store.step notPut stepped) (fun _ member => member)
  | receives loop | closes _ _ loop =>
    refine counters.moveLoop ?_ ?_ rfl rfl rfl rfl rfl rfl <;> rw [loop]
    · rfl
    · exact Nat.zero_le _
  | endsBatch loop | skips loop _ | breaksOff loop _ | passes loop _ _ | waits loop _ _ _
  | fills loop _ _ _ | ends loop | takes loop | hasNothing loop | redoFails loop _ =>
    refine counters.moveLoop ?_ ?_ rfl rfl rfl rfl rfl rfl <;> rw [loop]
    · rfl
    · exact Nat.zero_le _
  | _ =>
    have outside := outside_of_step rfl taken
    refine counters.outside outside.loop outside.lastApplied outside.walState ?_ ?_ ?_
    · rw [outside.store]
      exact counters.checkpoint
    · rw [outside.store]
      exact counters.store
    · rw [outside.accepted]
      exact fun _ member => member

end Counters

variable {start : WalNode} {disk : Disk}

theorem Opened.logOk (opened : Opened disk start) :
    LogOk start start where
  sublist := sublist_append_left _ _
  readable := opened.readable
  writer := by
    intro _ appended
    rw [opened.idle.2.1] at appended
    cases appended
  ends := by
    rw [opened.blank.1]
    nofun
  kept := by
    rw [opened.blank.1]
    nofun

theorem Opened.counters (opened : Opened disk start) :
    Counters start start := by
  have idle := opened.idle.2.2.2.2
  refine ⟨le_rfl, ?_, fun _ => opened.recovery, ?_, ?_, ?_⟩
  · intro _ _ stored
    rw [idle] at stored
    cases stored
  · refine ⟨le_of_eq opened.checkpointLsn.symm, le_rfl, ?_⟩
    intro _ _ stored
    rw [opened.tasks, Std.TreeMap.getElem?_emptyc] at stored
    cases stored
  · exact opened.store.mono (le_max_left _ _)
  · intro bound small _
    refine ⟨small, opened.walState.trans small, ?_⟩
    rw [idle]
    exact Nat.zero_le bound

/-! ## Closing a node and opening it again -/

/-- Nothing is in flight: the writer loop and the replay loop have done what
they were given. -/
def quiet (node : WalNode) : Bool :=
  node.writer.isIdle && node.channel.isEmpty &&
    match node.loop with
    | .idle => true
    | .ended => true
    | _ => false

/-- The last flushed record, if there is one, is the record of a page. -/
def endsWithPage (node : WalNode) : Bool :=
  (logged node.accepted).getLast?.all (fun record => !record.op.isTxn)

/-- A node since its start, with appends that can be read back. -/
structure Runs (start node : WalNode) : Prop where
  ordered : Ordered start.durableLsn node
  log : LogOk start node
  counters : Counters start node

theorem runs_of_reaches {node : WalNode} (opened : Opened disk start)
    (reached : Reaches step readableAppends start node) : Runs start node := by
  refine reached.invariant ⟨opened.ordered, opened.logOk, opened.counters⟩ ?_
  intro _ _ _ runs readable taken
  exact ⟨ordered_step runs.ordered taken, logOk_step runs.ordered runs.log readable taken,
    counters_step runs.counters runs.ordered taken⟩

section Restart

variable {disk : Disk} {start node reopened : WalNode}

theorem writer_of_quiet (isQuiet : node.quiet = true) : node.writer = .idle := by
  rcases Bool.and_eq_true_iff.mp isQuiet with ⟨outside, _⟩
  have idle := (Bool.and_eq_true_iff.mp outside).1
  cases writer : node.writer with
  | idle => rfl
  | appended _ | synced _ | published _ =>
    rw [writer] at idle
    cases idle

theorem loop_of_quiet (isQuiet : node.quiet = true) : node.loop = .idle ∨ node.loop = .ended := by
  have done := (Bool.and_eq_true_iff.mp isQuiet).2
  split at done
  · next idle => exact .inl idle
  · next ended => exact .inr ended
  · cases done

section

variable (runs : Runs start node)

include runs

theorem Runs.durableLsn_eq (isQuiet : node.quiet = true) :
    node.durableLsn = start.durableLsn + (logged node.accepted).length :=
  (runs.ordered.at_stage (writer_of_quiet isQuiet)).writer

/-- A node that is quiet has its last applied LSN on disk, and no larger LSN in
its page store. -/
theorem Runs.onDisk (isQuiet : node.quiet = true) :
    node.store.UpTo node.lastApplied ∧ node.lastApplied ≤ StorageNode.recoveryLsn node.disk := by
  have noPut : node.loop.putLsn = 0 := by
    rcases loop_of_quiet isQuiet with idle | ended
    · rw [idle]
      rfl
    · rw [ended]
      rfl
  have notStored : LoopStage.isStored node.loop = false := by
    rcases loop_of_quiet isQuiet with idle | ended
    · rw [idle]
      rfl
    · rw [ended]
      rfl
  have store := runs.counters.store
  rw [noPut, Nat.max_zero] at store
  refine ⟨store, (runs.counters.onDisk notStored).trans ?_⟩
  exact max_le_max le_rfl runs.counters.checkpoint.checkpointState

/-- The frame of a flushed page record is read again, or recovery starts behind
its end. -/
theorem Runs.lsn_le_reopened (isQuiet : node.quiet = true)
    (again : Opened node.disk reopened) {record : WalRecord}
    (member : record ∈ logged node.accepted) (page : record.op.isTxn = false) :
    record.lsn ≤ reopened.lastApplied := by
  rcases mem_flatMap.mp member with ⟨frame, flushed, inFrame⟩
  rcases runs.log.kept frame flushed with present | passed
  · refine again.covered record ?_ page
    rw [again.frames]
    exact mem_flatMap.mpr ⟨frame, present, inFrame⟩
  · rcases runs.onDisk isQuiet with ⟨store, onDisk⟩
    calc record.lsn ≤ frame.endLsn := le_of_lt (runs.log.ends frame flushed record inFrame)
      _ ≤ node.store.checkpointLsn := passed
      _ ≤ node.lastApplied := store.checkpointLsn
      _ ≤ StorageNode.recoveryLsn node.disk := onDisk
      _ ≤ reopened.lastApplied := again.atLeast

/-- Nothing that recovery reads exceeds the LSNs of the page records. -/
theorem Runs.reopened_le (facts : Opened disk start)
    (isQuiet : node.quiet = true) (again : Opened node.disk reopened) {bound : Nat}
    (small : start.lastApplied ≤ bound)
    (below : ∀ record ∈ logged node.accepted, record.op.isTxn = false ->
      record.lsn ≤ bound) : reopened.lastApplied ≤ bound := by
  rcases runs.counters.within bound small below with ⟨lastApplied, walState, _⟩
  have state := (runs.onDisk isQuiet).1.checkpointState
  refine again.atMost bound (max_le walState (state.trans lastApplied)) ?_
  intro record member page
  rw [again.frames] at member
  rcases mem_flatMap.mp member with ⟨frame, present, inFrame⟩
  rcases mem_append.mp (runs.log.sublist.subset present) with found | flushed
  · exact (facts.covered record (mem_flatMap.mpr ⟨frame, found, inFrame⟩) page).trans small
  · exact below record (mem_flatMap.mpr ⟨frame, flushed, inFrame⟩) page

end

end Restart

/-- Records of a transaction batch. -/
def txnRecord (lsn : Nat) (op : WalOp) (key value : Bytes) : WalRecord :=
  { lsn := lsn, op := op, pageId := 0, slotId := 0, key := key, value := value }

/-- The write-ahead rule.  In every run, failed appends included, no page, no
checkpoint and no counter of replay is ahead of the flushed log. -/
theorem write_ahead {disk : Disk} {start node : WalNode} (opened : openWithMaintenance disk = .ok start)
    (reached : Reaches step anyStep start node) :
    ∃ bound, bound + 1 = start.durableLsn + (logged node.accepted).length ∧
      node.lastApplied ≤ bound ∧ node.walState ≤ bound ∧ node.store.UpTo bound := by
  have facts := opened_of_open opened
  have kept : Ordered start.durableLsn node ∧ Counters start node := by
    apply reached.invariant
    · exact ⟨facts.ordered, facts.counters⟩
    · rintro _ _ _ ⟨ordered, counters⟩ _ taken
      exact ⟨ordered_step ordered taken, counters_step counters ordered taken⟩
  rcases kept with ⟨ordered, counters⟩
  have first := facts.durable
  have flushed : ∀ record ∈ logged node.accepted, record.op.isTxn = false ->
      record.lsn ≤ start.lastApplied + (logged node.accepted).length := by
    intro record member _
    have below := (ordered.numbered.bounds member).2
    omega
  rcases counters.within _ (Nat.le_add_right _ _) flushed with ⟨applied, written, put⟩
  exact ⟨_, by omega, applied, written, counters.store.mono (max_le applied put)⟩

/-- A page is put after another append has failed. -/
theorem write_ahead_failed_append : ∃ node, Reaches step anyStep created node ∧
    node.failed.length = 1 ∧ node.lastApplied ≤ (logged node.accepted).length := by
  have passed : (runGuarded step anyStep created
      [.appendWalBatch false (.starting 1 [.ofImage 1 1 (.filled 7)]), .flush, .storeDurableLsn,
        .handOver, .appendFails (.starting 2 [.ofImage 2 1 (.filled 8)]) true, .receiveBatch,
        .replayRecord, .replayPage, .updateLastApplied]).any (fun node => node.failed.length = 1) = true := by
    decide +kernel
  rcases exists_reaches_of_decide passed with ⟨node, reached, failed⟩
  rcases write_ahead openWithMaintenance_empty reached with ⟨bound, isBound, applied, _⟩
  exact ⟨node, reached, failed, by simp only [created] at isBound; omega⟩

end WalNode

end Storage
end ScaleKv
