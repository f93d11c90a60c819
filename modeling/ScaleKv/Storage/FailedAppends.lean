import ScaleKv.Storage.TxnReads

namespace ScaleKv
namespace Storage

open Foundation List Option

/-!
# Failed appends and a crash

An append whose flush fails returns an error and leaves `durable_lsn` as it was.
Its frame may be in the segment all the same.  The next batch gets the same
LSNs, and recovery, which applies the first record that it meets for an LSN,
prefers the failed frame.

If nothing is appended behind a failed frame, every acknowledged image that
recovery does not skip is recovered.
-/

/-! ## Recovery of one page -/

namespace PageStoreReplay

section OnePage

variable {replay after : PageStoreReplay} {record : WalRecord} {records : List WalRecord}
variable {frames : List WalBatch} {id : PageId} {bound : Nat}

theorem recoverRecord_cases (recovered : replay.recoverRecord record = .ok after) :
    (after = replay ∧ (record.lsn ≤ replay.lastApplied ∨ record.op.isTxn = true)) ∨
      (replay.lastApplied < record.lsn ∧ record.op.isTxn = false ∧ after.lastApplied = record.lsn ∧
        ∃ page : PageImage,
          applyWalRecord ((replay.store.get record.pageId).getD .zero).bytes record =
            .ok page.bytes ∧
          ∀ other, after.store.get other =
            if record.pageId = other then some page else replay.store.get other) := by
  unfold recoverRecord at recovered
  split at recovered
  · next old =>
    cases recovered
    exact .inl ⟨rfl, .inl old⟩
  · next new =>
    split at recovered
    · next txn =>
      cases recovered
      exact .inl ⟨rfl, .inr txn⟩
    · next page =>
      rcases bind_eq_ok.mp recovered with ⟨_, redone, shape⟩
      rcases bind_eq_ok.mp redone with ⟨_, applied, rest⟩
      rcases bind_eq_ok.mp rest with ⟨image, sized, put⟩
      have ahead : replay.lastApplied < record.lsn := not_le.mp new
      cases put
      unfold updateLastApplied at shape
      rw [if_pos ahead] at shape
      cases shape
      refine .inr ⟨ahead, Bool.eq_false_iff.mpr page, rfl, image, ?_, ?_⟩
      · rw [applied, PageImage.ofSlice_eq_ok.mp sized]
      · intro other
        rw [PageStore.get_put, PageStore.get_getWithLsn]

/-- Records that recovery passes over, and those of other pages, leave a page
alone. -/
theorem get_of_untouched (recovered : records.foldlM recoverRecord replay = .ok after)
    (untouched : ∀ record ∈ records, record.op.isTxn = false ->
      record.pageId = id -> record.lsn ≤ replay.lastApplied) :
    after.store.get id = replay.store.get id := by
  induction records generalizing replay with
  | nil =>
    cases recovered
    rfl
  | cons head tail ih =>
    rw [foldlM_cons] at recovered
    rcases bind_eq_ok.mp recovered with ⟨middle, first, rest⟩
    rcases recoverRecord_cases first with ⟨same, _⟩ | ⟨_, page, _, _, _, pages⟩
    · rw [same] at rest
      exact ih rest (fun record member => untouched record (mem_cons_of_mem _ member))
    · have elsewhere : head.pageId ≠ id := by
        intro own
        have := untouched head mem_cons_self page own
        omega
      have tailUntouched : ∀ record ∈ tail, record.op.isTxn = false ->
          record.pageId = id -> record.lsn ≤ middle.lastApplied := by
        intro record member isPage own
        have := untouched record (mem_cons_of_mem _ member) isPage own
        omega
      rw [ih rest tailUntouched, pages, if_neg elsewhere]

theorem lastApplied_lt (recovered : records.foldlM recoverRecord replay = .ok after)
    (below : replay.lastApplied < bound)
    (small : ∀ record ∈ records, record.op.isTxn = false -> record.lsn < bound) :
    after.lastApplied < bound := by
  induction records generalizing replay with
  | nil =>
    cases recovered
    exact below
  | cons head tail ih =>
    rw [foldlM_cons] at recovered
    rcases bind_eq_ok.mp recovered with ⟨_, first, rest⟩
    refine ih rest ?_ (fun record member => small record (mem_cons_of_mem _ member))
    rcases recoverRecord_cases first with ⟨same, _⟩ | ⟨_, page, raised, _⟩
    · rw [same]
      exact below
    · rw [raised]
      exact small head mem_cons_self page

theorem recoverRecord_requestIndex (replay : PageStoreReplay) (record : WalRecord)
    (requestIndex : Std.TreeMap Nat Nat) :
    recoverRecord { replay with requestIndex := requestIndex } record =
      (replay.recoverRecord record).map (fun done => { done with requestIndex := requestIndex }) := by
  unfold recoverRecord applyRecord
  split
  · rfl
  · split
    · rfl
    · cases replay.store.redoRecord record with
      | error => rfl
      | ok =>
        simp only [bind, Except.bind, pure, Except.pure, Except.map, updateLastApplied]
        split <;> rfl

theorem recoverRecords_requestIndex (replay : PageStoreReplay) (records : List WalRecord)
    (requestIndex : Std.TreeMap Nat Nat) :
    records.foldlM recoverRecord { replay with requestIndex := requestIndex } =
      (records.foldlM recoverRecord replay).map
        (fun done => { done with requestIndex := requestIndex }) := by
  induction records generalizing replay with
  | nil => rfl
  | cons head tail ih =>
    rw [foldlM_cons, foldlM_cons, recoverRecord_requestIndex]
    cases replay.recoverRecord head with
    | error => rfl
    | ok middle => exact ih middle

/-- Recovery takes the records of the frames one after another; the request
index does not matter. -/
theorem exists_records_of_frames
    (readable : ∀ frame ∈ frames, frame.frameLen ≤ maxWalFrameLen)
    (recovered : frames.foldlM recoverFrame replay = .ok after) :
    ∃ same, (StorageNode.logged frames).foldlM recoverRecord replay = .ok same ∧
      same.store = after.store := by
  induction frames generalizing replay with
  | nil =>
    cases recovered
    exact ⟨_, rfl, rfl⟩
  | cons head tail ih =>
    rw [foldlM_cons, recoverFrame_eq (readable head mem_cons_self),
      recoverRecords_requestIndex] at recovered
    rcases bind_eq_ok.mp recovered with ⟨_, first, rest⟩
    cases own : head.records.foldlM recoverRecord replay with
    | error =>
      rw [own] at first
      cases first
    | ok middle =>
      rw [own] at first
      cases first
      rcases ih (fun frame member => readable frame (mem_cons_of_mem _ member)) rest
        with ⟨_, tailRecovered, store⟩
      rw [recoverRecords_requestIndex] at tailRecovered
      cases behind : (StorageNode.logged tail).foldlM recoverRecord middle with
      | error =>
        rw [behind] at tailRecovered
        cases tailRecovered
      | ok last =>
        rw [behind] at tailRecovered
        cases tailRecovered
        refine ⟨last, ?_, store⟩
        change (head.records ++ StorageNode.logged tail).foldlM recoverRecord replay = _
        rw [foldlM_append, own]
        exact behind

theorem get_of_image {before behind : List WalRecord}
    (recovered : (before ++ record :: behind).foldlM recoverRecord replay = .ok after)
    (image : record.op = .pageImage) (new : replay.lastApplied < record.lsn)
    (older : ∀ other ∈ before, other.op.isTxn = false -> other.lsn < record.lsn)
    (last : ∀ other ∈ behind, other.op.isTxn = false ->
      other.pageId ≠ record.pageId) :
    (after.store.get record.pageId).map PageImage.bytes = some record.value := by
  rw [foldlM_append] at recovered
  rcases bind_eq_ok.mp recovered with ⟨_, first, rest⟩
  rw [foldlM_cons] at rest
  rcases bind_eq_ok.mp rest with ⟨put, own, others⟩
  have ahead := lastApplied_lt first new older
  have isPage : record.op.isTxn = false := by
    rw [image]
    rfl
  have kept : after.store.get record.pageId = put.store.get record.pageId :=
    get_of_untouched others (fun other member page same => absurd same (last other member page))
  rcases recoverRecord_cases own with ⟨_, _ | txn⟩ | ⟨_, _, _, _, applied, pages⟩
  · omega
  · rw [isPage] at txn
    cases txn
  · rw [kept, pages, if_pos rfl]
    unfold applyWalRecord at applied
    rw [image] at applied
    dsimp only at applied
    split at applied
    · cases applied
    · exact congrArg some (Except.ok.inj applied).symm

end OnePage

end PageStoreReplay

namespace WalNode

open StorageNode (logged logged_append logged_singleton survivingFrames recoveryLsn)

/-! ## The log with a failed frame at its end -/

/-- Nothing is appended behind a failed frame, and no segment is removed. -/
def failuresLast (node : WalNode) : WalNodeAction -> Prop
  | .appendWalBatch _ _ => node.failed.isEmpty = true
  | .appendFails _ _ => node.failed.isEmpty = true
  | .truncateWal _ => False
  | _ => True

instance failuresLastDecidable (node : WalNode) (action : WalNodeAction) :
    Decidable (node.failuresLast action) := by
  unfold failuresLast
  induction action using WalNodeAction.casesOn <;> infer_instance

/-- The segments hold the frames of the calls in order, with the failed one at
the end. -/
structure FailedLast (start : WalNode) (first : Nat) (node : WalNode) : Prop where
  frames : node.frames = start.frames ++ (node.accepted ++ node.failed)
  writer : ∀ batch, node.writer = .appended batch -> node.failed = []
  numbered : Numbered (first + (logged node.accepted).length) (logged node.failed)

variable {action : WalNodeAction}

section FailedLast

variable {start node next : WalNode} {first : Nat}

section

variable (log : FailedLast start first node) {batch : WalBatch}

include log

theorem FailedLast.transfer (frames : next.frames = node.frames)
    (accepted : next.accepted = node.accepted) (failed : next.failed = node.failed)
    (writer : ∀ batch, next.writer = .appended batch -> node.failed = []) :
    FailedLast start first next where
  frames := by
    rw [frames, accepted, failed]
    exact log.frames
  writer := by
    rw [failed]
    exact writer
  numbered := by
    rw [accepted, failed]
    exact log.numbered

theorem FailedLast.fails {inFile : Bool} (none : node.failed = [])
    (valid : validateIncomingWalBatch (first + (logged node.accepted).length) batch = .ok ())
    (idle : next.writer = .idle) (frames : next.frames = (node.fail batch inFile).frames)
    (accepted : next.accepted = node.accepted)
    (failed : next.failed = (node.fail batch inFile).failed) : FailedLast start first next := by
  unfold fail at frames failed
  split at frames
  · next inLog =>
    rw [if_pos inLog] at failed
    change next.frames = (node.addFrame batch).frames at frames
    rw [none, nil_append] at failed
    rw [frames_addFrame, log.frames, none] at frames
    refine ⟨?_, ?_, ?_⟩
    · rw [frames, accepted, failed]
      simp
    · rw [idle]
      nofun
    · rcases validateIncomingWalBatch_eq_ok.mp valid with ⟨begins, _, numbered⟩
      rw [accepted, failed, logged_singleton, ← begins]
      exact numbered
  · next notInLog =>
    rw [if_neg notInLog] at failed
    refine log.transfer frames accepted failed ?_
    rw [idle]
    nofun

theorem FailedLast.flushes (writer : node.writer = .appended batch) :
    FailedLast start first (node.flushed batch) := by
  have none := log.writer batch writer
  refine ⟨?_, ?_, ?_⟩
  · rw [frames_flushed, log.frames, none]
    change _ = start.frames ++ ((node.accepted ++ [batch]) ++ node.failed)
    rw [none]
    simp
  · nofun
  · change Numbered _ (logged node.failed)
    rw [none]
    exact trivial

end

theorem failedLast_step (ordered : Ordered first node)
    (log : FailedLast start first node) (guard : node.failuresLast action)
    (taken : node.step action = some next) : FailedLast start first next := by
  cases moves_of_step taken with
  | refuses => exact log
  | rotates =>
    rcases node.rotateIfNeeded_eq with ⟨_, _, _, shape, sameFrames⟩
    rw [shape]
    exact log.transfer sameFrames rfl rfl log.writer
  | appends =>
    rcases node.rotateIfNeeded_eq with ⟨_, _, _, shape, sameFrames⟩
    rw [shape]
    exact log.transfer sameFrames rfl rfl (fun _ _ => isEmpty_iff.mp guard)
  | @appendFails _ _ ready valid =>
    have idle := writer_of_ready ready
    rw [(ordered.at_stage idle).writer] at valid
    rcases node.rotateIfNeeded_eq with ⟨_, _, _, shape, sameFrames⟩
    rw [shape]
    have rotated := log.transfer sameFrames rfl rfl log.writer
    refine rotated.fails (isEmpty_iff.mp guard) valid ?_ rfl ?_ rfl
    · unfold fail
      split <;> exact idle
    · unfold fail
      split <;> rfl
  | flushes writer => exact log.flushes writer
  | @flushFails batch _ writer =>
    rcases ordered.appended writer with ⟨durable, valid⟩
    rw [durable] at valid
    refine log.fails (log.writer batch writer) valid rfl rfl ?_ rfl
    unfold fail
    split <;> rfl
  | publishes | handsOver =>
    refine log.transfer rfl rfl rfl ?_
    nofun
  | truncates => exact guard.elim
  | _ => exact log.transfer rfl rfl rfl log.writer

end FailedLast

/-! ## Acknowledged batches -/

/-- The acknowledged batches are flushed ones, in the order of the calls, and
the call that waits is the last one. -/
structure Acks (node : WalNode) : Prop where
  sublist : node.acknowledged.Sublist node.accepted
  appended : ∀ batch other, node.call = some batch -> node.writer = .appended other ->
    other = batch
  waits : ∀ batch, node.call = some batch -> (∀ other, node.writer ≠ .appended other) ->
    ∃ earlier, node.accepted = earlier ++ [batch] ∧ node.acknowledged.Sublist earlier

section Acks

variable {node next : WalNode}

theorem Acks.moveWriter (acks : Acks node) (flushed : ∀ other, node.writer ≠ .appended other)
    (moved : ∀ other, next.writer ≠ .appended other) (call : next.call = node.call)
    (accepted : next.accepted = node.accepted)
    (acknowledged : next.acknowledged = node.acknowledged) : Acks next where
  sublist := by
    rw [accepted, acknowledged]
    exact acks.sublist
  appended := fun batch other _ appended => absurd appended (moved other)
  waits := by
    intro batch called _
    rw [accepted, acknowledged]
    exact acks.waits batch (call ▸ called) flushed

theorem acks_step (acks : Acks node) (taken : node.step action = some next) : Acks next := by
  cases moves_of_step taken with
  | refuses => exact acks
  | rotates =>
    rcases node.rotateIfNeeded_eq with ⟨_, _, _, shape, _⟩
    rw [shape]
    exact { acks with }
  | @appends _ batch =>
    rcases node.rotateIfNeeded_eq with ⟨_, _, _, shape, _⟩
    rw [shape]
    refine ⟨acks.sublist, ?_, ?_⟩
    · intro called other call writer
      cases writer
      split at call
      · exact some.inj call
      · cases call
    · intro called _ flushed
      exact absurd rfl (flushed batch)
  | @appendFails batch inFile =>
    rcases node.rotateIfNeeded_fail batch inFile with ⟨_, _, _, _, shape⟩
    rw [shape]
    exact { acks with }
  | @flushes batch writer =>
    refine ⟨acks.sublist.trans (sublist_append_left _ _), ?_, ?_⟩
    · nofun
    · intro called call _
      rw [← acks.appended called batch call writer]
      exact ⟨node.accepted, rfl, acks.sublist⟩
  | @flushFails batch inFile =>
    rcases node.fail_eq batch inFile with ⟨_, _, shape⟩
    rw [shape]
    refine ⟨acks.sublist, ?_, ?_⟩
    · nofun
    · nofun
  | publishes writer | handsOver writer =>
    refine acks.moveWriter ?_ ?_ rfl rfl rfl
    · rw [writer]
      nofun
    · nofun
  | @acknowledges batch call writer =>
    refine ⟨?_, ?_, ?_⟩
    · have flushed : ∀ other, node.writer ≠ .appended other := by
        rw [writer]
        nofun
      rcases acks.waits batch call flushed with ⟨_, shape, before⟩
      rw [shape]
      exact before.append (List.Sublist.refl _)
    · nofun
    · nofun
  | _ => exact { acks with }

theorem Opened.acks {disk : Disk} (opened : Opened disk node) : Acks node := by
  rcases opened.blank with ⟨_, _, _, acknowledged, _⟩
  rcases opened.idle with ⟨call, _⟩
  refine ⟨?_, ?_, ?_⟩
  · rw [acknowledged]
    exact nil_sublist _
  · rw [call]
    nofun
  · rw [call]
    nofun

end Acks

/-! ## The crash -/

/-- What a crash leaves: the files, and possibly the frame that was written and
not flushed. -/
def CrashDisk (node : WalNode) (crashed : Disk) : Prop :=
  crashed = node.disk ∨
    ∃ batch, node.writer = .appended batch ∧ crashed = (node.addFrame batch).disk

/-- The record with which the last acknowledged batch that contains the page
leaves it. -/
def lastAcknowledged (node : WalNode) (id : PageId) : Option WalRecord :=
  ((logged node.acknowledged).filter
    (fun record => record.pageId = id ∧ record.op.isTxn = false)).getLast?

/-- No frame behind that of the record, unless it is acknowledged, touches the
page. -/
def LaterUntouched (acknowledged frames : List WalBatch) (record : WalRecord) : Prop :=
  ∀ earlier batch later, frames = earlier ++ batch :: later -> record ∈ batch.records ->
    ∀ frame ∈ later, frame ∉ acknowledged ->
      ∀ other ∈ frame.records, other.op.isTxn = false ->
        other.pageId ≠ record.pageId

/-- The node opens, and the acknowledged images are there: those that recovery
does not skip, and those that the page file has. -/
def RecoversAcknowledged (node : WalNode) (crashed : Disk) : Prop :=
  ∃ reopened, openWithMaintenance crashed = .ok reopened ∧
    ∀ id record, node.lastAcknowledged id = some record -> record.op = .pageImage ->
      LaterUntouched node.acknowledged (survivingFrames crashed) record ->
      (record.lsn ≤ recoveryLsn crashed ->
        (crashed.pages.readPage id).map PageImage.bytes = some record.value) ->
      (reopened.store.get id).map PageImage.bytes = some record.value

structure Fails (start : WalNode) (node : WalNode) : Prop where
  ordered : Ordered start.durableLsn node
  log : FailedLast start start.durableLsn node
  acks : Acks node

section Crash

variable {start node : WalNode} {crashed disk : Disk} {record : WalRecord}

theorem fails_of_reaches (opened : Opened disk start)
    (reached : Reaches step failuresLast start node) : Fails start node := by
  rcases opened.blank with ⟨accepted, failed, _⟩
  refine reached.invariant ⟨opened.ordered, ⟨?_, ?_, ?_⟩, opened.acks⟩ ?_
  · rw [accepted, failed]
    simp
  · intro _ _
    exact failed
  · rw [failed]
    exact trivial
  · intro _ _ _ fails guard taken
    exact ⟨ordered_step fails.ordered taken, failedLast_step fails.ordered fails.log guard taken,
      acks_step fails.acks taken⟩

/-- The frames that a crash leaves are numbered on from the first LSN of this
life. -/
theorem Fails.crashed_frames (fails : Fails start node) (crash : node.CrashDisk crashed) :
    ∃ tail, survivingFrames crashed = start.frames ++ (node.accepted ++ tail) ∧
      Numbered start.durableLsn (logged (node.accepted ++ tail)) := by
  rcases crash with whole | ⟨batch, writer, withFrame⟩
  · refine ⟨node.failed, ?_, ?_⟩
    · rw [whole]
      exact fails.log.frames
    · rw [logged_append, Numbered.append]
      exact ⟨fails.ordered.numbered, fails.log.numbered⟩
  · rcases fails.ordered.appended writer with ⟨durable, valid⟩
    rcases validateIncomingWalBatch_eq_ok.mp valid with ⟨begins, _, numbered⟩
    refine ⟨[batch], ?_, ?_⟩
    · rw [withFrame]
      change (node.addFrame batch).frames = _
      rw [frames_addFrame, fails.log.frames, fails.log.writer batch writer]
      simp
    · rw [logged_append, Numbered.append, logged_singleton, ← durable, ← begins]
      exact ⟨fails.ordered.numbered, numbered⟩

theorem Fails.newest (fails : Fails start node) {id : PageId}
    (last : node.lastAcknowledged id = some record) :
    record ∈ logged node.acknowledged ∧ record.pageId = id ∧ record.op.isTxn = false ∧
      ∀ other ∈ logged node.acknowledged, other.pageId = id ->
        other.op.isTxn = false -> other.lsn ≤ record.lsn := by
  have sublist : (logged node.acknowledged).Sublist (logged node.accepted) :=
    fails.acks.sublist.flatMap _
  have ascending := (fails.ordered.numbered.ascending.sublist sublist).filter
    (fun record => decide (record.pageId = id ∧ record.op.isTxn = false))
  rcases mem_filter.mp (mem_of_getLast? last) with ⟨member, fits⟩
  rcases of_decide_eq_true fits with ⟨own, page⟩
  refine ⟨member, own, page, ?_⟩
  intro other listed same isPage
  rcases Ascending.eq_or_lt_getLast? ascending last
    (mem_filter.mpr ⟨listed, decide_eq_true ⟨same, isPage⟩⟩) with equal | lower
  · rw [equal]
  · exact lower.le

/-- The log around the last acknowledged record of a page: page records before
it are older, and none behind it touches the page. -/
theorem Fails.around (opened : Opened disk start) (fails : Fails start node)
    (crash : node.CrashDisk crashed) {id : PageId} (last : node.lastAcknowledged id = some record)
    (untouched : LaterUntouched node.acknowledged (survivingFrames crashed) record) :
    ∃ before behind, logged (survivingFrames crashed) = before ++ record :: behind ∧
      (∀ other ∈ before, other.op.isTxn = false -> other.lsn < record.lsn) ∧
      (∀ other ∈ behind, other.op.isTxn = false -> other.pageId ≠ record.pageId) := by
  rcases fails.crashed_frames crash with ⟨tail, shape, numbered⟩
  rcases fails.newest last with ⟨member, own, _, newest⟩
  rcases mem_flatMap.mp member with ⟨batch, acknowledged, inBatch⟩
  rcases append_of_mem (fails.acks.sublist.subset acknowledged) with ⟨earlier, later, split⟩
  rcases append_of_mem inBatch with ⟨front, rest, records⟩
  have frames : survivingFrames crashed =
      (start.frames ++ earlier) ++ batch :: (later ++ tail) := by
    rw [shape, split]
    simp
  have log : logged (node.accepted ++ tail) =
      (logged earlier ++ front) ++ record :: (rest ++ logged (later ++ tail)) := by
    rw [split, logged_append, logged_append]
    change (logged earlier ++ (batch.records ++ logged later)) ++ logged tail = _
    rw [records, logged_append]
    simp
  have ascending := numbered.ascending
  have inLog : record ∈ logged (node.accepted ++ tail) := by
    rw [log]
    simp
  have above := (numbered.bounds inLog).1
  rw [log] at ascending
  rcases pairwise_append.mp ascending with ⟨_, behindAscending, ordered⟩
  have newer := (pairwise_cons.mp behindAscending).1
  refine ⟨logged start.frames ++ (logged earlier ++ front), rest ++ logged (later ++ tail),
    ?_, ?_, ?_⟩
  · rw [shape, logged_append, log]
    simp
  · intro other isBefore isPage
    rcases mem_append.mp isBefore with old | current
    · have covered := opened.covered other old isPage
      have durable := opened.durable
      omega
    · exact ordered other current record mem_cons_self
  · intro other isBehind isPage same
    have higher := newer other isBehind
    -- An acknowledged record of the page would be the newer one.
    have unacknowledged : other ∉ logged node.acknowledged := by
      intro listed
      have := newest other listed (same.trans own) isPage
      omega
    rcases mem_append.mp isBehind with inRest | inLater
    · refine unacknowledged (mem_flatMap.mpr ⟨batch, acknowledged, ?_⟩)
      rw [records]
      exact mem_append_right _ (mem_cons_of_mem _ inRest)
    · rcases mem_flatMap.mp inLater with ⟨frame, isLater, inFrame⟩
      refine untouched _ batch _ frames inBatch frame isLater ?_ other inFrame isPage same
      exact fun acknowledgedFrame =>
        unacknowledged (mem_flatMap.mpr ⟨frame, acknowledgedFrame, inFrame⟩)

end Crash

/-- A crash loses no acknowledged image that recovery does not skip, if nothing
was appended behind a failed frame and the log can be read and redone. -/
theorem acknowledged_recovered (disk crashed : Disk) (start node : WalNode) (result : Replay)
    (opened : openWithMaintenance disk = .ok start)
    (reached : Reaches step failuresLast start node) (crash : node.CrashDisk crashed)
    (readable : ∀ frame ∈ survivingFrames crashed, frame.frameLen ≤ maxWalFrameLen)
    (redone : crashed.redo = .ok result) : node.RecoversAcknowledged crashed := by
  have facts := opened_of_open opened
  have fails := fails_of_reaches facts reached
  rcases exists_replay readable redone with ⟨_, replayed⟩
  rcases exists_open_of_replay replayed with ⟨reopened, reopens, store, _⟩
  rcases PageStoreReplay.exists_records_of_frames readable replayed with ⟨same, recovered, sameStore⟩
  refine ⟨reopened, reopens, ?_⟩
  intro _ record last image untouched paged
  rw [store, ← sameStore, ← (fails.newest last).2.1]
  rcases fails.around facts crash last untouched with ⟨_, _, log, older, newest⟩
  rw [log] at recovered
  by_cases new : recoveryLsn crashed < record.lsn
  · exact PageStoreReplay.get_of_image recovered image new older newest
  · have old : record.lsn ≤ recoveryLsn crashed := not_lt.mp new
    have kept : same.store.get record.pageId = (recovering crashed).store.get record.pageId := by
      refine PageStoreReplay.get_of_untouched recovered ?_
      intro other member isPage ofPage
      change other.lsn ≤ recoveryLsn crashed
      rcases mem_append.mp member with isBefore | isBehind
      · have := older other isBefore isPage
        omega
      · rcases mem_cons.mp isBehind with own | later
        · rw [own]
          exact old
        · exact absurd ofPage (newest other later isPage)
    rw [kept, PageStore.get_eq, ← paged old, (fails.newest last).2.1]
    simp [recovering, PageStore.opened]

/-- A failed frame behind an acknowledged image. -/
theorem acknowledged_recovered_before_failure : ∃ node,
    Reaches step failuresLast created node ∧ node.failed.length = 1 ∧
      node.RecoversAcknowledged node.disk := by
  have passed : (runGuarded step failuresLast created
      [.appendWalBatch true (.starting 1 [.ofImage 1 1 (.filled 7)]), .flush, .storeDurableLsn,
        .handOver, .receiveBatch, .replayRecord, .replayPage, .updateLastApplied, .acknowledge,
        .appendWalBatch true (.starting 2 [.ofImage 2 2 (.filled 8)]), .flushFails true]).any
        (fun node => node.failed.length = 1 ∧
          (survivingFrames node.disk).all (fun frame => frame.frameLen ≤ maxWalFrameLen) = true ∧
          node.disk.redo.toOption.isSome = true) = true := by
    decide +kernel
  rcases exists_reaches_of_decide passed with ⟨node, reached, failed, readable, redone⟩
  rcases Option.isSome_iff_exists.mp redone with ⟨result, returned⟩
  have redo : node.disk.redo = .ok result := ok_of_toOption returned
  exact ⟨node, reached, failed, acknowledged_recovered _ node.disk created node result
    openWithMaintenance_empty reached (.inl rfl)
    (fun frame member => of_decide_eq_true (all_eq_true.mp readable frame member)) redo⟩

/-- Without segments being removed. -/
def keepsSegments (_node : WalNode) : WalNodeAction -> Prop
  | .truncateWal _ => False
  | _ => True

instance keepsSegmentsDecidable (node : WalNode) (action : WalNodeAction) :
    Decidable (node.keepsSegments action) := by
  unfold keepsSegments
  induction action using WalNodeAction.casesOn <;> infer_instance

/-- Recovery prefers the image of a failed call to that of the acknowledged call
after it. -/
theorem failed_append_shadows :
    ¬ (∀ (disk crashed : Disk) (start node : WalNode) (result : Replay),
      openWithMaintenance disk = .ok start -> Reaches step keepsSegments start node ->
      node.CrashDisk crashed ->
      (∀ frame ∈ survivingFrames crashed, frame.frameLen ≤ maxWalFrameLen) ->
      crashed.redo = .ok result -> node.RecoversAcknowledged crashed) := by
  intro recovers
  have passed : (runGuarded step keepsSegments created
      [.appendWalBatch true (.starting 1 [.ofImage 1 1 (.filled 7)]), .flushFails true,
        .appendWalBatch true (.starting 1 [.ofImage 1 1 (.filled 8)]), .flush, .storeDurableLsn,
        .handOver, .receiveBatch, .replayRecord, .replayPage, .updateLastApplied,
        .acknowledge]).any
        (fun node =>
          (survivingFrames node.disk).all (fun frame => frame.frameLen ≤ maxWalFrameLen) = true ∧
          node.disk.redo.toOption.isSome = true ∧ recoveryLsn node.disk = 0 ∧
          (node.lastAcknowledged 1).any (fun record => record.lsn = 1 ∧ record.op = .pageImage ∧
            record.value.head? = some 8) = true ∧
          (survivingFrames node.disk).map (fun frame => frame.records.map (fun record =>
            record.value.head?)) = [[some 7], [some 8]] ∧
          (openWithMaintenance node.disk).toOption.any (fun reopened =>
            (reopened.store.get 1).any (fun page => page.bytes.head? = some 7)) = true) = true := by
    decide +kernel
  rcases exists_reaches_of_decide passed with
    ⟨node, reached, readable, redone, _, acknowledged, frames, stale⟩
  rcases (any_eq_true _ _).mp acknowledged with ⟨record, last, isSecond⟩
  rcases of_decide_eq_true isSecond with ⟨_, image, value⟩
  rcases Option.isSome_iff_exists.mp redone with ⟨result, returned⟩
  have redo : node.disk.redo = .ok result := ok_of_toOption returned
  rcases recovers _ node.disk created node result openWithMaintenance_empty reached (.inl rfl)
    (fun frame member => of_decide_eq_true (all_eq_true.mp readable frame member)) redo
    with ⟨reopened, reopens, pages⟩
  have shown := pages 1 record last image ?_ (by omega)
  · rw [reopens] at stale
    change (reopened.store.get 1).any (fun page => decide (page.bytes.head? = some 7)) = true at stale
    rcases (any_eq_true _ _).mp stale with ⟨page, stored, firstByte⟩
    rw [stored] at shown
    have same : page.bytes = record.value := some.inj shown
    rw [← same, of_decide_eq_true firstByte] at value
    cases value
  · intro earlier batch _ split member frame isLater
    have heads := frames
    rw [split, map_append, map_cons] at heads
    have inBatch : some 8 ∈ batch.records.map (fun record => record.value.head?) :=
      mem_map.mpr ⟨record, member, value⟩
    cases earlier with
    | nil =>
      rw [map_nil, nil_append] at heads
      rw [(List.cons.inj heads).1] at inBatch
      cases mem_singleton.mp inBatch
    | cons =>
      have short := congrArg List.length heads
      have some := length_pos_of_mem isLater
      simp at short
      omega

end WalNode

end Storage
end ScaleKv
