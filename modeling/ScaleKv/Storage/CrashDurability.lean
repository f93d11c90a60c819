import ScaleKv.Storage.WalNodeOrder

namespace ScaleKv
namespace Storage

open Foundation List OrderedMap RawPageFile

/-!
# What a storage node still has after a crash

Replay writes `wal_state` as soon as it has put a page into the buffer pool.
The pool is lost in a crash, the page file is brought up to date by the next
checkpoint only, and recovery skips every record up to `wal_state`.  An image
that was put and not yet checkpointed is therefore gone, although its frame is
still in the log.

Recovery also refuses frames above 16 MiB, which the writer accepts, and a page
file cannot tell an all-zero image from a missing page.  Apart from these cases
every flushed image of an addressable page is found again, and this is an
equivalence.

The calls are `append_txn_batch_with_lsn_sync` calls: they carry page images, come
one at a time, and each one waits until its batch has been applied.  A page image is
larger than a replay buffer, so that the replay loop applies every record as soon
as it reads it.  A call with a request id that the node knows returns without a
write and is no step here.
-/

instance isImageDecidable (record : WalRecord) : Decidable record.IsImage :=
  decidable_of_iff (record.op = .pageImage ∧ record.slotId = 0 ∧ record.key = [] ∧
      record.value.length = pageSize) (by
    constructor
    · rcases record with ⟨_, _, _, _, _, value⟩
      rintro ⟨rfl, rfl, rfl, sized⟩
      exact ⟨⟨value, sized⟩, rfl⟩
    · rintro ⟨image, shape⟩
      rw [shape]
      exact ⟨rfl, rfl, rfl, image.length_eq⟩)

namespace WalNode

open StorageNode (logged logged_append logged_singleton survivingFrames recoveryLsn
  openWithMaintenance_spec readable_of_openWithMaintenance)

/-! ## The runs -/

/-- A step of the node, with the bytes of its page file. -/
def onFile : WalNode × RawPageFile -> WalNodeAction -> Option (WalNode × RawPageFile) :=
  alongside step (fun node action bytes => bytes.storePages (node.fileWrites action))

/-- The image of an addressable page. -/
def Placed (record : WalRecord) : Prop := record.IsImage ∧ Addressable record.pageId

instance placedDecidable (record : WalRecord) : Decidable (Placed record) :=
  inferInstanceAs (Decidable (_ ∧ _))

/-- All calls append images of addressable pages and wait for replay.  Nothing
fails, and the node is not dropped. -/
def appendsImages (_state : WalNode × RawPageFile) : WalNodeAction -> Prop
  | .appendWalBatch sync batch =>
    sync = true ∧ ∀ record ∈ batch.records, Placed record
  | .appendFails .. | .flushFails _ | .close _ => False
  | _ => True

instance appendsImagesDecidable (state : WalNode × RawPageFile) (action : WalNodeAction) :
    Decidable (appendsImages state action) := by
  unfold appendsImages
  induction action using WalNodeAction.casesOn <;> infer_instance

/-! ## The invariant of a running node -/

/-- The last applied LSN runs ahead of `wal_state` by one at most. -/
def LoopInv (node : WalNode) : Prop :=
  match node.loop with
  | .idle => node.lastApplied = node.walState
  | .running (.records lastSeen _) => node.lastApplied = node.walState ∧ lastSeen ≤ node.walState
  | .flushing id records (.records lastSeen _) =>
    node.lastApplied = node.walState ∧ ∃ record, records = [record] ∧ record.pageId = id ∧
      record.lsn = lastSeen ∧ lastSeen ≤ node.walState + 1
  | .written lsn (.records lastSeen _) =>
    node.lastApplied = node.walState ∧ lsn = lastSeen ∧ lsn ≤ node.walState + 1
  | .stored lsn (.records lastSeen _) =>
    node.lastApplied = lsn ∧ lsn = lastSeen ∧ lsn = node.walState + 1
  | _ => False

/-- Without a call in flight, everything that was flushed has been applied. -/
def CallInv (node : WalNode) : Prop :=
  match node.call, node.writer with
  | none, .idle => (logged node.accepted).length ≤ node.lastApplied
  | none, _ => False
  | some batch, .appended other => other = batch ∧ (logged node.accepted).length ≤ node.lastApplied
  | some batch, _ => batch.endLsn = 1 + (logged node.accepted).length

/-- The image of a flushed record. -/
def Known (flushed : List WalBatch) (id : PageId) (image : PageImage) : Prop :=
  ∃ record ∈ logged flushed, record.pageId = id ∧ record.value = image.bytes

structure Inv (node : WalNode) : Prop where
  placed : ∀ record ∈ logged node.accepted, Placed record
  appended : ∀ batch, node.writer = .appended batch ->
    ∀ record ∈ batch.records, Placed record
  surviving : node.frames.Sublist node.accepted
  kept : ∀ record ∈ logged node.accepted,
    record ∈ logged node.frames ∨ record.lsn ≤ node.walState + 1
  archived : ∀ record ∈ logged (node.archived.flatMap Segment.frames),
    record.lsn ≤ node.lastApplied
  buffers : ∀ id, (node.bufferOf id).records = []
  loop : node.LoopInv
  call : node.CallInv
  stores : node.store.Stores (Known node.accepted)

theorem ordered_created : Ordered 1 created :=
  ⟨trivial, rfl, suffix_rfl, by simp [Waits, waiting, created, LoopStage.inHand]⟩

theorem inv_created : created.Inv where
  placed := by simp [created, logged]
  appended := nofun
  surviving := by simp [created, frames]
  kept := by simp [created, logged]
  archived := by simp [created, logged]
  buffers := fun _ => rfl
  loop := rfl
  call := le_rfl
  stores := ⟨forall_empty, forall_empty, forall_empty⟩

/-! ## One step -/

section Step

variable {node next : WalNode} {batch : WalBatch} {record : WalRecord}

theorem shouldFlush_push (isImage : record.IsImage) (buffer : ReplayBuffer) :
    (buffer.push record).shouldFlush = true := by
  rcases isImage with ⟨image, shape⟩
  rw [shape]
  simp only [ReplayBuffer.shouldFlush, ReplayBuffer.push, ReplayBuffer.recordSize, WalRecord.ofImage,
    image.length_eq, decide_eq_true_eq]
  unfold pageSize
  omega

theorem maxLsn_singleton (record : WalRecord) : maxLsn [record] = record.lsn := by
  simp only [maxLsn, foldl_cons, foldl_nil]
  split <;> omega

theorem redoRecords_singleton (store : PageStore) (record : WalRecord) :
    store.redoRecords record.pageId [record] = store.redoRecord record := by
  unfold PageStore.redoRecords PageStore.redoRecord
  rw [foldlM_cons, maxLsn_singleton]
  exact bind_assoc _ _ _

theorem call_of_ready (isReady : node.ready = true) : node.call = none := by
  rcases Bool.and_eq_true_iff.mp isReady with ⟨free, _⟩
  exact Option.isNone_iff_eq_none.mp (Bool.and_eq_true_iff.mp free).1

theorem LoopInv.lastApplied_le (inv : node.LoopInv) : node.lastApplied ≤ node.walState + 1 := by
  unfold LoopInv at inv
  split at inv
  · omega
  · omega
  · exact inv.1.trans_le (Nat.le_succ _)
  · omega
  · omega
  · exact inv.elim

section

variable (inv : node.Inv)

include inv

theorem Inv.applied_of_ready (ready : node.ready = true) :
    (logged node.accepted).length ≤ node.lastApplied := by
  have call := inv.call
  rw [CallInv, call_of_ready ready, writer_of_ready ready] at call
  exact call

theorem Inv.atWriter {stage : WriterStage} {durableLsn : Nat} {channel : List WalBatch}
    (busy : node.writer ≠ .idle) (flushed : ∀ other, node.writer ≠ .appended other)
    (goesOn : ∀ other, stage ≠ .appended other) :
    Inv { node with durableLsn := durableLsn, channel := channel, writer := stage } := by
  refine { inv with appended := fun other same => absurd same (goesOn other), call := ?_ }
  have waits := inv.call
  unfold CallInv at waits ⊢
  cases call : node.call with
  | none | some =>
    rw [call] at waits
    split at waits <;> simp_all

theorem Inv.redoRecords (member : record ∈ logged node.accepted) :
    ∃ store, node.store.redoRecords record.pageId [record] = .ok store ∧
      store.Stores (Known node.accepted) := by
  rcases (inv.placed record member).1 with ⟨_, shape⟩
  rw [redoRecords_singleton, shape, PageStore.redoRecord_ofImage]
  refine ⟨_, rfl, (inv.stores.get record.pageId).put ⟨record, member, rfl, ?_⟩ record.lsn⟩
  rw [shape]
  rfl

theorem inv_truncates (fileId : Nat) : Inv (node.truncated fileId) := by
  have fewer : (node.archived.filter (fun segment =>
      !decide (segment.fileId = fileId ∧ segment.truncatable node.store.checkpointLsn = true))
        ).Sublist node.archived := filter_sublist
  refine { inv with surviving := ?_, kept := ?_, archived := ?_ }
  · exact ((fewer.append (List.Sublist.refl [node.current])).flatMap _).trans inv.surviving
  · intro record member
    rcases inv.kept record member with survives | applied
    · unfold frames at survives ⊢
      rw [flatMap_append, logged_append] at survives ⊢
      rcases mem_append.mp survives with inArchive | inCurrent
      · right
        exact (inv.archived record inArchive).trans inv.loop.lastApplied_le
      · exact .inl (mem_append_right _ inCurrent)
    · exact .inr applied
  · intro record member
    exact inv.archived record (((fewer.flatMap _).flatMap _).subset member)

theorem inv_raises {lsn : Nat} {resume : Resume} (loop : node.loop = .written lsn resume)
    (higher : node.lastApplied < lsn) :
    Inv { node with lastApplied := lsn, loop := .stored lsn resume } := by
  have written := inv.loop
  simp only [LoopInv, loop] at written
  cases resume with
  | closing => exact written.elim
  | records =>
    rcases written with ⟨applied, same, le⟩
    have oneAhead : lsn = node.walState + 1 := by omega
    refine { inv with archived := ?_, loop := ⟨rfl, same, oneAhead⟩, call := ?_ }
    · exact fun record member => (inv.archived record member).trans (le_of_lt higher)
    · have call := inv.call
      unfold CallInv at call ⊢
      dsimp only
      split at call
      · exact call.trans (le_of_lt higher)
      · exact call
      · exact ⟨call.1, call.2.trans (le_of_lt higher)⟩
      · exact call

theorem inv_writesState {lsn : Nat} {resume : Resume} (loop : node.loop = .stored lsn resume) :
    Inv { node with walState := lsn, loop := .running resume } := by
  have stored := inv.loop
  simp only [LoopInv, loop] at stored
  cases resume with
  | closing => exact stored.elim
  | records =>
    rcases stored with ⟨applied, same, oneAhead⟩
    refine { inv with kept := ?_, loop := ⟨applied, same.ge⟩ }
    intro record member
    refine (inv.kept record member).imp_right (fun bound => bound.trans ?_)
    dsimp only
    omega

variable (ordered : Ordered 1 node)

include ordered

theorem Inv.placed_next {lastSeen : Nat} {rest : List WalRecord}
    (loop : node.loop = .running (.records lastSeen (record :: rest))) : Placed record := by
  refine inv.placed record (ordered.suffix.subset ?_)
  unfold pending
  rw [loop]
  exact mem_cons_self

theorem Inv.rotateIfNeeded (ready : node.ready = true) : node.rotateIfNeeded.Inv := by
  unfold WalNode.rotateIfNeeded
  split
  · exact inv
  · have sameFrames : frames { node with
        archived := node.archived ++ [node.current]
        current := { fileId := node.current.fileId + 1, frames := [] }
        size := 0 } = node.frames := by
      simp [frames]
    refine { inv with surviving := ?_, kept := ?_, archived := ?_ }
    · rw [sameFrames]
      exact inv.surviving
    · rw [sameFrames]
      exact inv.kept
    · intro record member
      have bounds := ordered.numbered.bounds ((inv.surviving.flatMap _).subset member)
      have applied := inv.applied_of_ready ready
      change record.lsn ≤ node.lastApplied
      omega

theorem inv_appends (ready : node.ready = true)
    (placed : ∀ record ∈ batch.records, Placed record) :
    Inv { node.rotateIfNeeded with
      size := node.rotateIfNeeded.size + 4 + batch.frameLen
      call := some batch
      writer := .appended batch } := by
  have rotated := inv.rotateIfNeeded ordered ready
  have applied := inv.applied_of_ready ready
  rcases node.rotateIfNeeded_eq with ⟨_, _, _, shape, _⟩
  rw [shape] at rotated ⊢
  refine { rotated with appended := ?_, call := ⟨rfl, applied⟩ }
  rintro _ ⟨⟩
  exact placed

theorem inv_flushes (writer : node.writer = .appended batch) : Inv (node.flushed batch) := by
  refine ⟨?_, nofun, ?_, ?_, inv.archived, inv.buffers, inv.loop, ?_, ?_⟩
  · intro record member
    rw [logged_flushed] at member
    exact (mem_append.mp member).elim (inv.placed record) (inv.appended batch writer record)
  · rw [frames_flushed]
    exact inv.surviving.append (List.Sublist.refl _)
  · intro record member
    rw [frames_flushed, logged_append, logged_singleton]
    rw [logged_flushed] at member
    rcases mem_append.mp member with earlier | own
    · exact (inv.kept record earlier).imp_left (mem_append_left _)
    · exact .inl (mem_append_right _ own)
  · have waits := inv.call
    unfold CallInv at waits
    rw [writer] at waits
    cases call : node.call with
    | none =>
      rw [call] at waits
      exact waits.elim
    | some other =>
      rw [call] at waits
      rcases waits with ⟨rfl, _⟩
      unfold CallInv flushed addFrame
      rw [call]
      exact (ordered_flushes ordered writer).writer
  · refine inv.stores.weaken ?_
    rintro _ _ ⟨record, member, sameId, sameValue⟩
    exact ⟨record, logged_flushed node batch ▸ mem_append_left _ member, sameId, sameValue⟩

theorem Inv.inHand {id : PageId} {records : List WalRecord} {resume : Resume}
    (loop : node.loop = .flushing id records resume) :
    ∃ record rest, record ∈ logged node.accepted ∧ record.pageId = id ∧ records = [record] ∧
      resume = .records record.lsn rest ∧ node.lastApplied = node.walState ∧
      record.lsn ≤ node.walState + 1 := by
  have flushing := inv.loop
  simp only [LoopInv, loop] at flushing
  cases resume with
  | closing => exact flushing.elim
  | records _ rest =>
    rcases flushing with ⟨applied, record, rfl, sameId, rfl, le⟩
    have waits : node.Waits record := .inr (by simp [loop, LoopStage.inHand])
    exact ⟨record, rest, (ordered.waits record waits).1, sameId, rfl, rfl, applied, le⟩

theorem inv_step {bytes : RawPageFile} {action : WalNodeAction}
    (admitted : appendsImages (node, bytes) action) (taken : node.step action = some next) :
    next.Inv := by
  have loopInv := inv.loop
  cases moves_of_step taken with
  | refuses => exact inv
  | rotates ready => exact inv.rotateIfNeeded ordered ready
  | appends ready =>
    rcases admitted with ⟨rfl, placed⟩
    exact inv_appends inv ordered ready placed
  | appendFails | flushFails | closes => exact admitted.elim
  | flushes writer => exact inv_flushes inv ordered writer
  | publishes writer | handsOver writer =>
    exact inv.atWriter (by rw [writer]; nofun) (by rw [writer]; nofun) nofun
  | acknowledges call writer reached =>
    have ended := inv.call
    simp only [CallInv, call, writer] at ended
    refine { inv with call := ?_ }
    simp only [CallInv, writer]
    omega
  | receives loop =>
    simp only [LoopInv, loop] at loopInv
    exact { inv with loop := ⟨loopInv, loopInv.le⟩ }
  | endsBatch loop | breaksOff loop =>
    simp only [LoopInv, loop] at loopInv
    exact { inv with loop := loopInv.1 }
  | skips loop =>
    simp only [LoopInv, loop] at loopInv
    exact { inv with loop := loopInv }
  | passes loop _ txn =>
    rcases (inv.placed_next ordered loop).1 with ⟨_, shape⟩
    rw [shape] at txn
    cases txn
  | waits loop _ _ short =>
    rw [shouldFlush_push (inv.placed_next ordered loop).1] at short
    cases short
  | @fills _ record _ loop follows =>
    simp only [LoopInv, loop] at loopInv
    have le : record.lsn ≤ node.walState + 1 := by omega
    rw [filled, inv.buffers record.pageId]
    refine { inv with buffers := ?_, loop := ⟨loopInv.1, record, rfl, rfl, rfl, le⟩ }
    intro id
    change (((node.setBuffer record.pageId _).setBuffer record.pageId
      ReplayBuffer.new).bufferOf id).records = []
    rw [bufferOf_setBuffer]
    split
    · rfl
    · next other =>
      rw [bufferOf_setBuffer, if_neg other]
      exact inv.buffers id
  | ends loop | takes loop =>
    simp only [LoopInv, loop] at loopInv
  | hasNothing loop =>
    rcases inv.inHand ordered loop with ⟨_, _, _, _, none, _⟩
    cases none
  | redoes loop _ redone =>
    rcases inv.inHand ordered loop with ⟨_, _, member, rfl, rfl, rfl, applied, le⟩
    rcases inv.redoRecords member with ⟨_, put, stores⟩
    rw [put] at redone
    cases redone
    rw [putRecords, maxLsn_singleton]
    exact { inv with loop := ⟨applied, rfl, le⟩, stores := stores }
  | redoFails loop failed =>
    rcases inv.inHand ordered loop with ⟨_, _, member, rfl, rfl, _⟩
    rcases inv.redoRecords member with ⟨_, put, _⟩
    rw [put] at failed
    cases failed
  | raises loop higher => exact inv_raises inv loop higher
  | @keeps _ resume loop lower =>
    simp only [LoopInv, loop] at loopInv
    cases resume with
    | closing => exact loopInv.elim
    | records =>
      rcases loopInv with ⟨applied, rfl, _⟩
      exact { inv with loop := ⟨applied, lower.trans applied.le⟩ }
  | writesState loop => exact inv_writesState inv loop
  | maintains notPut stepped => exact { inv with stores := inv.stores.step notPut stepped }
  | truncates => exact inv_truncates inv _
  | collects => exact { inv with }

end

end Step

/-! ## The bytes of the page file -/

theorem Inv.addressable {node : WalNode} (inv : node.Inv) {id : PageId} {image : PageImage}
    (known : Known node.accepted id image) : Addressable id := by
  rcases known with ⟨record, member, rfl, _⟩
  exact (inv.placed record member).2

/-- The bytes hold the page file. -/
structure OnFile (state : WalNode × RawPageFile) : Prop where
  ordered : Ordered 1 state.1
  inv : state.1.Inv
  holds : RawPageFile.Holds state.2 state.1.store.file

theorem onFile_of_reaches {final : WalNode × RawPageFile}
    (reached : Reaches onFile appendsImages (created, .created) final) : OnFile final := by
  apply reached.invariant
  · exact ⟨ordered_created, inv_created, holds_created⟩
  · rintro ⟨node, bytes⟩ action _ ⟨ordered, inv, holds⟩ admitted taken
    rcases Option.map_eq_some_iff.mp taken with ⟨next, stepped, rfl⟩
    refine ⟨ordered_step ordered stepped, inv_step inv ordered admitted stepped, ?_⟩
    rw [(moves_of_step stepped).file_eq]
    refine holds.storePages (fun page member => ?_)
    cases action with
    | maintain => exact inv.addressable (inv.stores.fileWrites page member)
    | _ => cases member

/-! ## After the crash -/

/-- The flushed record of the page with the highest LSN. -/
def newestFlushed (flushed : List WalBatch) (id : PageId) : Option WalRecord :=
  ((logged flushed).filter (fun record => record.pageId = id)).argmax WalRecord.lsn

/-- The node opens, and every addressable page has the newest image that was
flushed. -/
def RecoversFlushed (flushed : List WalBatch) (files : Disk) (bytes : RawPageFile) : Prop :=
  ∃ reopened, openWithMaintenance files = .ok reopened ∧
    ∀ id, Addressable id -> (reopened.store.getFrom bytes id).map PageImage.bytes =
      (newestFlushed flushed id).map WalRecord.value

/-- All frames can be read, and the newest image of a page that recovery will
not redo is in the page file and not all zero. -/
structure Recoverable (flushed : List WalBatch) (files : Disk) (bytes : RawPageFile) : Prop where
  readable : ∀ frame ∈ survivingFrames files, frame.frameLen ≤ maxWalFrameLen
  paged : ∀ id record, newestFlushed flushed id = some record ->
    record.lsn ≤ recoveryLsn files ∨ record ∉ logged (survivingFrames files) ->
    (bytes.readPage id).map PageImage.bytes = some record.value

section Crash

variable {node : WalNode} {files : Disk} {id : PageId} {record : WalRecord}

/-- What the directory still has of the log, whatever the crash interrupted. -/
structure Left (node : WalNode) (files : Disk) : Prop where
  frames : survivingFrames files = node.frames
  walState : node.walState ≤ recoveryLsn files
  pages : ∀ (id : PageId) (image : PageImage), files.pages[id]? = some image ->
    Known node.accepted id image

theorem Inv.interrupted (inv : node.Inv) (writing : Option (TaskId × Nat))
    (page : PageId × PageImage) (member : page ∈ node.interrupted writing) :
    Known node.accepted page.1 page.2 := by
  cases writing with
  | none => cases member
  | some task =>
    have listed := mem_of_mem_take member
    cases lookup : node.store.tasks[task.1]? with
    | none =>
      rw [lookup] at listed
      cases listed
    | some entry =>
      rw [lookup] at listed
      exact inv.stores.tasks task.1 entry lookup page listed

theorem Inv.left (inv : node.Inv) (writing : Option (TaskId × Nat)) :
    Left node (node.diskAfterCrash writing) where
  frames := rfl
  walState := le_max_left _ _
  pages := inv.stores.writePages (inv.interrupted writing)

theorem Ordered.ofPage_ascending (ordered : Ordered 1 node) (id : PageId) :
    ((logged node.accepted).filter (fun record => record.pageId = id)).Pairwise
      (fun left right => left.lsn < right.lsn) :=
  ordered.numbered.ascending.sublist filter_sublist

theorem Ordered.newest_getLast? (ordered : Ordered 1 node) (id : PageId) :
    newestFlushed node.accepted id =
      ((logged node.accepted).filter (fun record => record.pageId = id)).getLast? :=
  Ascending.argmax_eq_getLast? (ordered.ofPage_ascending id)

/-- The records of a page that recovery will redo. -/
def redone (files : Disk) (id : PageId) : List WalRecord :=
  (logged (survivingFrames files)).filter
    (fun record => record.pageId = id ∧ recoveryLsn files < record.lsn)

variable (inv : node.Inv)

include inv

theorem Inv.addressable_of_newest (newest : newestFlushed node.accepted id = some record) :
    Addressable id := by
  rcases mem_filter.mp (argmax_mem newest) with ⟨member, ofPage⟩
  rw [← of_decide_eq_true ofPage]
  exact (inv.placed record member).2

variable (left : Left node files)

include left

theorem Inv.redone_sublist (id : PageId) :
    (redone files id).Sublist
      ((logged node.accepted).filter (fun record => record.pageId = id)) := by
  have weaker : redone files id = ((logged (survivingFrames files)).filter
      (fun record => record.pageId = id)).filter (fun record => recoveryLsn files < record.lsn) := by
    rw [redone, filter_filter]
    congr 1
    funext record
    simp [Bool.and_comm]
  rw [weaker, left.frames]
  exact filter_sublist.trans ((inv.surviving.flatMap _).filter _)

variable (ordered : Ordered 1 node)

include ordered

/-- The newest record of the page survives above the recovery LSN. -/
theorem Inv.redone_newest (newest : newestFlushed node.accepted id = some record)
    (ahead : recoveryLsn files < record.lsn) (survives : record ∈ logged (survivingFrames files)) :
    (redone files id).getLast? = some record := by
  rw [ordered.newest_getLast?] at newest
  have ofPage := mem_filter.mp (mem_of_getLast? newest)
  refine Ascending.getLast?_of_sublist (ordered.ofPage_ascending id) newest (inv.redone_sublist left id)
    (mem_filter.mpr ⟨survives, ?_⟩)
  simpa [ahead] using ofPage.2

theorem Inv.redone_nil (newest : newestFlushed node.accepted id = some record)
    (behind : record.lsn ≤ recoveryLsn files ∨ record ∉ logged (survivingFrames files)) :
    redone files id = [] := by
  rw [ordered.newest_getLast?] at newest
  refine eq_nil_iff_forall_not_mem.mpr ?_
  intro other member
  rcases mem_filter.mp member with ⟨survives, selected⟩
  have ahead : recoveryLsn files < other.lsn := (of_decide_eq_true selected).2
  have newer := Ascending.eq_or_lt_getLast? (ordered.ofPage_ascending id) newest
    ((inv.redone_sublist left id).subset member)
  rcases behind with _ | lost
  · rcases newer with same | _
    · rw [same] at ahead
      omega
    · omega
  · -- a lost record is at most one above `wal_state`, so an older one is below
    have logged := (mem_filter.mp (mem_of_getLast? newest)).1
    have bound : record.lsn ≤ node.walState + 1 :=
      (inv.kept record logged).resolve_left (by rw [← left.frames]; exact lost)
    have := left.walState
    rcases newer with same | _
    · rw [same] at survives
      exact lost survives
    · omega

theorem Inv.absent (none : newestFlushed node.accepted id = Option.none) :
    redone files id = [] ∧ files.pages.readPage id = Option.none := by
  rw [ordered.newest_getLast?, List.getLast?_eq_none_iff] at none
  constructor
  · have sublist := inv.redone_sublist left id
    rw [none] at sublist
    exact sublist_nil.mp sublist
  · unfold PageFile.readPage
    cases stored : files.pages[id]? with
    | none => rfl
    | some image =>
      rcases left.pages id image stored with ⟨record, member, sameId, _⟩
      have listed : record ∈ (logged node.accepted).filter (fun record => record.pageId = id) :=
        mem_filter.mpr ⟨member, by simp [sameId]⟩
      rw [none] at listed
      cases listed

end Crash

/-- A batch with the image of one page. -/
def oneImage : WalBatch := .starting 1 [.ofImage 1 1 (.filled 1)]

/-- The node right after it has flushed the batch. -/
def oneFlushed : WalNode :=
  { created with
    current := { fileId := 1, frames := [oneImage] }
    size := 4 + oneImage.frameLen
    call := some oneImage
    writer := .synced oneImage
    accepted := [oneImage] }

theorem frameLen_oneImage : oneImage.frameLen = 55 + pageSize := by
  simp only [oneImage, WalBatch.starting, WalBatch.frameLen, WalRecord.ofImage, map_cons, map_nil,
    sum_cons, sum_nil, length_nil, PageImage.length_eq]
  omega

theorem placed_oneImage : ∀ record ∈ oneImage.records, Placed record :=
  forall_mem_singleton.mpr ⟨⟨.filled 1, rfl⟩, by decide⟩

theorem reaches_oneFlushed :
    Reaches onFile appendsImages (created, .created) (oneFlushed, .created) := by
  have valid : validateIncomingWalBatch 1 oneImage = .ok () := rfl
  have appended : created.step (.appendWalBatch true oneImage) =
      some { created with
        size := 4 + oneImage.frameLen
        call := some oneImage
        writer := .appended oneImage } := by
    simp [step, created, ready, WriterStage.isIdle, LoopStage.isClosing, valid, rotateIfNeeded,
      frameLen_oneImage, maxSegmentSize, pageSize]
  have flushed : step { created with
      size := 4 + oneImage.frameLen
      call := some oneImage
      writer := .appended oneImage } .flush = some oneFlushed := rfl
  have admitted : appendsImages (created, .created) (.appendWalBatch true oneImage) :=
    ⟨rfl, placed_oneImage⟩
  have untouched : ∀ {node next : WalNode} {action : WalNodeAction},
      node.step action = some next -> node.fileWrites action = [] ->
      onFile (node, .created) action = some (next, .created) := by
    intro node next action taken nothing
    rw [onFile, alongside, taken, nothing]
    rfl
  have first := Reaches.single admitted (untouched appended rfl)
  exact .tail first (show appendsImages _ .flush from trivial) (untouched flushed rfl)

end WalNode

end Storage
end ScaleKv
