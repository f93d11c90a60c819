import ScaleKv.Storage.WalNodeOrder
import Mathlib.Data.List.Nodup

namespace ScaleKv
namespace Storage

open Foundation List

/-!
# What the applied watermark says

`applied_lsn`, the LSN in `wal_state` and the checkpoint LSN all come from the
largest LSN of a flushed buffer.  A record that waits in the buffer of another
page may have a smaller one.  The watermark is then above a record that no page
has.

If a buffer is flushed only when all records that wait elsewhere are newer, the
three watermarks never pass a record that was not applied.
-/

def Resume.lastSeen : Resume -> Nat
  | .records lastSeen _ => lastSeen
  | .closing _ => 0

/-- The LSN behind which the loop expects the next record. -/
def LoopStage.lastSeen : LoopStage -> Nat
  | .idle => 0
  | .running resume => resume.lastSeen
  | .flushing _ _ resume => resume.lastSeen
  | .written _ resume => resume.lastSeen
  | .stored _ resume => resume.lastSeen
  | .ended => 0

/-- The LSN of a page that was put and is not the last applied one yet. -/
def LoopStage.putLsn : LoopStage -> Nat
  | .written lsn _ => lsn
  | .stored lsn _ => lsn
  | _ => 0

namespace WalNode

open StorageNode (logged logged_append logged_singleton)

/-- No watermark has passed a page record that is not applied. -/
def WatermarkSound (node : WalNode) : Prop :=
  ∀ record ∈ logged node.accepted, record.op.isTxn = false ->
    record.lsn ≤ node.lastApplied ∨ record.lsn ≤ node.walState ∨
      record.lsn ≤ node.store.checkpointLsn ->
    record ∈ node.applied

/-- When the records of a page are applied, this succeeds, and all records that
wait for other pages have larger LSNs. -/
def flushesInOrder (node : WalNode) : WalNodeAction -> Prop
  | .replayPage =>
    match node.loop with
    | .flushing id records _ =>
      (node.store.redoRecords id records).toOption.isSome = true ∧
        ∀ record ∈ node.waiting, maxLsn records < record.lsn
    | _ => True
  | _ => True

instance flushesInOrderDecidable (node : WalNode) (action : WalNodeAction) :
    Decidable (node.flushesInOrder action) := by
  unfold flushesInOrder
  induction action using WalNodeAction.casesOn <;> first | exact instDecidableTrue | skip
  induction node.loop using LoopStage.casesOn <;> infer_instance

/-! ## How far replay has come -/

/-- The loop has looked at the records up to `seen`: those of pages are applied
or wait.  All watermarks are within `mark`, and all that waits is behind it. -/
structure Tracks (first seen mark : Nat) (node : WalNode) : Prop where
  within : seen < first + (logged node.accepted).length
  ahead : ∀ record ∈ node.pending, seen < record.lsn
  lastSeen : node.loop.lastSeen ≤ seen
  covered : ∀ record ∈ logged node.accepted, record.op.isTxn = false ->
    record.lsn ≤ seen -> record ∈ node.applied ∨ node.Waits record
  waits : ∀ record, node.Waits record -> mark < record.lsn ∧ record.lsn ≤ seen
  markSeen : mark ≤ seen
  lastApplied : node.lastApplied ≤ mark
  walState : node.walState ≤ mark
  putLsn : node.loop.putLsn ≤ mark
  store : node.store.UpTo mark

section Tracks

variable {first seen mark : Nat} {node next : WalNode}

theorem Tracks.watermarkSound (tracks : Tracks first seen mark node) : node.WatermarkSound := by
  intro record member page _
  have small : record.lsn ≤ mark := by
    have := tracks.lastApplied
    have := tracks.walState
    have := tracks.store.checkpointLsn
    omega
  rcases tracks.covered record member page (small.trans tracks.markSeen) with applied | waiting
  · exact applied
  · have := (tracks.waits record waiting).1
    omega

theorem Tracks.transfer (tracks : Tracks first seen mark node)
    (accepted : next.accepted = node.accepted) (applied : next.applied = node.applied)
    (pending : ∀ record ∈ next.pending, record ∈ node.pending)
    (lastSeen : next.loop.lastSeen ≤ seen)
    (waits : ∀ record, next.Waits record <-> node.Waits record)
    (lastApplied : next.lastApplied ≤ mark) (walState : next.walState ≤ mark)
    (putLsn : next.loop.putLsn ≤ mark) (store : next.store.UpTo mark) :
    Tracks first seen mark next where
  within := by
    rw [accepted]
    exact tracks.within
  ahead := fun record member => tracks.ahead record (pending record member)
  lastSeen := lastSeen
  covered := by
    intro record member page old
    rw [accepted] at member
    rw [applied, waits]
    exact tracks.covered record member page old
  waits := fun record waiting => tracks.waits record ((waits record).mp waiting)
  markSeen := tracks.markSeen
  lastApplied := lastApplied
  walState := walState
  putLsn := putLsn
  store := store

theorem Ordered.eq_of_lsn (ordered : Ordered first node) {left right : WalRecord}
    (leftMember : left ∈ logged node.accepted) (rightMember : right ∈ logged node.accepted)
    (same : left.lsn = right.lsn) : left = right := by
  have distinct : ((logged node.accepted).map WalRecord.lsn).Nodup := by
    refine pairwise_map.mpr (ordered.numbered.ascending.imp ?_)
    intro _ _ lower
    exact Nat.ne_of_lt lower
  exact inj_on_of_nodup_map distinct leftMember rightMember same

variable {lastSeen : Nat} {record : WalRecord} {rest : List WalRecord}

theorem Ordered.head (ordered : Ordered first node)
    (loop : node.loop = .running (.records lastSeen (record :: rest))) :
    record ∈ node.pending ∧ record ∈ logged node.accepted ∧
      ∀ other ∈ rest ++ (node.channel.flatMap WalBatch.records ++ node.writer.unsent),
        record.lsn < other.lsn := by
  have shape : node.pending = record :: (rest ++
      (node.channel.flatMap WalBatch.records ++ node.writer.unsent)) := by
    unfold pending
    rw [loop]
    rfl
  have member : record ∈ node.pending := by
    rw [shape]
    exact mem_cons_self
  have ascending := ordered.numbered.ascending.sublist ordered.suffix.sublist
  rw [shape] at ascending
  exact ⟨member, ordered.suffix.subset member, (pairwise_cons.mp ascending).1⟩

theorem Tracks.takeIn (ordered : Ordered first node) (tracks : Tracks first seen mark node)
    (loop : node.loop = .running (.records lastSeen (record :: rest)))
    (follows : record.lsn = lastSeen + 1) (accepted : next.accepted = node.accepted)
    (applied : next.applied = node.applied) (pending : next.pending = rest ++
      (node.channel.flatMap WalBatch.records ++ node.writer.unsent))
    (nextSeen : next.loop.lastSeen = record.lsn)
    (kept : ∀ other, node.Waits other -> next.Waits other)
    (new : record.op.isTxn = false -> next.Waits record)
    (waits : ∀ other, next.Waits other -> node.Waits other ∨ other = record)
    (lastApplied : next.lastApplied = node.lastApplied) (walState : next.walState = node.walState)
    (putLsn : next.loop.putLsn = 0) (store : next.store = node.store) :
    Tracks first record.lsn mark next := by
  rcases ordered.head loop with ⟨isPending, isLogged, behind⟩
  have above := tracks.ahead record isPending
  have expected := tracks.lastSeen
  rw [loop] at expected
  change lastSeen ≤ seen at expected
  have markBelow := tracks.markSeen
  refine ⟨?_, ?_, ?_, ?_, ?_, by omega, ?_, ?_, ?_, ?_⟩
  · rw [accepted]
    exact (ordered.numbered.bounds isLogged).2
  · rw [pending]
    exact behind
  · rw [nextSeen]
  · intro other member page _
    rw [accepted] at member
    rw [applied]
    by_cases before : other.lsn ≤ seen
    · rcases tracks.covered other member page before with done | waiting
      · exact .inl done
      · exact .inr (kept other waiting)
    · have same : other = record := ordered.eq_of_lsn member isLogged (by omega)
      rw [same] at page ⊢
      exact .inr (new page)
  · intro other waiting
    rcases waits other waiting with before | same
    · have := tracks.waits other before
      omega
    · rw [same]
      omega
  · rw [lastApplied]
    exact tracks.lastApplied
  · rw [walState]
    exact tracks.walState
  · rw [putLsn]
    exact Nat.zero_le mark
  · rw [store]
    exact tracks.store

theorem waits_of_push (node : WalNode) (record : WalRecord) (stage : LoopStage)
    (none : node.loop.inHand = []) (other : WalRecord) (waiting : node.Waits other) :
    Waits { node.setBuffer record.pageId ((node.bufferOf record.pageId).push record) with
      loop := stage } other := by
  rcases waiting with buffered | taken
  · left
    rcases mem_setBuffer_waiting buffered with stays | own
    · exact stays
    · refine mem_waiting.mpr ⟨record.pageId, ?_⟩
      change other ∈ ((node.setBuffer record.pageId _).bufferOf record.pageId).records
      rw [bufferOf_setBuffer, if_pos rfl]
      exact mem_append_left _ own
  · rw [none] at taken
    cases taken

theorem waits_of_fill (node : WalNode) (record : WalRecord) (resume : Resume)
    (none : node.loop.inHand = []) (other : WalRecord) (isWaiting : node.Waits other) :
    (node.filled record resume).Waits other := by
  rcases isWaiting with buffered | taken
  · rcases mem_setBuffer_waiting buffered with stays | own
    · rcases mem_setBuffer_waiting stays with staysEmptied | pushed
      · exact .inl staysEmptied
      · rw [bufferOf_setBuffer, if_pos rfl] at pushed
        exact .inr pushed
    · exact .inr (mem_append_left _ own)
  · rw [none] at taken
    cases taken

theorem waits_of_takeBuffer (node : WalNode) (id : PageId) (resume : Resume)
    (none : node.loop.inHand = []) (other : WalRecord) (isWaiting : node.Waits other) :
    (node.takeBuffer id resume).Waits other := by
  rcases isWaiting with buffered | taken
  · rcases mem_setBuffer_waiting buffered with stays | own
    · exact .inl stays
    · exact .inr own
  · rw [none] at taken
    cases taken

section

variable (tracks : Tracks first seen mark node)

include tracks

theorem Tracks.redoes {id : PageId} {records : List WalRecord} {resume : Resume} {store : PageStore}
    (loop : node.loop = .flushing id records resume)
    (redone : node.store.redoRecords id records = .ok store)
    (newer : ∀ record ∈ node.waiting, maxLsn records < record.lsn) :
    Tracks first seen (max mark (maxLsn records)) (node.putRecords store records resume) := by
  have inHand : ∀ record ∈ records, node.Waits record := by
    intro record member
    right
    rw [loop]
    exact member
  have small : maxLsn records ≤ seen :=
    maxLsn_le (fun record member => (tracks.waits record (inHand record member)).2)
  have pending : WalNode.pending (node.putRecords store records resume) = node.pending := by
    unfold WalNode.pending
    rw [loop]
    rfl
  have lastSeen := tracks.lastSeen
  rw [loop] at lastSeen
  refine ⟨tracks.within, ?_, lastSeen, ?_, ?_, max_le tracks.markSeen small,
    tracks.lastApplied.trans (le_max_left _ _), tracks.walState.trans (le_max_left _ _),
    le_max_right _ _, (tracks.store.mono (le_max_left _ _)).redoRecords redone (le_max_right _ _)⟩
  · rw [pending]
    exact tracks.ahead
  · intro record member page old
    rcases tracks.covered record member page old with done | waiting
    · exact .inl (mem_append_left _ done)
    · rcases waiting with buffered | taken
      · exact .inr (.inl buffered)
      · rw [loop] at taken
        exact .inl (mem_append_right _ taken)
  · intro record waiting
    rcases waiting with buffered | taken
    · have := tracks.waits record (.inl buffered)
      have := newer record buffered
      omega
    · cases taken

theorem Tracks.outside (outside : Outside node next) : Tracks first seen mark next := by
  refine tracks.transfer outside.accepted outside.applied ?_ ?_ ?_ ?_ ?_ ?_ ?_
  · rw [outside.pending]
    exact fun _ member => member
  · rw [outside.loop]
    exact tracks.lastSeen
  · intro record
    unfold Waits waiting
    rw [outside.loop, outside.buffers]
  · rw [outside.lastApplied]
    exact tracks.lastApplied
  · rw [outside.walState]
    exact tracks.walState
  · rw [outside.loop]
    exact tracks.putLsn
  · rw [outside.store]
    exact tracks.store

theorem Tracks.moveLoop {loop : LoopStage}
    (rest : loop.rest <:+ node.loop.rest) (lastSeen : loop.lastSeen ≤ seen)
    (inHand : loop.inHand = node.loop.inHand) (putLsn : loop.putLsn ≤ mark) :
    Tracks first seen mark { node with loop := loop } := by
  refine tracks.transfer rfl rfl ?_ lastSeen ?_ tracks.lastApplied tracks.walState putLsn
    tracks.store
  · intro _ member
    rcases mem_append.mp member with inRest | behind
    · exact mem_append_left _ (rest.subset inRest)
    · exact mem_append_right _ behind
  · intro _
    unfold Waits
    rw [← inHand]
    exact Iff.rfl

end

theorem Tracks.flushes {batch : WalBatch} (ordered : Ordered first node)
    (tracks : Tracks first seen mark node) (writer : node.writer = .appended batch) :
    Tracks first seen mark (node.flushed batch) := by
  rcases ordered.appended writer with ⟨_, valid⟩
  rcases validateIncomingWalBatch_eq_ok.mp valid with ⟨_, _, numbered⟩
  have within := tracks.within
  have new : ∀ record ∈ batch.records, seen < record.lsn := by
    intro record member
    have := (numbered.bounds member).1
    omega
  refine { tracks with within := ?_, ahead := ?_, covered := ?_ }
  · rw [logged_flushed, length_append]
    omega
  · intro record member
    rcases mem_append.mp member with inRest | behind
    · exact tracks.ahead record (mem_append_left _ inRest)
    · rcases mem_append.mp behind with inChannel | own
      · exact tracks.ahead record (mem_append_right _ (mem_append_left _ inChannel))
      · exact new record own
  · intro record member page old
    rw [logged_flushed] at member
    rcases mem_append.mp member with before | own
    · exact tracks.covered record before page old
    · have := new record own
      omega

/-- Replay has looked at some part of the log. -/
def Tracked (first : Nat) (node : WalNode) : Prop := ∃ seen mark, Tracks first seen mark node

theorem tracked_step {action : WalNodeAction} (ordered : Ordered first node)
    (tracked : Tracked first node) (inOrder : node.flushesInOrder action)
    (taken : node.step action = some next) : Tracked first next := by
  rcases tracked with ⟨seen, mark, tracks⟩
  cases moves_of_step taken with
  | refuses => exact ⟨seen, mark, tracks⟩
  | flushes writer => exact ⟨seen, mark, tracks.flushes ordered writer⟩
  | @receives _ _ loop channel =>
    refine ⟨seen, mark, tracks.transfer rfl rfl ?_ (tracks.lastApplied.trans tracks.markSeen) ?_
      tracks.lastApplied tracks.walState (Nat.zero_le mark) tracks.store⟩
    · intro record member
      unfold pending
      rw [loop, channel, flatMap_cons]
      rw [append_assoc]
      exact member
    · intro record
      unfold Waits
      rw [loop]
      exact Iff.rfl
  | endsBatch loop | breaksOff loop | ends loop | closes _ _ loop =>
    refine ⟨seen, mark, tracks.moveLoop nil_suffix (Nat.zero_le seen) ?_ (Nat.zero_le mark)⟩
    rw [loop]
    rfl
  | skips loop =>
    have lastSeen := tracks.lastSeen
    rw [loop] at lastSeen
    refine ⟨seen, mark, tracks.moveLoop ?_ lastSeen ?_ (Nat.zero_le mark)⟩
    · rw [loop]
      exact suffix_cons _ _
    · rw [loop]
      rfl
  | @passes _ record rest loop follows txn =>
    have same : ∀ other, Waits { node with loop := .running (.records record.lsn rest) } other
        <-> node.Waits other := by
      intro other
      unfold Waits
      rw [loop]
      exact Iff.rfl
    refine ⟨record.lsn, mark, tracks.takeIn ordered loop follows rfl rfl rfl rfl
      (fun other => (same other).mpr) ?_ (fun other waiting => .inl ((same other).mp waiting))
      rfl rfl rfl rfl⟩
    intro page
    rw [txn] at page
    cases page
  | @waits _ record _ loop follows =>
    have inHand : node.loop.inHand = [] := by
      rw [loop]
      rfl
    refine ⟨record.lsn, mark, tracks.takeIn ordered loop follows rfl rfl rfl rfl
      (waits_of_push node record _ inHand) ?_ (waits_push node record _ rfl) rfl rfl rfl rfl⟩
    intro _
    refine .inl (mem_waiting.mpr ⟨record.pageId, ?_⟩)
    change record ∈ ((node.setBuffer record.pageId _).bufferOf record.pageId).records
    rw [bufferOf_setBuffer, if_pos rfl]
    exact mem_concat_self
  | @fills _ record _ loop follows =>
    have inHand : node.loop.inHand = [] := by
      rw [loop]
      rfl
    exact ⟨record.lsn, mark, tracks.takeIn ordered loop follows rfl rfl rfl rfl
      (waits_of_fill node record _ inHand)
      (fun _ => .inr (mem_concat_self)) (waits_fill node record _)
      rfl rfl rfl rfl⟩
  | @takes id _ loop =>
    have inHand : node.loop.inHand = [] := by
      rw [loop]
      rfl
    refine ⟨seen, mark, tracks.transfer rfl rfl ?_ (Nat.zero_le seen) ?_ tracks.lastApplied
      tracks.walState (Nat.zero_le mark) tracks.store⟩
    · unfold pending
      rw [loop]
      exact fun _ member => member
    · exact fun record => ⟨waits_takeBuffer node id _ record,
        waits_of_takeBuffer node id _ inHand record⟩
  | hasNothing loop | keeps loop =>
    have lastSeen := tracks.lastSeen
    rw [loop] at lastSeen
    refine ⟨seen, mark, tracks.moveLoop ?_ lastSeen ?_ (Nat.zero_le mark)⟩
    · rw [loop]
      exact suffix_refl _
    · rw [loop]
      rfl
  | redoes loop _ redone =>
    unfold flushesInOrder at inOrder
    rw [loop] at inOrder
    exact ⟨seen, _, tracks.redoes loop redone inOrder.2⟩
  | redoFails loop failed =>
    unfold flushesInOrder at inOrder
    rw [loop] at inOrder
    have succeeds := inOrder.1
    rw [failed] at succeeds
    cases succeeds
  | raises loop =>
    have putLsn := tracks.putLsn
    have lastSeen := tracks.lastSeen
    rw [loop] at putLsn lastSeen
    refine ⟨seen, mark, tracks.transfer rfl rfl ?_ lastSeen ?_ putLsn tracks.walState putLsn
      tracks.store⟩
    · unfold pending
      rw [loop]
      exact fun _ member => member
    · intro record
      unfold Waits
      rw [loop]
      exact Iff.rfl
  | writesState loop =>
    have putLsn := tracks.putLsn
    have lastSeen := tracks.lastSeen
    rw [loop] at putLsn lastSeen
    refine ⟨seen, mark, tracks.transfer rfl rfl ?_ lastSeen ?_ tracks.lastApplied putLsn
      (Nat.zero_le mark) tracks.store⟩
    · unfold pending
      rw [loop]
      exact fun _ member => member
    · intro record
      unfold Waits
      rw [loop]
      exact Iff.rfl
  | maintains notPut stepped =>
    exact ⟨seen, mark, tracks.transfer rfl rfl (fun _ member => member) tracks.lastSeen
      (fun _ => Iff.rfl) tracks.lastApplied tracks.walState tracks.putLsn
      (tracks.store.step notPut stepped)⟩
  | _ => exact ⟨seen, mark, tracks.outside (outside_of_step rfl taken)⟩

end Tracks

/-! ## From the opening on -/

structure Follows (first : Nat) (node : WalNode) : Prop where
  ordered : Ordered first node
  tracked : Tracked first node

variable {disk : Disk} {start : WalNode}

theorem Opened.ordered (opened : Opened disk start) : Ordered start.durableLsn start := by
  rcases opened.idle with ⟨_, writer, channel, buffers, loop⟩
  rcases opened.blank with ⟨accepted, _⟩
  refine ⟨?_, ?_, ?_, ?_⟩
  · rw [accepted]
    exact trivial
  · unfold WriterOk
    rw [writer, accepted]
    rfl
  · unfold pending
    rw [loop, channel, writer]
    exact nil_suffix
  · intro _ waits
    unfold Waits waiting at waits
    rw [buffers, loop] at waits
    simp [LoopStage.inHand] at waits

theorem Opened.tracked (opened : Opened disk start) : Tracked start.durableLsn start := by
  rcases opened.idle with ⟨_, writer, channel, buffers, loop⟩
  rcases opened.blank with ⟨accepted, _⟩
  have durable := opened.durable
  refine ⟨start.lastApplied, start.lastApplied, ?_, ?_, ?_, ?_, ?_, le_rfl, le_rfl,
    opened.walState, ?_, opened.store⟩
  · omega
  · unfold pending
    rw [loop, channel, writer]
    nofun
  · rw [loop]
    exact Nat.zero_le _
  · rw [accepted]
    nofun
  · intro _ waits
    unfold Waits waiting at waits
    rw [buffers, loop] at waits
    simp [LoopStage.inHand] at waits
  · rw [loop]
    exact Nat.zero_le _

/-- On a node opened on any directory, no watermark passes a page record that
is not applied, as long as the buffers are flushed in order. -/
theorem watermark_sound (disk : Disk) (start node : WalNode)
    (opened : openWithMaintenance disk = .ok start)
    (reached : Reaches step flushesInOrder start node) : node.WatermarkSound := by
  have facts := opened_of_open opened
  have follows : Follows start.durableLsn node := by
    refine reached.invariant ⟨facts.ordered, facts.tracked⟩ ?_
    intro _ _ _ follows inOrder taken
    exact ⟨ordered_step follows.ordered taken,
      tracked_step follows.ordered follows.tracked inOrder taken⟩
  rcases follows.tracked with ⟨_, _, tracks⟩
  exact tracks.watermarkSound

/-- A record that clears the first slot of a page. -/
def clearRecord (lsn : Nat) (id : PageId) : WalRecord :=
  { lsn := lsn, op := .pageDel, pageId := id, slotId := 0, key := [], value := [] }

/-- A batch whose image goes straight through and whose slot record waits. -/
theorem watermark_sound_image_first : ∃ node,
    Reaches step flushesInOrder created node ∧ node.lastApplied = 1 ∧ node.waiting.length = 1 ∧
      node.WatermarkSound := by
  have passed : (runGuarded step flushesInOrder created
      [.appendWalBatch true (.starting 1 [.ofImage 1 1 (.filled 7), clearRecord 2 2]),
        .flush, .storeDurableLsn, .handOver, .receiveBatch, .replayRecord, .replayPage,
        .updateLastApplied, .writeWalState, .replayRecord]).any
        (fun node => node.lastApplied = 1 ∧ node.waiting.length = 1) = true := by
    decide +kernel
  rcases exists_reaches_of_decide passed with ⟨node, reached, lastApplied, waits⟩
  exact ⟨node, reached, lastApplied, waits, watermark_sound _ created node openWithMaintenance_empty reached⟩

/-- The image of the second page raises the watermark while the record of the
first page waits in its buffer. -/
theorem not_watermark_sound :
    ¬ (∀ (disk : Disk) (start node : WalNode), openWithMaintenance disk = .ok start ->
      Reaches step anyStep start node -> node.WatermarkSound) := by
  intro sound
  have passed : (runGuarded step anyStep created
      [.appendWalBatch false (.starting 1 [clearRecord 1 1, .ofImage 2 2 (.filled 7)]),
        .flush, .storeDurableLsn, .handOver, .receiveBatch, .replayRecord, .replayRecord,
        .replayPage, .updateLastApplied]).any
        (fun node => (logged node.accepted).any (fun record =>
          !record.op.isTxn && decide (record.lsn ≤ node.lastApplied) &&
            node.applied.all (fun done => done.lsn ≠ record.lsn))) = true := by
    decide +kernel
  rcases exists_reaches_of_runGuarded passed with ⟨node, reached, observed⟩
  rcases any_eq_true.mp observed with ⟨record, member, missed⟩
  simp only [Bool.and_eq_true, Bool.not_eq_true', decide_eq_true_eq, all_eq_true] at missed
  rcases missed with ⟨⟨page, below⟩, absent⟩
  have applied := sound _ created node openWithMaintenance_empty reached record member page
    (.inl below)
  exact absurd rfl (absent record applied)

end WalNode

end Storage
end ScaleKv
