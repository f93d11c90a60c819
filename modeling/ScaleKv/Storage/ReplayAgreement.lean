import ScaleKv.Storage.Replay
import Mathlib.Data.List.Induction

namespace ScaleKv
namespace Storage

open Foundation ReplayBuffer Replay List Function

/-!
# Live replay against recovery

The live loop reloads its expected LSN from the last applied one at every
batch.  Transaction records and records that stay in a buffer do not advance
the last applied LSN.  When a batch ends with such a record, the next batch
seems to leave a gap, and the loop drops it; the last applied LSN then never
moves again, so all later batches are dropped as well.

The batches up to that point are applied completely.  The two replays agree
therefore exactly when the dropped batches change no page.
-/

/-! ## Recovery applies every record -/

variable {replay recovered : Replay} {lastSeen : Nat} {live : LiveReplay} {image : PageImage}
  {backlog : Backlog} {target kept : Pages}

theorem redo_of_recoverRecord {record : WalRecord} (fresh : replay.lastApplied < record.lsn)
    (applied : replay.recoverRecord record = .ok recovered) :
    redo replay.pages record = .ok recovered.pages ∧ recovered.lastApplied ≤ record.lsn := by
  unfold recoverRecord at applied
  rw [if_neg (not_le.mpr fresh)] at applied
  unfold redo
  split at applied
  · next txn =>
    cases applied
    rw [if_pos txn]
    exact ⟨rfl, le_of_lt fresh⟩
  · next page =>
    rw [if_neg page]
    rcases bind_eq_ok.mp applied with ⟨_, redone, written⟩
    rcases bind_eq_ok.mp written with ⟨_, put, last⟩
    rcases bind_eq_ok.mp put with ⟨_, sized, shape⟩
    cases shape
    cases last
    rw [redone]
    simp only [bind, Except.bind, sized]
    exact ⟨rfl, max_le (le_of_lt fresh) le_rfl⟩

theorem redo_of_recoverRecords {records : List WalRecord}
    (numbered : Numbered (lastSeen + 1) records) (behind : replay.lastApplied ≤ lastSeen)
    (applied : records.foldlM recoverRecord replay = .ok recovered) :
    records.foldlM redo replay.pages = .ok recovered.pages ∧
      recovered.lastApplied ≤ lastSeen + records.length := by
  induction records generalizing lastSeen replay with
  | nil =>
    cases applied
    exact ⟨rfl, behind⟩
  | cons head tail ih =>
    rcases numbered with ⟨_, numbered⟩
    rw [foldlM_cons] at applied
    rcases bind_eq_ok.mp applied with ⟨_, first, rest⟩
    rcases redo_of_recoverRecord (by omega) first with ⟨redone, _⟩
    rcases ih numbered (by omega) rest with ⟨redoneRest, _⟩
    rw [foldlM_cons, redone]
    exact ⟨redoneRest, by rw [length_cons]; omega⟩

theorem redoAll_of_recover {batches : List WalBatch} (accepted : Accepted (lastSeen + 1) batches)
    (behind : replay.lastApplied ≤ lastSeen) (applied : replay.recover batches = .ok recovered) :
    redoAll replay.pages batches = .ok recovered.pages := by
  unfold recover at applied
  unfold redoAll
  induction batches generalizing lastSeen replay with
  | nil =>
    cases applied
    rfl
  | cons head tail ih =>
    rcases accepted with ⟨valid, accepted⟩
    rcases validateIncomingWalBatch_eq_ok.mp valid with ⟨start, finish, numbered⟩
    rw [foldlM_cons] at applied
    rcases bind_eq_ok.mp applied with ⟨_, first, rest⟩
    rw [start] at numbered finish
    rcases redo_of_recoverRecords numbered behind first with ⟨redone, bound⟩
    rw [flatMap_cons, foldlM_append, redone]
    have shifted : head.endLsn = lastSeen + head.records.length + 1 := by omega
    rw [shifted] at accepted
    exact ih accepted bound rest

/-! ## What the live loop has in hand -/

/-- Applying the buffers to the pages gives `target`, and the last applied LSN
has reached the last seen one exactly if the backlog says so. -/
structure Holds (backlog : Backlog) (lastSeen : Nat) (target : Pages) (live : LiveReplay) : Prop where
  pending : ∀ id, (live.bufferOf id).records.foldlM applyWalRecord (live.replay.pages id).bytes =
    .ok (target id).bytes
  waiting : ∀ id, (live.bufferOf id).bytes = backlog.waiting.getD id 0
  empty : ∀ id, (live.bufferOf id).bytes = 0 -> (live.bufferOf id).records = []
  buffered_le : ∀ id record, record ∈ (live.bufferOf id).records -> record.lsn ≤ lastSeen
  applied_le : live.replay.lastApplied ≤ lastSeen
  caughtUp : backlog.caughtUp = true <-> live.replay.lastApplied = lastSeen

theorem holds_start (replay : Replay) :
    Holds .none replay.lastApplied replay.pages { replay := replay, buffers := ∅ } where
  pending := by intro id; simp [LiveReplay.bufferOf, new]; rfl
  waiting := by intro id; simp [LiveReplay.bufferOf, new, Backlog.none]
  empty := by intro id _; simp [LiveReplay.bufferOf, new]
  buffered_le := by intro id record member; simp [LiveReplay.bufferOf, new] at member
  applied_le := le_rfl
  caughtUp := by simp [Backlog.none]

theorem LiveReplay.bufferOf_setBuffer (live : LiveReplay) (written id : PageId)
    (buffer : ReplayBuffer) :
    (live.setBuffer written buffer).bufferOf id =
      if written = id then buffer else live.bufferOf id := by
  unfold LiveReplay.bufferOf LiveReplay.setBuffer
  rw [Std.TreeMap.getD_insert]
  simp only [compare_eq_iff_eq]

/-- A record that was applied or waits in its buffer. -/
def LiveReplay.Took (live : LiveReplay) (record : WalRecord) : Prop :=
  record ∈ live.replay.applied ∨ record ∈ (live.bufferOf record.pageId).records

/-- No record that was taken in is dropped, and none that was applied is
forgotten. -/
structure LiveReplay.Grows (live after : LiveReplay) : Prop where
  applied : ∀ record ∈ live.replay.applied, record ∈ after.replay.applied
  took : ∀ record, live.Took record -> after.Took record

theorem LiveReplay.Grows.refl (live : LiveReplay) : live.Grows live :=
  ⟨fun _ member => member, fun _ taken => taken⟩

theorem LiveReplay.Grows.trans {middle after : LiveReplay} (first : live.Grows middle)
    (second : middle.Grows after) : live.Grows after :=
  ⟨fun record member => second.applied record (first.applied record member),
    fun record taken => second.took record (first.took record taken)⟩

theorem LiveReplay.grows_push (live : LiveReplay) (record : WalRecord) :
    live.Grows (live.setBuffer record.pageId ((live.bufferOf record.pageId).push record)) where
  applied := fun _ member => member
  took := by
    rintro _ (applied | waiting)
    · exact .inl applied
    · right
      rw [LiveReplay.bufferOf_setBuffer]
      split
      · next same =>
        rw [← same] at waiting
        exact mem_append_left _ waiting
      · exact waiting

theorem LiveReplay.took_push (live : LiveReplay) (record : WalRecord) :
    (live.setBuffer record.pageId ((live.bufferOf record.pageId).push record)).Took record := by
  right
  rw [LiveReplay.bufferOf_setBuffer, if_pos rfl]
  simp [push]

theorem maxLsn_append_singleton (records : List WalRecord) (record : WalRecord)
    (largest : ∀ other ∈ records, other.lsn < record.lsn) :
    maxLsn (records ++ [record]) = record.lsn := by
  have bound : maxLsn records < record.lsn ∨ maxLsn records = 0 := by
    induction records using List.reverseRecOn with
    | nil => exact .inr rfl
    | append_singleton _ last ih =>
      have lastBelow := largest last (by simp)
      unfold maxLsn
      rw [foldl_append, foldl_cons, foldl_nil]
      split
      · exact .inl lastBelow
      · exact ih (fun other member => largest other (by simp [member]))
  unfold maxLsn at bound ⊢
  rw [foldl_append, foldl_cons, foldl_nil]
  split <;> omega

theorem replayPageRecords_eq_ok {id : PageId} {records : List WalRecord} (nonempty : records ≠ [])
    (applied : records.foldlM applyWalRecord (replay.pages id).bytes = .ok image.bytes) :
    replayPageRecords replay id records =
      .ok { pages := update replay.pages id image,
            lastApplied := max replay.lastApplied (maxLsn records),
            applied := replay.applied ++ records } := by
  have sized : PageImage.ofSlice image.bytes = .ok image := PageImage.ofSlice_eq_ok.mpr rfl
  unfold replayPageRecords
  rw [if_neg (by simpa using nonempty), applied]
  simp only [bind, Except.bind, writePage, sized]
  rfl

theorem LiveReplay.flush_spec {id : PageId} (nonempty : (live.bufferOf id).records ≠ [])
    (applied : (live.bufferOf id).records.foldlM applyWalRecord (live.replay.pages id).bytes =
      .ok image.bytes) :
    ∃ after, live.flush id = .ok after ∧
      after.replay.pages = update live.replay.pages id image ∧
      after.replay.lastApplied = max live.replay.lastApplied (maxLsn (live.bufferOf id).records) ∧
      live.Grows after ∧
      ∀ other, after.bufferOf other =
        if id = other then new else live.bufferOf other := by
  unfold LiveReplay.flush
  rw [replayPageRecords_eq_ok nonempty applied]
  refine ⟨_, rfl, rfl, rfl, ⟨?_, ?_⟩, fun other => live.bufferOf_setBuffer id other .new⟩
  · intro record member
    exact mem_append_left _ member
  · rintro record (done | waiting)
    · exact .inl (mem_append_left _ done)
    · by_cases own : id = record.pageId
      · rw [← own] at waiting
        exact .inl (mem_append_right _ waiting)
      · right
        change record ∈ ((live.setBuffer id .new).bufferOf record.pageId).records
        rw [LiveReplay.bufferOf_setBuffer, if_neg own]
        exact waiting

theorem Backlog.getD_insert (waiting : Std.TreeMap PageId Nat) (written id : PageId) (size : Nat) :
    (waiting.insert written size).getD id 0 = if written = id then size else waiting.getD id 0 := by
  rw [Std.TreeMap.getD_insert]
  simp only [compare_eq_iff_eq]

section Buffer

variable {backlog : Backlog} {lastSeen : Nat} {target : Pages} {live : LiveReplay}
variable {record : WalRecord} {image : PageImage}

section

variable (holds : Holds backlog lastSeen target live)

include holds

theorem Holds.pending_push
    (applied : applyWalRecord (target record.pageId).bytes record = .ok image.bytes) :
    ((live.bufferOf record.pageId).push record).records.foldlM applyWalRecord
      (live.replay.pages record.pageId).bytes = .ok image.bytes := by
  unfold push
  rw [foldlM_append, holds.pending]
  change [record].foldlM applyWalRecord (target record.pageId).bytes = .ok image.bytes
  rw [foldlM_cons, applied]
  rfl

section Next

variable (lsn : record.lsn = lastSeen + 1)

include lsn

theorem Holds.buffered_le_push {other : WalRecord}
    (member : other ∈ ((live.bufferOf record.pageId).push record).records) :
    other.lsn ≤ record.lsn := by
  rcases mem_append.mp member with earlier | last
  · have := holds.buffered_le record.pageId other earlier
    omega
  · rw [mem_singleton.mp last]

section

variable (applied : applyWalRecord (target record.pageId).bytes record = .ok image.bytes)

include applied

theorem Holds.keep :
    Holds
      { caughtUp := false
        waiting := backlog.waiting.insert record.pageId
          (backlog.waiting.getD record.pageId 0 + recordSize record) }
      record.lsn (update target record.pageId image)
      (live.setBuffer record.pageId ((live.bufferOf record.pageId).push record)) where
  pending := by
    intro id
    rw [LiveReplay.bufferOf_setBuffer]
    by_cases same : record.pageId = id
    · subst same
      rw [if_pos rfl, update_self]
      exact holds.pending_push applied
    · rw [if_neg same, update_of_ne (Ne.symm same)]
      exact holds.pending id
  waiting := by
    intro id
    rw [LiveReplay.bufferOf_setBuffer, Backlog.getD_insert]
    split
    · rw [push, holds.waiting]
    · exact holds.waiting id
  empty := by
    intro id zero
    rw [LiveReplay.bufferOf_setBuffer] at zero ⊢
    split
    · next same =>
      rw [if_pos same] at zero
      simp [push, recordSize] at zero
    · next different =>
      rw [if_neg different] at zero
      exact holds.empty id zero
  buffered_le := by
    intro id other member
    rw [LiveReplay.bufferOf_setBuffer] at member
    split at member
    · exact holds.buffered_le_push lsn member
    · have := holds.buffered_le id other member
      omega
  applied_le := by
    have := holds.applied_le
    change live.replay.lastApplied ≤ record.lsn
    omega
  caughtUp := by
    have := holds.applied_le
    change false = true <-> live.replay.lastApplied = record.lsn
    simp only [Bool.false_eq_true, false_iff]
    omega

theorem Holds.fill :
    ∃ after,
      (live.setBuffer record.pageId ((live.bufferOf record.pageId).push record)).flush
        record.pageId = .ok after ∧
      Holds { caughtUp := true, waiting := backlog.waiting.insert record.pageId 0 } record.lsn
        (update target record.pageId image) after ∧
      live.Grows after ∧ after.Took record := by
  have own := live.bufferOf_setBuffer record.pageId record.pageId
    ((live.bufferOf record.pageId).push record)
  rw [if_pos rfl] at own
  have newest : maxLsn ((live.bufferOf record.pageId).push record).records = record.lsn := by
    refine maxLsn_append_singleton _ record ?_
    intro other member
    have := holds.buffered_le record.pageId other member
    omega
  rcases LiveReplay.flush_spec (by rw [own]; simp [push])
    (by rw [own]; exact holds.pending_push applied) with
    ⟨after, flushed, pages, last, grows, buffers⟩
  rw [own, newest] at last
  have buffers : ∀ id, after.bufferOf id =
      if record.pageId = id then new else live.bufferOf id := by
    intro id
    rw [buffers id, LiveReplay.bufferOf_setBuffer]
    split <;> rfl
  have bound : live.replay.lastApplied ≤ lastSeen := holds.applied_le
  change after.replay.lastApplied = max live.replay.lastApplied record.lsn at last
  refine ⟨after, flushed, ⟨?_, ?_, ?_, ?_, by omega, ?_⟩, (live.grows_push record).trans grows,
    grows.took record (live.took_push record)⟩
  · intro id
    rw [buffers id, pages]
    by_cases same : record.pageId = id
    · subst same
      rw [if_pos rfl, update_self, update_self]
      rfl
    · rw [if_neg same, update_of_ne (Ne.symm same), update_of_ne (Ne.symm same)]
      exact holds.pending id
  · intro id
    rw [buffers id, Backlog.getD_insert]
    split
    · rfl
    · exact holds.waiting id
  · intro id zero
    rw [buffers id] at zero ⊢
    split
    · rfl
    · next different =>
      rw [if_neg different] at zero
      exact holds.empty id zero
  · intro id other member
    rw [buffers id] at member
    split at member
    · cases member
    · have := holds.buffered_le id other member
      omega
  · simp only [true_iff]
    omega

end

/-- Taking in a page record: it goes to its buffer, which is applied at once
when it is full. -/
theorem Holds.buffer {next : Pages} (page : ¬ record.op.isTxn = true)
    (redone : redo target record = .ok next) :
    ∃ after, live.buffer record = .ok after ∧
      Holds (backlog.push record) record.lsn next after ∧ live.Grows after ∧ after.Took record := by
  unfold redo at redone
  rw [if_neg page] at redone
  rcases bind_eq_ok.mp redone with ⟨bytes, applied, sized⟩
  rcases bind_eq_ok.mp sized with ⟨_, slice, shape⟩
  cases shape
  rw [PageImage.ofSlice_eq_ok] at slice
  subst slice
  have size : ((live.bufferOf record.pageId).push record).bytes =
      backlog.waiting.getD record.pageId 0 + recordSize record := by
    rw [push, holds.waiting]
  unfold LiveReplay.buffer Backlog.push
  rw [if_neg page]
  simp only [shouldFlush, size, decide_eq_true_eq]
  by_cases full : 8 * 1024 ≤ backlog.waiting.getD record.pageId 0 + recordSize record
  · rw [if_pos full, if_pos full]
    exact holds.fill lsn applied
  · rw [if_neg full, if_neg full]
    exact ⟨_, rfl, holds.keep lsn applied, live.grows_push record, live.took_push record⟩

theorem Holds.skip :
    Holds { backlog with caughtUp := false } record.lsn target live where
  pending := holds.pending
  waiting := holds.waiting
  empty := holds.empty
  buffered_le := by
    intro id other member
    have := holds.buffered_le id other member
    omega
  applied_le := by
    have := holds.applied_le
    omega
  caughtUp := by
    have := holds.applied_le
    simp only [Bool.false_eq_true, false_iff]
    omega

end Next

end

end Buffer

/-! ## Batches -/

theorem Holds.records {records : List WalRecord} {next : Pages}
    (holds : Holds backlog lastSeen target live) (numbered : Numbered (lastSeen + 1) records)
    (redone : records.foldlM redo target = .ok next) :
    ∃ after, live.replayRecords lastSeen records = .ok after ∧
      Holds (backlog.after records) (lastSeen + records.length) next after ∧ live.Grows after ∧
      ∀ record ∈ records, ¬ record.op.isTxn = true -> after.Took record := by
  induction records generalizing backlog lastSeen target live with
  | nil =>
    cases redone
    exact ⟨live, rfl, holds, .refl live, fun _ member => absurd member (not_mem_nil)⟩
  | cons head tail ih =>
    rcases numbered with ⟨lsn, numbered⟩
    rw [foldlM_cons] at redone
    rcases bind_eq_ok.mp redone with ⟨_, first, rest⟩
    rw [← lsn] at numbered
    have total : lastSeen + (head :: tail).length = head.lsn + tail.length := by
      rw [length_cons]
      omega
    rw [total]
    unfold LiveReplay.replayRecords
    rw [if_neg (by omega), if_neg (by omega)]
    by_cases txn : head.op.isTxn = true
    · rw [redo, if_pos txn] at first
      cases first
      have pushed : backlog.push head = { backlog with caughtUp := false } := by
        rw [Backlog.push, if_pos txn]
      rw [if_pos txn, Backlog.after, foldl_cons, pushed]
      rcases ih (holds.skip lsn) numbered rest with
        ⟨after, replayed, held, grows, took⟩
      refine ⟨after, replayed, held, grows, ?_⟩
      intro record member page
      rcases mem_cons.mp member with isHead | inTail
      · exact absurd (isHead ▸ txn) page
      · exact took record inTail page
    · rw [if_neg txn]
      rcases holds.buffer lsn txn first with ⟨_, taken, held, grew, tookHead⟩
      rcases ih held numbered rest with ⟨after, replayed, held, grows, took⟩
      rw [taken]
      refine ⟨after, replayed, held, grew.trans grows, ?_⟩
      intro record member page
      rcases mem_cons.mp member with isHead | inTail
      · rw [isHead]
        exact grows.took head tookHead
      · exact took record inTail page

/-- Once the last applied LSN lags behind, every batch seems to leave a gap. -/
theorem replayBatches_stalled {batches : List WalBatch} (accepted : Accepted (lastSeen + 1) batches)
    (behind : live.replay.lastApplied < lastSeen) :
    batches.foldlM LiveReplay.replayBatch live = .ok live := by
  induction batches generalizing lastSeen with
  | nil => rfl
  | cons head tail ih =>
    rcases accepted with ⟨valid, accepted⟩
    rcases validateIncomingWalBatch_eq_ok.mp valid with ⟨_, _, numbered⟩
    have dropped : live.replayBatch head = .ok live := by
      unfold LiveReplay.replayBatch
      cases records : head.records with
      | nil => rfl
      | cons =>
        rw [records] at numbered
        have lsn := numbered.1
        unfold LiveReplay.replayRecords
        rw [if_neg (by omega), if_pos (by omega)]
    have shifted : head.endLsn = lastSeen + head.records.length + 1 := by omega
    rw [shifted] at accepted
    rw [foldlM_cons, dropped]
    exact ih accepted (by omega)

/-- The loop takes in the batches of the first part completely and none of the
others. -/
theorem Holds.batches {batches : List WalBatch} (holds : Holds backlog lastSeen target live)
    (accepted : Accepted (lastSeen + 1) batches)
    (redone : redoAll target (backlog.split batches).1 = .ok kept) :
    ∃ after final finalSeen, batches.foldlM LiveReplay.replayBatch live = .ok after ∧
      Holds final finalSeen kept after := by
  induction batches generalizing backlog lastSeen target live with
  | nil =>
    cases redone
    exact ⟨live, backlog, lastSeen, rfl, holds⟩
  | cons head tail ih =>
    unfold Backlog.split at redone
    by_cases caughtUp : backlog.caughtUp = true
    · rw [if_pos caughtUp] at redone
      unfold redoAll at redone
      rw [flatMap_cons, foldlM_append] at redone
      rcases bind_eq_ok.mp redone with ⟨_, first, rest⟩
      rcases accepted with ⟨valid, accepted⟩
      rcases validateIncomingWalBatch_eq_ok.mp valid with ⟨start, _, numbered⟩
      rw [start] at numbered
      rcases holds.records numbered first with ⟨_, taken, held, _⟩
      have shifted : head.endLsn = lastSeen + head.records.length + 1 := by omega
      rw [shifted] at accepted
      rw [foldlM_cons, LiveReplay.replayBatch, holds.caughtUp.mp caughtUp, taken]
      exact ih held accepted rest
    · rw [if_neg caughtUp] at redone
      cases redone
      have behind : live.replay.lastApplied < lastSeen :=
        lt_of_le_of_ne holds.applied_le (fun same => caughtUp (holds.caughtUp.mpr same))
      exact ⟨live, backlog, lastSeen, replayBatches_stalled accepted behind, holds⟩

/-- Flushing the buffers in any order brings every page up to date. -/
theorem flushAll_spec (ids : List PageId) (live : LiveReplay)
    (pending : ∀ id, (live.bufferOf id).records.foldlM applyWalRecord
      (live.replay.pages id).bytes = .ok (target id).bytes)
    (covered : ∀ id, id ∉ ids -> (live.bufferOf id).records = []) :
    ∃ after, ids.foldlM LiveReplay.flush live = .ok after ∧ after.replay.pages = target := by
  induction ids generalizing live with
  | nil =>
    refine ⟨live, rfl, ?_⟩
    funext id
    have done := pending id
    rw [covered id (not_mem_nil), foldlM_nil] at done
    have bytes : (live.replay.pages id).bytes = (target id).bytes := Except.ok.inj done
    have left := PageImage.ofSlice_eq_ok.mpr bytes
    rw [PageImage.ofSlice_eq_ok.mpr (rfl : (target id).bytes = (target id).bytes)] at left
    exact (Except.ok.inj left).symm
  | cons head tail ih =>
    rw [foldlM_cons]
    by_cases empty : (live.bufferOf head).records = []
    · have skipped : live.flush head = .ok (live.setBuffer head new) := by
        unfold LiveReplay.flush replayPageRecords
        rw [if_pos (by simpa using empty)]
        rfl
      have buffers : ∀ id, ((live.setBuffer head new).bufferOf id).records =
          (live.bufferOf id).records := by
        intro id
        rw [LiveReplay.bufferOf_setBuffer]
        split
        · next same =>
          rw [← same, empty]
          rfl
        · rfl
      rw [skipped]
      refine ih (live.setBuffer head new) ?_ ?_
      · intro id
        rw [buffers id]
        exact pending id
      · intro id outside
        rw [buffers id]
        by_cases same : id = head
        · rw [same]
          exact empty
        · exact covered id (fun member => (mem_cons.mp member).elim same outside)
    · rcases LiveReplay.flush_spec empty (pending head) with
        ⟨after, flushed, pages, _, _, buffers⟩
      rw [flushed]
      refine ih after ?_ ?_
      · intro id
        rw [buffers id, pages]
        by_cases same : head = id
        · subst same
          rw [if_pos rfl, update_self]
          rfl
        · rw [if_neg same, update_of_ne (Ne.symm same)]
          exact pending id
      · intro id outside
        rw [buffers id]
        by_cases same : head = id
        · rw [if_pos same]
          rfl
        · rw [if_neg same]
          exact covered id (fun member =>
            (mem_cons.mp member).elim (fun equal => same equal.symm) outside)

/-- The drained live loop has applied the first part of the batches. -/
theorem LiveReplay.run_spec {batches : List WalBatch}
    (accepted : Accepted (replay.lastApplied + 1) batches)
    (redone : redoAll replay.pages (Backlog.none.split batches).1 = .ok kept) :
    ∃ drained, LiveReplay.run replay batches = .ok drained ∧ drained.replay.pages = kept := by
  rcases (holds_start replay).batches accepted redone with ⟨live, _, _, taken, holds⟩
  unfold LiveReplay.run
  rw [taken]
  refine flushAll_spec live.buffers.keys live holds.pending ?_
  intro id outside
  have absent : id ∉ live.buffers := fun member => outside (Std.TreeMap.mem_keys.mpr member)
  rw [LiveReplay.bufferOf, Std.TreeMap.getD_eq_fallback absent]
  rfl

theorem Backlog.split_append (backlog : Backlog) (batches : List WalBatch) :
    (backlog.split batches).1 ++ (backlog.split batches).2 = batches := by
  induction batches generalizing backlog with
  | nil => rfl
  | cons head tail ih =>
    unfold Backlog.split
    split
    · exact congrArg (head :: ·) (ih _)
    · rfl

/-- Live replay and recovery end with the same pages exactly if redoing the
dropped batches behind the others changes nothing. -/
theorem live_eq_recovered_iff (replay recovered : Replay) (batches : List WalBatch)
    (accepted : Accepted (replay.lastApplied + 1) batches)
    (noError : replay.recover batches = .ok recovered) :
    (∃ drained, LiveReplay.run replay batches = .ok drained ∧
      ∀ id, drained.replay.pages id = recovered.pages id) <->
    ∀ kept, redoAll replay.pages (Backlog.none.split batches).1 = .ok kept ->
      redoAll kept (Backlog.none.split batches).2 = .ok kept := by
  have all := redoAll_of_recover accepted le_rfl noError
  rw [← Backlog.none.split_append batches] at all
  unfold redoAll at all
  rw [flatMap_append, foldlM_append] at all
  rcases bind_eq_ok.mp all with ⟨middle, first, rest⟩
  rcases LiveReplay.run_spec accepted first with ⟨drained, ran, pages⟩
  constructor
  · rintro ⟨_, otherRan, same⟩ kept redone
    rw [ran] at otherRan
    cases otherRan
    have equal : middle = kept := Except.ok.inj (first.symm.trans redone)
    have final : kept = recovered.pages := by
      rw [← equal, ← pages]
      exact funext same
    rw [equal] at rest
    unfold redoAll
    rw [rest, final]
  · intro unchanged
    refine ⟨drained, ran, ?_⟩
    intro id
    have final := Except.ok.inj (rest.symm.trans (unchanged middle first))
    rw [pages, ← final]

/-- A batch with a single record. -/
def singleton (record : WalRecord) : WalBatch :=
  { requestId := 0, startLsn := record.lsn, endLsn := record.lsn + 1, records := [record] }

theorem accepted_singleton (record : WalRecord) {rest : List WalBatch}
    (accepted : Accepted (record.lsn + 1) rest) : Accepted record.lsn (singleton record :: rest) :=
  ⟨validateIncomingWalBatch_eq_ok.mpr ⟨rfl, rfl, rfl, trivial⟩, accepted⟩

theorem recoverRecord_ofImage (replay : Replay) (id : PageId) (image : PageImage) {lsn : Nat}
    (fresh : replay.lastApplied < lsn) :
    replay.recoverRecord (.ofImage lsn id image) =
      .ok { pages := update replay.pages id image, lastApplied := lsn,
            applied := replay.applied ++ [.ofImage lsn id image] } := by
  have sized : PageImage.ofSlice image.bytes = .ok image := PageImage.ofSlice_eq_ok.mpr rfl
  unfold recoverRecord
  rw [if_neg (show ¬ (WalRecord.ofImage lsn id image).lsn ≤ _ from not_le.mpr fresh),
    if_neg (by simp [WalRecord.ofImage, WalOp.isTxn]), applyRecord, applyWalRecord_ofImage]
  simp only [bind, Except.bind, writePage, sized]
  simp [pure, Except.pure, updateLastApplied, noteApplied, WalRecord.ofImage,
    le_of_lt fresh]

theorem Backlog.push_ofImage (backlog : Backlog) (lsn : Nat) (id : PageId) (image : PageImage) :
    (backlog.push (.ofImage lsn id image)).caughtUp = true := by
  have large : 8 * 1024 ≤ backlog.waiting.getD id 0 +
      recordSize (.ofImage lsn id image) := by
    simp only [recordSize, WalRecord.ofImage, image.length_eq, pageSize]
    omega
  rw [Backlog.push, if_neg (by simp [WalRecord.ofImage, WalOp.isTxn])]
  exact congrArg Backlog.caughtUp (if_pos large)

/-- The all-zero store before anything has been applied. -/
def Replay.blank : Replay := { pages := fun _ => PageImage.zero, lastApplied := 0, applied := [] }

/-- A record of a transaction, which page replay passes over. -/
def txnPutRecord (lsn : Nat) : WalRecord :=
  { lsn := lsn, op := .txnPut, pageId := 0, slotId := 0, key := [], value := [] }

/-- Two batches of page images are replayed alike. -/
theorem live_eq_recovered_iff_images :
    ∃ recovered, blank.recover
        [singleton (.ofImage 1 1 (.filled 1)), singleton (.ofImage 2 2 (.filled 2))] = .ok recovered ∧
      ∃ drained, LiveReplay.run blank
        [singleton (.ofImage 1 1 (.filled 1)), singleton (.ofImage 2 2 (.filled 2))] = .ok drained ∧
      ∀ id, drained.replay.pages id = recovered.pages id := by
  have noError : blank.recover
      [singleton (.ofImage 1 1 (.filled 1)), singleton (.ofImage 2 2 (.filled 2))] = .ok
        { pages := update (update blank.pages 1 (.filled 1)) 2 (.filled 2)
          lastApplied := 2
          applied := [.ofImage 1 1 (.filled 1), .ofImage 2 2 (.filled 2)] } := by
    simp [recover, singleton, recoverRecord_ofImage, blank, bind, Except.bind, pure,
      Except.pure]
  refine ⟨_, noError, ?_⟩
  have accepted : Accepted (blank.lastApplied + 1)
      [singleton (.ofImage 1 1 (.filled 1)), singleton (.ofImage 2 2 (.filled 2))] :=
    accepted_singleton (.ofImage 1 1 (.filled 1))
      (accepted_singleton (.ofImage 2 2 (.filled 2)) trivial)
  rw [live_eq_recovered_iff blank _ _ accepted noError]
  have nothingDropped : (Backlog.none.split
      [singleton (.ofImage 1 1 (.filled 1)), singleton (.ofImage 2 2 (.filled 2))]).2 = [] := by
    simp [Backlog.split, Backlog.after, singleton, Backlog.none, Backlog.push_ofImage]
  rw [nothingDropped]
  exact fun kept _ => rfl

/-- A batch that holds a transaction record only makes the live loop drop the
page image of the next batch; recovery applies it. -/
theorem not_live_eq_recovered :
    ¬ (∀ (replay recovered : Replay) (batches : List WalBatch),
      Accepted (replay.lastApplied + 1) batches -> replay.recover batches = .ok recovered ->
      ∃ drained, LiveReplay.run replay batches = .ok drained ∧
        ∀ id, drained.replay.pages id = recovered.pages id) := by
  intro agree
  have noError : blank.recover
      [singleton (txnPutRecord 1), singleton (.ofImage 2 1 (.filled 1))] = .ok
        { pages := update blank.pages 1 (.filled 1)
          lastApplied := 2
          applied := [.ofImage 2 1 (.filled 1)] } := by
    have skipped : blank.recoverRecord (txnPutRecord 1) = .ok blank := rfl
    simp only [recover, singleton, foldlM_cons, foldlM_nil, skipped]
    simp [recoverRecord_ofImage, blank, bind, Except.bind, pure, Except.pure]
  have accepted : Accepted (blank.lastApplied + 1)
      [singleton (txnPutRecord 1), singleton (.ofImage 2 1 (.filled 1))] :=
    accepted_singleton (txnPutRecord 1)
      (accepted_singleton (.ofImage 2 1 (.filled 1)) trivial)
  rcases agree blank _ _ accepted noError with ⟨drained, ran, same⟩
  have dropped : (LiveReplay.run blank
      [singleton (txnPutRecord 1), singleton (.ofImage 2 1 (.filled 1))]).toOption.map
          (fun drained => (drained.replay.pages 1).bytes.head?) = some (some 0) := by
    decide +kernel
  have present : drained.replay.pages 1 = .filled 1 := same 1
  rw [ran] at dropped
  simp only [Except.toOption, Option.map_some, present] at dropped
  revert dropped
  decide +kernel

end Storage
end ScaleKv
