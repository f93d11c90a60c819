import ScaleKv.Compute.SnapshotReads

namespace ScaleKv
namespace Compute
namespace Embedded

open Foundation Option OrderedMap

variable {Value : Type} {state next : Embedded Value} {owner : PageId -> Owner} {horizon : Nat}
  {id : TxnId} {txn : Txn Value}

/-!
# Reads that fail because of a writer

A reader keeps a copy of every undo page that it visits and goes back to that
copy, while the transaction that owns the page may append to it.  A read that
follows a pointer to a record behind the end of its copy fails, although the
record is in the cache.  When the copy holds the record, or there is none, reads
do not fail: a pointer that a snapshot follows leads to a record of the cache.

The reads are those of `get`.  A range scan, which takes its rows at its start
and then walks the undo records in the same way, is not modelled.
-/

/-- No read has ended with an error. -/
def ReadsSucceed (state : Embedded Value) : Prop :=
  ∀ (id : TxnId) (txn : Txn Value), state.txns[id]? = some txn ->
    ∀ key error, txn.reading ≠ .failed key error

/-- The copy that the reader has of the page it goes to next, if any, holds the
record. -/
def copyHolds (state : Embedded Value) (id : TxnId) : Bool :=
  match state.txns[id]?.map Txn.reading, state.undo.txns[id]? with
  | some (.walking _ (some ptr)), some own =>
    (own.dirty[ptr.pageId]?.or own.roCache[ptr.pageId]?).all
      (fun page => ptr.slotId < page.records.length)
  | _, _ => true

/-- Writers come one at a time, and no reader goes back to a copy that is too old
for the pointer it follows. -/
def readsFreshCopies (state : Embedded Value) (action : Action Value) : Prop :=
  oneWriter state action ∧
    match action with
    | .walk id => state.copyHolds id = true
    | _ => True

instance readsFreshCopiesDecidable (state : Embedded Value) (action : Action Value) :
    Decidable (readsFreshCopies state action) := by
  unfold readsFreshCopies
  induction action using Action.casesOn <;> infer_instance

namespace ReadsSucceed

theorem sets (safe : ReadsSucceed state) {after : Txn Value}
    (txns : next.txns = state.txns.insert id after)
    (own : ∀ key error, after.reading ≠ .failed key error) : next.ReadsSucceed := by
  intro other reader present
  rw [txns] at present
  rcases lookup_insert_cases present with ⟨_, rfl⟩ | ⟨_, before⟩
  · exact own
  · exact safe other reader before

end ReadsSucceed

theorem Follows.notFailed {key : Key} {glance : Glance Value} {reading : Reading Value}
    (follows : Follows key glance reading) (other : Key) (error : Error) :
    reading ≠ .failed other error := by
  cases glance with
  | answer =>
    cases follows
    exact nofun
  | undo =>
    cases follows
    exact nofun
  | wait => cases follows

/-- The record that a walk goes to next is in the cache, and the reader finds it
there or in its copy. -/
theorem Coherent.finds {key : Key} {ptr : UndoPtr} (inv : Coherent state owner horizon)
    (present : state.txns[id]? = some txn) (walking : txn.reading = .walking key (some ptr))
    (holds : state.copyHolds id = true) :
    ∃ page undo record, pageForRead state.undo id ptr.pageId = some (page, undo) ∧
      page.readRecord ptr.slotId = .ok record := by
  have current := inv.readings id txn present
  unfold ReadingOk at current
  rw [walking] at current
  rcases current.2 with ⟨_, record, _, _, saves, _⟩
  rcases UndoLog.recordAt_eq_some.mp saves.1 with ⟨stored, found, inside⟩
  cases isOwn : state.undo.txns[id]? with
  | none => cases present.symm.trans ((inv.log.synced id).mpr isOwn)
  | some own =>
    unfold copyHolds at holds
    rw [present, map_some, walking, isOwn] at holds
    unfold pageForRead
    rw [isOwn]
    simp only [bind_eq_bind, bind_some]
    cases copy : own.dirty[ptr.pageId]?.or own.roCache[ptr.pageId]? with
    | some page =>
      simp only [copy, all_some, decide_eq_true_eq] at holds
      refine ⟨page, _, page.records[ptr.slotId], rfl, ?_⟩
      rw [UndoPage.readRecord, List.getElem?_eq_getElem holds]
    | none =>
      refine ⟨stored, _, record, by rw [found]; rfl, ?_⟩
      rw [UndoPage.readRecord, inside]

theorem ReadsSucceed.walks (safe : ReadsSucceed state) (inv : Coherent state owner horizon)
    (holds : state.copyHolds id = true) (taken : state.walk id = some next) : next.ReadsSucceed := by
  rcases walk_eq_some taken with ⟨_, _, present, _, _, _, rfl, outcome⟩
  refine safe.sets rfl ?_
  rcases outcome with ⟨_, _, rfl⟩ | ⟨_, atPtr, outcome⟩
  · exact nofun
  · rcases inv.finds present atPtr holds with ⟨_, _, _, found, readOk⟩
    rcases outcome with ⟨missing, _⟩ | ⟨_, isImage, outcome⟩
    · cases missing.symm.trans found
    · cases isImage.symm.trans found
      rcases outcome with ⟨_, failed, _⟩ | ⟨_, _, follows⟩
      · cases failed.symm.trans readOk
      · exact follows.notFailed

theorem ReadsSucceed.step {action : Action Value} (safe : ReadsSucceed state)
    (inv : Coherent state owner horizon) (admitted : readsFreshCopies state action)
    (taken : step state action = some next) : next.ReadsSucceed := by
  cases (effect_of_step taken).2 with
  | begins _ txns idle | appends _ txns idle => exact safe.sets txns (by rw [idle]; exact nofun)
  | looks _ txns follows => exact safe.sets txns follows.notFailed
  | walks walk => exact safe.walks inv admitted.2 walk
  | @sets _ id txn _ _ txns present reading =>
    refine safe.sets txns ?_
    rcases reading with idle | same
    · rw [idle]
      exact nofun
    · rw [same]
      exact safe id txn present
  | ends _ txns | ships _ txns =>
    intro other reader present
    rw [txns] at present
    exact safe other reader (lookup_erase_cases present).2
  | keeps _ txns =>
    intro other reader present
    exact safe other reader (txns ▸ present)

/-- In every run with one writer at a time in which no reader goes back to a copy
that is too old, no read fails. -/
theorem reads_succeed_of_fresh_copies {sequencer : Sequencer} {final : Embedded Value}
    (ordered : sequencer.durableLsn ≤ sequencer.nextLsn)
    (reached : Reaches step readsFreshCopies (created sequencer) final) : final.ReadsSucceed := by
  have kept : final.Consistent ∧ final.ReadsSucceed := by
    refine @Reaches.invariant _ _ _ _ _ _
      (fun state => state.Consistent ∧ state.ReadsSucceed) ⟨consistent_created sequencer ordered, ?_⟩
      ?_ reached
    · intro _ _ present
      cases present.symm.trans Std.TreeMap.getElem?_emptyc
    · rintro _ _ _ ⟨⟨_, _, inv⟩, safe⟩ admitted taken
      exact ⟨inv.step_keeps admitted.1 taken, safe.step inv admitted taken⟩
  exact kept.2

/-- The rows 7 and 8, a snapshot, a commit of another row, and a writer that is
younger than the snapshot. -/
def twoRowsAndReader : List (Action Nat) :=
  [.begin 1 false] ++ putOf 1 (Key.ofNat 7) 10 ++ putOf 1 (Key.ofNat 8) 20 ++
    [.commit 1, .prestamp 1, .prestamp 1, .reserve 1 2, .stamp 1, .stamp 1, .ship 1 true] ++
    [.begin 2 true, .begin 4 false] ++ putOf 4 (Key.ofNat 9) 30 ++ commitOf 4 2 ++ [.begin 3 false]

/-- The writer overwrites both rows before the reader follows a pointer. -/
theorem reads_succeed_after_both_writes : ∃ final : Embedded Nat,
    Reaches step readsFreshCopies (created ofOneNode) final ∧
      final.txns[2]?.map Txn.reading = some (.answered (Key.ofNat 8) (some 20)) ∧
      final.ReadsSucceed := by
  refine exists_reaches_with
    (twoRowsAndReader ++ putOf 3 (Key.ofNat 7) 11 ++ putOf 3 (Key.ofNat 8) 21 ++
      [.get 2 (Key.ofNat 7), .walk 2, .get 2 (Key.ofNat 8), .walk 2])
    (fun _ reached => reads_succeed_of_fresh_copies (le_refl 0) reached) ?_
  decide +kernel

/-- The reader looks at the first row between the two writes and keeps a copy of
the undo page with one record.  The record of the second row is the next one on
that page, and the reader does not find it in its copy. -/
theorem read_fails_between_writes : ∃ final : Embedded Nat,
    Reaches step oneWriter (created ofOneNode) final ∧ ¬final.ReadsSucceed := by
  have passed : (runGuarded step oneWriter (created ofOneNode : Embedded Nat)
      (twoRowsAndReader ++ putOf 3 (Key.ofNat 7) 11 ++ [.get 2 (Key.ofNat 7), .walk 2] ++
        putOf 3 (Key.ofNat 8) 21 ++ [.get 2 (Key.ofNat 8), .walk 2])).any
      (fun final => final.txns[2]?.map Txn.reading = some
        (.failed (Key.ofNat 8) (.io .invalidInput "undo slot out of range"))) = true := by
    decide +kernel
  rcases exists_reaches_of_decide passed with ⟨final, reached, observed⟩
  rcases map_eq_some_iff.mp observed with ⟨txn, present, failed⟩
  exact ⟨final, reached, fun safe => safe 2 txn present _ _ failed⟩

end Embedded
end Compute
end ScaleKv
