import ScaleKv.Compute.EmbeddedTxn

namespace ScaleKv
namespace Compute
namespace Embedded

open Foundation List Option Std OrderedMap

variable {Value : Type} {state next : Embedded Value} {id : TxnId} {key : Key} {value : Value}

/-!
# What the steps of the compute node do

One lemma for each step says in which states it is taken and what the next
state is.  Proofs about runs start from these lemmas and do not look into the
definitions of the steps.
-/

theorem beginTx_eq_some {readOnly : Bool} (taken : state.beginTx id readOnly = some next) :
    id ∉ state.used ∧ ∃ undo, state.undo.beginTx id = some undo ∧
      next = { state with
        undo := undo
        activeReads := state.activeReads.insert id state.sequencer.durableLsn
        txns := state.txns.insert id
          ⟨readOnly, state.sequencer.durableLsn, .active, .idle, ∅, ∅⟩
        used := id :: state.used } := by
  unfold beginTx at taken
  split at taken
  · cases taken
  · next fresh =>
    obtain ⟨undo, begun, result⟩ := bind_eq_some_iff.mp taken
    cases result
    exact ⟨fresh, undo, begun, rfl⟩

/-! ## Reading -/

/-- Where a `get` stands after a look at the row or at an undo record. -/
def Follows (key : Key) : Glance Value -> Reading Value -> Prop
  | .answer result, reading => reading = .answered key result
  | .undo ptr, reading => reading = .walking key ptr
  | .wait _, _ => False

theorem get_eq_some (taken : state.get id key = some next) :
    ∃ txn reading, state.txns[id]? = some txn ∧ txn.phase = .active ∧
      Follows key (lookAt (txn.undoTxnId id) txn.readLsn state.tree[key]?) reading ∧
      next = state.setTxn id { txn with reading := reading } := by
  obtain ⟨txn, present, rest⟩ := bind_eq_some_iff.mp taken
  split at rest
  · next active =>
    split at rest
    · next result looked =>
      cases rest
      exact ⟨txn, .answered key result, present, active, by rw [looked]; rfl, rfl⟩
    · next ptr looked =>
      cases rest
      exact ⟨txn, .walking key ptr, present, active, by rw [looked]; rfl, rfl⟩
    · cases rest
  · cases rest

/-- A step of a walk changes the reading of its transaction, and the undo log
only by a page that the transaction keeps for later reads. -/
theorem walk_eq_some (taken : state.walk id = some next) :
    ∃ txn walked, state.txns[id]? = some txn ∧
      ((∃ ptr, txn.reading = .walking walked ptr) ∧
      ∃ undo reading, next = { state with undo := undo }.setTxn id
          { txn with reading := reading } ∧
        ((txn.reading = .walking walked none ∧ undo = state.undo ∧
            reading = .answered walked none) ∨
          ∃ ptr, txn.reading = .walking walked (some ptr) ∧
            ((pageForRead state.undo id ptr.pageId = none ∧ undo = state.undo ∧
                reading = .failed walked (.inMemoryPageMissing ptr.pageId)) ∨
              ∃ page, pageForRead state.undo id ptr.pageId = some (page, undo) ∧
                ((∃ error, page.readRecord ptr.slotId = .error error ∧
                    reading = .failed walked error) ∨
                  ∃ record, page.readRecord ptr.slotId = .ok record ∧
                    Follows walked (lookAtRecord txn.readLsn record) reading)))) := by
  obtain ⟨txn, present, rest⟩ := bind_eq_some_iff.mp taken
  split at rest
  · next walked walking =>
    cases rest
    exact ⟨txn, walked, present, ⟨none, walking⟩, state.undo, _, rfl, .inl ⟨walking, rfl, rfl⟩⟩
  · next walked ptr walking =>
    refine ⟨txn, walked, present, ⟨some ptr, walking⟩, ?_⟩
    split at rest
    · next missing =>
      cases rest
      exact ⟨state.undo, _, rfl, .inr ⟨ptr, walking, .inl ⟨missing, rfl, rfl⟩⟩⟩
    · next page undo found =>
      split at rest
      · next error failed =>
        cases rest
        exact ⟨undo, _, rfl, .inr ⟨ptr, walking, .inr ⟨page, found, .inl ⟨error, failed, rfl⟩⟩⟩⟩
      · next record readOk =>
        split at rest
        · next _ looked =>
          cases rest
          exact ⟨undo, _, rfl, .inr ⟨ptr, walking, .inr ⟨page, found,
            .inr ⟨record, readOk, by rw [looked]; rfl⟩⟩⟩⟩
        · next _ looked =>
          cases rest
          exact ⟨undo, _, rfl, .inr ⟨ptr, walking, .inr ⟨page, found,
            .inr ⟨record, readOk, by rw [looked]; rfl⟩⟩⟩⟩
        · cases rest
  · cases rest

/-! ## Writing -/

variable {tombstone shipped : Bool} {pages : Nat}

/-- A write over the row `old` either is refused or goes on to its insert. -/
theorem write_eq_some (taken : state.write id key value tombstone = some next) :
    ∃ txn, state.txns[id]? = some txn ∧ txn.readOnly = false ∧ txn.phase = .active ∧
      ((∃ error, intentRow state.undo id txn.readLsn value tombstone state.tree[key]? =
            some (.error error) ∧
          next = state.setTxn id { txn with reading := .idle }) ∨
        ∃ row undo, intentRow state.undo id txn.readLsn value tombstone state.tree[key]? =
            some (.ok (row, undo)) ∧
          next = { state with undo := undo }.setTxn id
            { txn with phase := .inserting key row, reading := .idle }) := by
  obtain ⟨txn, present, rest⟩ := bind_eq_some_iff.mp taken
  split at rest
  · next writes active =>
    obtain ⟨_, decided, rest⟩ := bind_eq_some_iff.mp rest
    split at rest
    · next error =>
      cases rest
      exact ⟨txn, present, writes, active, .inl ⟨error, decided, rfl⟩⟩
    · next row undo =>
      cases rest
      exact ⟨txn, present, writes, active, .inr ⟨row, undo, decided, rfl⟩⟩
  · cases rest

/-- The row that a write inserts is an intent of the transaction that shows its
value; it is written over no intent of another transaction. -/
theorem intentRow_eq_ok {undo after : UndoLog Value} {base : Nat} {existing : Option (Row Value)}
    {row : Row Value}
    (decided : intentRow undo id base value tombstone existing = some (.ok (row, after))) :
    row.ownedBy id = true ∧ row.visible = (if tombstone then none else some value) ∧
      ((existing = none ∧ row.undoPtr = none ∧ row.intentLsn = base ∧ after = undo) ∨
        ∃ old, existing = some old ∧
          ((old.ownedBy id = true ∧ row.undoPtr = old.undoPtr ∧ row.intentLsn = old.intentLsn ∧
              after = undo) ∨
            (old.flags.intent = false ∧ row.intentLsn = base ∧ ∃ ptr, row.undoPtr = some ptr ∧
                undo.append id old.undoPtr old.commitLsn old.flags old.value =
                  some (.ok (ptr, after))))) := by
  cases existing with
  | none =>
    cases decided
    exact ⟨by simp [Row.ownedBy], rfl, .inl ⟨rfl, rfl, rfl, rfl⟩⟩
  | some old =>
    unfold intentRow at decided
    dsimp only at decided
    split at decided
    · next intent =>
      split at decided
      · next own =>
        cases decided
        exact ⟨by simp [Row.ownedBy], rfl,
          .inr ⟨old, rfl, .inl ⟨by simp [Row.ownedBy, intent, own], rfl, rfl, rfl⟩⟩⟩
      · cases decided
    · next version =>
      obtain ⟨_, appended, shape⟩ := map_eq_some_iff.mp decided
      split at shape
      · cases shape
      · next ptr _ =>
        cases shape
        exact ⟨by simp [Row.ownedBy], rfl,
          .inr ⟨old, rfl, .inr ⟨by simpa using version, rfl, ptr, rfl, appended⟩⟩⟩

theorem delete_eq_some (taken : state.delete id key = some next) :
    (∃ old, state.tree[key]? = some old ∧ state.write id key old.value true = some next) ∨
      (state.tree[key]? = none ∧ ∃ txn, state.txns[id]? = some txn ∧
        txn.readOnly = false ∧ txn.phase = .active ∧
        next = state.setTxn id
          { txn with reading := .idle, writes := txn.writes.insert key none }) := by
  unfold delete at taken
  split at taken
  · next old found => exact .inl ⟨old, found, taken⟩
  · next missing =>
    obtain ⟨txn, present, rest⟩ := bind_eq_some_iff.mp taken
    split at rest
    · next writes active =>
      cases rest
      exact .inr ⟨missing, txn, present, writes, active, rfl⟩
    · cases rest

theorem insert_eq_some (taken : state.insert id = some next) :
    ∃ txn written row, state.txns[id]? = some txn ∧ txn.phase = .inserting written row ∧
      next = { state with tree := state.tree.insert written row }.setTxn id
        { txn with
          phase := .active
          modified := txn.modified.insert written
          writes := txn.writes.insert written row.visible } := by
  obtain ⟨txn, present, rest⟩ := bind_eq_some_iff.mp taken
  split at rest
  · next written row inserting =>
    cases rest
    exact ⟨txn, written, row, present, inserting, rfl⟩
  · cases rest

/-! ## Commit -/

theorem closes_eq_some {after : Txn Value -> Txn Value} (taken : (do
      let txn <- state.txns[id]?
      match txn.readOnly, txn.phase with
      | true, .active => return state.endTxn id
      | false, .active => return state.setTxn id (after txn)
      | _, _ => none) = some next) :
    ∃ txn, state.txns[id]? = some txn ∧ txn.phase = .active ∧
      ((txn.readOnly = true ∧ next = state.endTxn id) ∨
        (txn.readOnly = false ∧ next = state.setTxn id (after txn))) := by
  obtain ⟨txn, present, rest⟩ := bind_eq_some_iff.mp taken
  split at rest
  · next reads active =>
    cases rest
    exact ⟨txn, present, active, .inl ⟨reads, rfl⟩⟩
  · next writes active =>
    cases rest
    exact ⟨txn, present, active, .inr ⟨writes, rfl⟩⟩
  · cases rest

theorem prestamp_eq_some (taken : state.prestamp id = some next) :
    ∃ txn first rest, state.txns[id]? = some txn ∧ txn.phase = .prestamping (first :: rest) ∧
      ((∃ row, state.tree[first]? = some row ∧ row.ownedBy id = true ∧
          next = { state with tree := state.tree.insert first { row with commitLsn := 1 } }.setTxn id
            { txn with phase := .prestamping rest }) ∨
        ((∀ row, state.tree[first]? = some row -> row.ownedBy id = false) ∧
          next = state.endTxn id)) := by
  obtain ⟨txn, present, outcome⟩ := bind_eq_some_iff.mp taken
  split at outcome
  · next first rest stamping =>
    refine ⟨txn, first, rest, present, stamping, ?_⟩
    split at outcome
    · next row found =>
      split at outcome
      · next own =>
        cases outcome
        exact .inl ⟨row, found, own, rfl⟩
      · next foreign =>
        cases outcome
        refine .inr ⟨?_, rfl⟩
        intro _ same
        rw [found] at same
        cases same
        simpa using foreign
    · next missing =>
      cases outcome
      refine .inr ⟨?_, rfl⟩
      intro _ same
      rw [missing] at same
      cases same
  · cases outcome

/-- A reservation fails for an empty or too large batch, or without a request id. -/
theorem reserve_eq_some (taken : state.reserve id pages = some next) :
    ∃ txn, state.txns[id]? = some txn ∧ txn.phase = .prestamping [] ∧
      (((pages = 0 ∨ Sequencer.maxWritesPerTxn < pages ∨ id = 0) ∧ next = state.endTxn id) ∨
        ∃ endLsn, 0 < pages ∧ endLsn = state.sequencer.nextLsn + pages ∧
          next = { state with sequencer := { state.sequencer with nextLsn := endLsn } }.setTxn id
            { txn with phase := .stamping state.sequencer.nextLsn endLsn txn.modified.toList }) := by
  obtain ⟨txn, present, outcome⟩ := bind_eq_some_iff.mp taken
  split at outcome
  · next stamping =>
    refine ⟨txn, present, stamping, ?_⟩
    rcases state.sequencer.reserveTxnWithRequestId_cases pages id with
      ⟨fails, _, reserved⟩ | ⟨positive, reserved⟩
    · rw [reserved] at outcome
      cases outcome
      exact .inl ⟨fails, rfl⟩
    · rw [reserved] at outcome
      cases outcome
      exact .inr ⟨_, positive, rfl, rfl⟩
  · cases outcome

theorem stamp_eq_some (taken : state.stamp id = some next) :
    ∃ txn startLsn endLsn first rest, state.txns[id]? = some txn ∧
      txn.phase = .stamping startLsn endLsn (first :: rest) ∧
      ((∃ row, state.tree[first]? = some row ∧ row.ownedBy id = true ∧
          next = { state with tree := state.tree.insert first (stampedRow row endLsn) }.setTxn id
            { txn with phase := .stamping startLsn endLsn rest }) ∨
        (∃ row, state.tree[first]? = some row ∧ row.ownedBy id = false ∧
          next = state.endTxn id) ∨
        (state.tree[first]? = none ∧
          next = state.setTxn id { txn with phase := .stamping startLsn endLsn rest })) := by
  obtain ⟨txn, present, outcome⟩ := bind_eq_some_iff.mp taken
  split at outcome
  · next startLsn endLsn first rest stamping =>
    refine ⟨txn, startLsn, endLsn, first, rest, present, stamping, ?_⟩
    split at outcome
    · next row found =>
      split at outcome
      · next own =>
        cases outcome
        exact .inl ⟨row, found, own, rfl⟩
      · next foreign =>
        cases outcome
        exact .inr (.inl ⟨row, found, by simpa using foreign, rfl⟩)
    · next missing =>
      cases outcome
      exact .inr (.inr ⟨missing, rfl⟩)
  · cases outcome

/-- A commit that ships its batch adds its versions; every other end of a
commit leaves the rows as they are. -/
theorem ship_eq_some (taken : state.ship id shipped = some next) :
    ∃ txn startLsn endLsn, state.txns[id]? = some txn ∧
      txn.phase = .stamping startLsn endLsn [] ∧
      (next = state.endTxn id ∨
        (shipped = true ∧ ∃ undo, state.undo.commit id startLsn endLsn = some (.ok undo) ∧
          next = state.publish id txn endLsn undo)) := by
  obtain ⟨txn, present, outcome⟩ := bind_eq_some_iff.mp taken
  split at outcome
  · next startLsn endLsn stamping =>
    refine ⟨txn, startLsn, endLsn, present, stamping, ?_⟩
    split at outcome
    · next isShipped =>
      obtain ⟨_, committed, outcome⟩ := bind_eq_some_iff.mp outcome
      split at outcome
      · cases outcome
        exact .inl rfl
      · next undo =>
        cases outcome
        exact .inr ⟨isShipped, undo, committed, rfl⟩
    · cases outcome
      exact .inl rfl
  · cases outcome

theorem lookup_addVersions (versions : TreeMap Key (List (Nat × Option Value))) (commitLsn : Nat)
    (writes : TreeMap Key (Option Value)) (key : Key) :
    (addVersions versions commitLsn writes)[key]?.getD [] =
      match writes[key]? with
      | some value => (commitLsn, value) :: versions[key]?.getD []
      | none => versions[key]?.getD [] := by
  unfold addVersions
  rw [@lookup_foldl _ _ _ _ _ _ (fun value found => some ((commitLsn, value) :: found.getD [])) _
    (toList_distinct writes) ?_, find_toList]
  · cases writes[key]? <;> rfl
  · intro current write key
    rw [lookup_insert]
    split
    · next same => rw [same]
    · rfl

/-! ## Abort -/

theorem resolve_eq_some {fuel : Nat} (taken : state.resolve id fuel = some next) :
    ∃ txn, state.txns[id]? = some txn ∧
      ((txn.phase = .resolving [] ∧ next = state.endTxn id) ∨
        ∃ first rest, txn.phase = .resolving (first :: rest) ∧
          (((∀ row, state.tree[first]? = some row -> row.ownedBy id = false) ∧
              next = state.setTxn id { txn with phase := .resolving rest }) ∨
            ∃ row, state.tree[first]? = some row ∧ row.ownedBy id = true ∧
              ((∃ error, restorePoint state.undo fuel row.undoPtr = some (.error error) ∧
                  next = state.endTxn id) ∨
                ∃ point, restorePoint state.undo fuel row.undoPtr = some (.ok point) ∧
                  next = { state with tree := restore state.tree first row point }.setTxn id
                    { txn with phase := .resolving rest }))) := by
  rcases bind_eq_some_iff.mp taken with ⟨txn, present, outcome⟩
  split at outcome
  · next first rest resolving =>
    refine ⟨txn, present, .inr ⟨first, rest, resolving, ?_⟩⟩
    split at outcome
    · next missing =>
      cases outcome
      refine .inl ⟨?_, rfl⟩
      intro row found
      rw [missing] at found
      cases found
    · next row found =>
      split at outcome
      · next owned =>
        refine .inr ⟨row, found, owned, ?_⟩
        rcases bind_eq_some_iff.mp outcome with ⟨_, walked, ended⟩
        split at ended
        · next error =>
          cases ended
          exact .inl ⟨error, walked, rfl⟩
        · next point =>
          cases ended
          exact .inr ⟨point, walked, rfl⟩
      · next foreign =>
        cases outcome
        refine .inl ⟨?_, rfl⟩
        intro _ same
        rw [found] at same
        cases same
        simpa using foreign
  · next resolving =>
    cases outcome
    exact ⟨txn, present, .inl ⟨resolving, rfl⟩⟩
  · cases outcome

/-! ## Garbage collection -/

/-- A `gc_once` starts with a transaction of its own and with changes to rows
that were committed up to its bound. -/
theorem gcOnce_eq_some {budgetPages : Nat} (taken : state.gcOnce id budgetPages = some next) :
    state.gc = none ∧ ∃ begun run, state.beginTx id false = some begun ∧
      next = { begun with gc := some run } ∧ run.txnId = id ∧ run.gcLsn = state.gcLsn ∧
      (∀ key ∈ run.removals, ∃ row, begun.tree[key]? = some row ∧
        collectable state.gcLsn row = true ∧ row.flags.tombstone = true) ∧
      ∀ entry ∈ run.updates, ∃ row, begun.tree[entry.1]? = some row ∧
        collectable state.gcLsn row = true ∧ row.flags.tombstone = false ∧
        entry.2 = { row with undoPtr := none } := by
  unfold gcOnce at taken
  split at taken
  · cases taken
  · next allowed =>
    rw [not_or, not_isSome_iff_eq_none] at allowed
    rcases bind_eq_some_iff.mp taken with ⟨begun, started, result⟩
    cases result
    refine ⟨allowed.2, begun, _, started, rfl, rfl, rfl, ?_, ?_⟩
    · intro key member
      rcases mem_map.mp member with ⟨entry, inside, rfl⟩
      rcases mem_filter.mp inside with ⟨old, tombstone⟩
      rcases mem_filter.mp old with ⟨scanned, isCollectable⟩
      have stored := TreeMap.mem_toList_iff_getElem?_eq_some.mp (mem_of_mem_take scanned)
      exact ⟨entry.2, stored, isCollectable, tombstone⟩
    · intro entry member
      rcases mem_map.mp member with ⟨source, inside, rfl⟩
      rcases mem_filter.mp inside with ⟨old, live⟩
      rcases mem_filter.mp old with ⟨scanned, isCollectable⟩
      have stored := TreeMap.mem_toList_iff_getElem?_eq_some.mp (mem_of_mem_take scanned)
      rw [Bool.and_eq_true, Bool.not_eq_true'] at live
      exact ⟨source.2, stored, isCollectable, live.1, rfl⟩

theorem gcApply_eq_some (taken : state.gcApply = some next) :
    ∃ run, state.gc = some run ∧
      ((∃ first rest, run.removals = first :: rest ∧ next = { state with
            tree := state.tree.erase first
            gc := some { run with removals := rest } }) ∨
        ∃ first rest, run.removals = [] ∧ run.updates = first :: rest ∧
          next = { state with
            tree := state.tree.insert first.1 first.2
            gc := some { run with updates := rest } }) := by
  rcases bind_eq_some_iff.mp taken with ⟨run, running, outcome⟩
  refine ⟨run, running, ?_⟩
  split at outcome
  · next first rest removals =>
    cases outcome
    exact .inl ⟨first, rest, removals, rfl⟩
  · next key row rest removals updates =>
    cases outcome
    exact .inr ⟨(key, row), rest, removals, updates, rfl⟩
  · cases outcome

/-- The LSNs after a batch whose reservation and shipping may fail. -/
def Moved (before after : Sequencer) : Prop :=
  before.nextLsn ≤ after.nextLsn ∧ before.durableLsn ≤ after.durableLsn ∧
    (after.durableLsn = before.durableLsn ∨ after.durableLsn ≤ after.nextLsn)

theorem moved_refl (sequencer : Sequencer) : Moved sequencer sequencer :=
  ⟨le_rfl, le_rfl, .inl rfl⟩

theorem moved_setDurable (sequencer : Sequencer) (pages : Nat) :
    Moved sequencer (setDurable { sequencer with nextLsn := sequencer.nextLsn + pages }
      (sequencer.nextLsn + pages)) := by
  refine ⟨Nat.le_add_right _ _, le_max_left _ _, ?_⟩
  rcases le_total sequencer.durableLsn (sequencer.nextLsn + pages) with below | above
  · exact .inr (max_eq_right below).le
  · exact .inl (max_eq_left above)

theorem gcCommit_eq_some (taken : state.gcCommit pages shipped = some next) :
    ∃ run sequencer gc, state.gc = some run ∧ Moved state.sequencer sequencer ∧
      (gc = none ∨ gc = some run) ∧
      next = { state.endTxn run.txnId with sequencer := sequencer, gc := gc } := by
  rcases bind_eq_some_iff.mp taken with ⟨run, running, outcome⟩
  split at outcome
  · dsimp only at outcome
    split at outcome
    · rcases state.sequencer.reserveTxnWithRequestId_cases pages run.txnId with
        ⟨_, _, reserved⟩ | ⟨_, reserved⟩
      · rw [reserved] at outcome
        cases outcome
        exact ⟨run, _, none, running, moved_refl _, .inl rfl, rfl⟩
      · rw [reserved] at outcome
        dsimp only at outcome
        split at outcome
        · cases outcome
          exact ⟨run, _, some run, running, moved_setDurable _ pages, .inr rfl, by rw [← running]; rfl⟩
        · cases outcome
          refine ⟨run, _, none, running, ?_, .inl rfl, rfl⟩
          exact ⟨Nat.le_add_right _ _, le_rfl, .inl rfl⟩
    · cases outcome
      exact ⟨run, _, some run, running, moved_refl _, .inr rfl, by rw [← running]; rfl⟩
  · cases outcome

theorem gcPurge_eq_some (taken : state.gcPurge pages shipped = some next) :
    ∃ run sequencer undo, state.gc = some run ∧ state.txns[run.txnId]? = none ∧
      Moved state.sequencer sequencer ∧
      (undo = state.undo ∨ state.undo.purge run.gcLsn = some (.ok undo)) ∧
      next = { state with undo := undo, sequencer := sequencer, gc := none } := by
  rcases bind_eq_some_iff.mp taken with ⟨run, running, outcome⟩
  split at outcome
  · cases outcome
  · next ended =>
    rcases bind_eq_some_iff.mp outcome with ⟨_, purged, finished⟩
    split at finished
    · cases finished
      exact ⟨run, _, _, running, ended, moved_refl _, .inl rfl, rfl⟩
    · next undo =>
      split at finished
      · cases finished
        exact ⟨run, _, _, running, ended, moved_refl _, .inl rfl, rfl⟩
      · dsimp only [Sequencer.allocateRequestId] at finished
        rcases Sequencer.reserveTxnWithRequestId_cases
            { state.sequencer with requestId := (state.sequencer.requestId + 1) % 2 ^ 64 } pages
            state.sequencer.requestId with ⟨_, _, reserved⟩ | ⟨_, reserved⟩
        · rw [reserved] at finished
          cases finished
          refine ⟨run, _, _, running, ended, ?_, .inl rfl, rfl⟩
          exact ⟨le_rfl, le_rfl, .inl rfl⟩
        · rw [reserved] at finished
          dsimp only at finished
          split at finished
          · cases finished
            refine ⟨run, _, undo, running, ended, ?_, .inr purged, rfl⟩
            exact moved_setDurable state.sequencer pages
          · cases finished
            refine ⟨run, _, _, running, ended, ?_, .inl rfl, rfl⟩
            exact ⟨Nat.le_add_right _ _, le_rfl, .inl rfl⟩

/-! ## All steps -/

/-- What a step does to the undo log and to the transactions. -/
inductive Effect (state next : Embedded Value) : Action Value -> Prop
  | begins {action} {id : TxnId} {after}
      (undo : state.undo.beginTx id = some next.undo)
      (txns : next.txns = state.txns.insert id after) (idle : after.reading = .idle) :
      Effect state next action
  | looks {action} {id : TxnId} {after} {key : Key} {glance}
      (undo : next.undo = state.undo) (txns : next.txns = state.txns.insert id after)
      (follows : Follows key glance after.reading) : Effect state next action
  | walks {id : TxnId} (walk : state.walk id = some next) : Effect state next (.walk id)
  | appends {action} {id : TxnId} {after} {old : Row Value} {ptr}
      (undo : state.undo.append id old.undoPtr old.commitLsn old.flags old.value =
        some (.ok (ptr, next.undo)))
      (txns : next.txns = state.txns.insert id after) (idle : after.reading = .idle) :
      Effect state next action
  | sets {action} {id : TxnId} {txn after}
      (undo : next.undo = state.undo) (txns : next.txns = state.txns.insert id after)
      (present : state.txns[id]? = some txn)
      (reading : after.reading = .idle ∨ after.reading = txn.reading) : Effect state next action
  | ends {action} {id : TxnId} (undo : next.undo = state.undo.drop id)
      (txns : next.txns = state.txns.erase id) : Effect state next action
  | ships {action} {id : TxnId} {startLsn endLsn}
      (undo : state.undo.commit id startLsn endLsn = some (.ok next.undo))
      (txns : next.txns = state.txns.erase id) : Effect state next action
  | keeps {action gcLsn}
      (undo : next.undo = state.undo ∨ state.undo.purge gcLsn = some (.ok next.undo))
      (txns : next.txns = state.txns) : Effect state next action

/-- No step takes the durable LSN back. -/
theorem effect_of_step {action : Action Value} (taken : step state action = some next) :
    state.sequencer.durableLsn ≤ next.sequencer.durableLsn ∧ Effect state next action := by
  have written : ∀ {id : TxnId} {key : Key} {value : Value} {tombstone : Bool},
      state.write id key value tombstone = some next ->
        state.sequencer.durableLsn ≤ next.sequencer.durableLsn ∧ Effect state next action := by
    intro id key value tombstone write
    rcases write_eq_some write with ⟨_, present, _, _, ⟨_, _, rfl⟩ | ⟨_, _, decided, rfl⟩⟩
    · exact ⟨le_rfl, .sets rfl rfl present (.inl rfl)⟩
    · rcases intentRow_eq_ok decided with
        ⟨_, _, ⟨_, _, _, rfl⟩ | ⟨_, _, ⟨_, _, _, rfl⟩ | ⟨_, _, _, _, appended⟩⟩⟩
      · exact ⟨le_rfl, .sets rfl rfl present (.inl rfl)⟩
      · exact ⟨le_rfl, .sets rfl rfl present (.inl rfl)⟩
      · exact ⟨le_rfl, .appends appended rfl rfl⟩
  cases action with
  | begin =>
    rcases beginTx_eq_some taken with ⟨_, _, begun, rfl⟩
    exact ⟨le_rfl, .begins begun rfl rfl⟩
  | get =>
    rcases get_eq_some taken with ⟨_, _, _, _, follows, rfl⟩
    exact ⟨le_rfl, .looks rfl rfl follows⟩
  | walk =>
    rcases walk_eq_some taken with ⟨_, _, _, _, _, _, rfl, _⟩
    exact ⟨le_rfl, .walks taken⟩
  | put => exact written taken
  | delete =>
    rcases delete_eq_some taken with ⟨_, _, write⟩ | ⟨_, _, present, _, _, rfl⟩
    · exact written write
    · exact ⟨le_rfl, .sets rfl rfl present (.inl rfl)⟩
  | insert =>
    rcases insert_eq_some taken with ⟨_, _, _, present, _, rfl⟩
    exact ⟨le_rfl, .sets rfl rfl present (.inr rfl)⟩
  | commit =>
    rcases closes_eq_some taken with ⟨_, present, _, ⟨_, rfl⟩ | ⟨_, rfl⟩⟩
    · exact ⟨le_rfl, .ends rfl rfl⟩
    · exact ⟨le_rfl, .sets rfl rfl present (.inl rfl)⟩
  | prestamp =>
    rcases prestamp_eq_some taken with ⟨_, _, _, present, _, ⟨_, _, _, rfl⟩ | ⟨_, rfl⟩⟩
    · exact ⟨le_rfl, .sets rfl rfl present (.inr rfl)⟩
    · exact ⟨le_rfl, .ends rfl rfl⟩
  | reserve =>
    rcases reserve_eq_some taken with ⟨_, present, _, ⟨_, rfl⟩ | ⟨_, _, _, rfl⟩⟩
    · exact ⟨le_rfl, .ends rfl rfl⟩
    · exact ⟨le_rfl, .sets rfl rfl present (.inr rfl)⟩
  | stamp =>
    rcases stamp_eq_some taken with ⟨_, _, _, _, _, present, _,
      ⟨_, _, _, rfl⟩ | ⟨_, _, _, rfl⟩ | ⟨_, rfl⟩⟩
    · exact ⟨le_rfl, .sets rfl rfl present (.inr rfl)⟩
    · exact ⟨le_rfl, .ends rfl rfl⟩
    · exact ⟨le_rfl, .sets rfl rfl present (.inr rfl)⟩
  | ship =>
    rcases ship_eq_some taken with ⟨_, _, _, _, _, rfl | ⟨_, _, committed, rfl⟩⟩
    · exact ⟨le_rfl, .ends rfl rfl⟩
    · exact ⟨le_max_left _ _, .ships committed rfl⟩
  | abort =>
    rcases closes_eq_some taken with ⟨_, present, _, ⟨_, rfl⟩ | ⟨_, rfl⟩⟩
    · exact ⟨le_rfl, .ends rfl rfl⟩
    · exact ⟨le_rfl, .sets rfl rfl present (.inl rfl)⟩
  | resolve =>
    rcases resolve_eq_some taken with ⟨_, present, ⟨_, rfl⟩ | ⟨_, _, _,
      ⟨_, rfl⟩ | ⟨_, _, _, ⟨_, _, rfl⟩ | ⟨_, _, rfl⟩⟩⟩⟩
    · exact ⟨le_rfl, .ends rfl rfl⟩
    · exact ⟨le_rfl, .sets rfl rfl present (.inr rfl)⟩
    · exact ⟨le_rfl, .ends rfl rfl⟩
    · exact ⟨le_rfl, .sets rfl rfl present (.inr rfl)⟩
  | gcOnce =>
    rcases gcOnce_eq_some taken with ⟨_, begun, _, started, rfl, _⟩
    rcases beginTx_eq_some started with ⟨_, _, begun, rfl⟩
    exact ⟨le_rfl, .begins begun rfl rfl⟩
  | gcApply =>
    rcases gcApply_eq_some taken with ⟨_, _, ⟨_, _, _, rfl⟩ | ⟨_, _, _, _, rfl⟩⟩
    · exact ⟨le_rfl, @Effect.keeps _ _ _ _ 0 (.inl rfl) rfl⟩
    · exact ⟨le_rfl, @Effect.keeps _ _ _ _ 0 (.inl rfl) rfl⟩
  | gcCommit =>
    rcases gcCommit_eq_some taken with ⟨_, _, _, _, moved, _, rfl⟩
    exact ⟨moved.2.1, .ends rfl rfl⟩
  | gcPurge =>
    rcases gcPurge_eq_some taken with ⟨_, _, _, _, _, moved, purged, rfl⟩
    exact ⟨moved.2.1, .keeps purged rfl⟩

end Embedded
end Compute
end ScaleKv
