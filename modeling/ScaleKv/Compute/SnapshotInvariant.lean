import ScaleKv.Compute.EmbeddedSteps
import ScaleKv.Compute.UndoChains

namespace ScaleKv
namespace Compute

open Foundation OrderedMap Option

/-!
# What snapshot reads rest on

The invariant of runs with one writer at a time.  A key is quiet, and then its
row is the newest version of its history, or it is taken by the writer, and then
the undo pointer of the row leads back to that history.  The horizon is the
largest bound that garbage collection has used; every snapshot is at or above it.

The parts of the invariant are kept apart by what they look at: the undo log,
the LSNs, the transactions, the rows and the reads in progress.
-/

section Keys

variable {Value : Type}

/-- The row of the key is still an intent of the transaction. -/
def Txn.pending (txn : Txn Value) (key : Key) : Prop :=
  match txn.phase with
  | .stamping _ _ rest => key ∈ rest
  | .resolving rest => key ∈ rest
  | _ => key ∈ txn.modified

/-- The commit of the transaction has stamped the row of the key. -/
def Txn.stamped (txn : Txn Value) (key : Key) (endLsn : Nat) : Prop :=
  key ∈ txn.modified ∧ ∃ startLsn rest, txn.phase = .stamping startLsn endLsn rest ∧ key ∉ rest

/-- The transaction has written the key and not given it back. -/
def Txn.takes (txn : Txn Value) (key : Key) : Prop :=
  txn.pending key ∨ ∃ endLsn, txn.stamped key endLsn

/-- The transaction is on its way to a commit, as far as we know. -/
def Txn.keeps (txn : Txn Value) : Prop := ∀ rest, txn.phase ≠ .resolving rest

end Keys

namespace Embedded

variable {Value : Type}

/-- The committed versions of a key. -/
def history (state : Embedded Value) (key : Key) : List (Nat × Option Value) :=
  state.versions[key]?.getD []

/-! ## The parts of the invariant -/

/-- The undo log and the transactions. -/
structure LogOk (state : Embedded Value) (owner : PageId -> Owner) : Prop where
  undo : state.undo.Inv owner
  synced : ∀ id : TxnId, state.txns[id]? = none <-> state.undo.txns[id]? = none
  registered : ∀ (id : TxnId) (txn : Txn Value), state.txns[id]? = some txn ->
    state.activeReads[id]? = some txn.readLsn
  metaCurrent : ∀ (id : TxnId) (own : TxnUndo Value) metaPage, state.undo.txns[id]? = some own ->
    own.dirtyMeta = some metaPage -> metaPage = state.undo.store.metaPage ∧
      ∃ txn, state.txns[id]? = some txn ∧ txn.readOnly = false
  roCaches : ∀ (id : TxnId) (own : TxnUndo Value) (txn : Txn Value) (page : PageId)
    (image : UndoPage Value), state.undo.txns[id]? = some own -> state.txns[id]? = some txn ->
    own.roCache[page]? = some image -> state.undo.Safe owner txn.readLsn page ∧
      ∀ slot record, image.records[slot]? = some record ->
        state.undo.recordAt ⟨page, slot⟩ = some record

structure LsnOk (state : Embedded Value) (horizon : Nat) : Prop where
  settled : horizon ≤ state.sequencer.durableLsn
  durable : state.sequencer.durableLsn ≤ state.sequencer.nextLsn
  snapshots : ∀ (id : TxnId) (readLsn : Nat), state.activeReads[id]? = some readLsn ->
    readLsn ≤ state.sequencer.durableLsn
  reads : ∀ (id : TxnId) (txn : Txn Value), state.txns[id]? = some txn ->
    horizon ≤ txn.readLsn ∧ txn.readLsn ≤ state.sequencer.durableLsn
  stamping : ∀ (id : TxnId) (txn : Txn Value) startLsn endLsn rest,
    state.txns[id]? = some txn -> txn.phase = .stamping startLsn endLsn rest ->
    state.sequencer.durableLsn < endLsn ∧ endLsn ≤ state.sequencer.nextLsn
  versions : ∀ key, Descending (state.history key) ∧
    ∀ version ∈ state.history key, version.1 ≤ state.sequencer.durableLsn

/-- The keys that a phase still has to visit were modified. -/
def PhaseOk (txn : Txn Value) : Prop :=
  match txn.phase with
  | .prestamping rest => ∀ key ∈ rest, key ∈ txn.modified
  | .stamping _ _ rest => rest.Nodup ∧ ∀ key ∈ rest, key ∈ txn.modified
  | .resolving rest => rest.Nodup ∧ ∀ key ∈ rest, key ∈ txn.modified
  | _ => True

/-- The transactions: one writer, and readers that have written nothing. -/
structure TxnsOk (state : Embedded Value) : Prop where
  single : ∀ (first second : TxnId) (writer other : Txn Value),
    state.txns[first]? = some writer -> state.txns[second]? = some other ->
    writer.readOnly = false -> other.readOnly = false -> first = second
  readers : ∀ (id : TxnId) (txn : Txn Value), state.txns[id]? = some txn ->
    txn.readOnly = true -> txn.phase = .active ∧ (∀ key, key ∉ txn.modified) ∧
      ∀ key : Key, txn.writes[key]? = none
  idle : ∀ (id : TxnId) (txn : Txn Value), state.txns[id]? = some txn ->
    txn.phase = .active ∨ txn.reading = .idle
  phases : ∀ (id : TxnId) (txn : Txn Value), state.txns[id]? = some txn -> PhaseOk txn

/-- The row of a key that no transaction has written. -/
def VersionOk (state : Embedded Value) (owner : PageId -> Owner) (horizon : Nat) (key : Key) : Prop :=
  (state.tree[key]? = none ∧
      ∀ readLsn, horizon ≤ readLsn -> visibleAt (state.history key) readLsn = none) ∨
    ∃ row older, state.tree[key]? = some row ∧ row.flags.intent = false ∧ 0 < row.commitLsn ∧
      state.history key = (row.commitLsn, row.visible) :: older ∧
      state.undo.Behind owner horizon row.undoPtr row.commitLsn older

/-- No transaction has written the key. -/
structure Quiet (state : Embedded Value) (owner : PageId -> Owner) (horizon : Nat) (key : Key) :
    Prop where
  free : ∀ (id : TxnId) (txn : Txn Value), state.txns[id]? = some txn -> ¬txn.takes key
  version : VersionOk state owner horizon key

/-- The transaction has written the key. -/
structure Taken (state : Embedded Value) (owner : PageId -> Owner) (horizon : Nat) (key : Key)
    (id : TxnId) (txn : Txn Value) (row : Row Value) : Prop where
  present : state.txns[id]? = some txn
  stored : state.tree[key]? = some row
  leads : state.undo.Leads owner horizon id (state.history key) row.undoPtr
  place : (txn.pending key ∧ row.ownedBy id = true ∧ row.intentLsn = txn.readLsn) ∨
    ∃ endLsn, txn.stamped key endLsn ∧ row.flags.intent = false ∧ row.commitLsn = endLsn
  shows : txn.keeps -> txn.writes[key]? = some row.visible

structure RowsOk (state : Embedded Value) (owner : PageId -> Owner) (horizon : Nat) : Prop where
  rows : ∀ key, state.Quiet owner horizon key ∨
    ∃ id txn row, state.Taken owner horizon key id txn row
  written : ∀ (id : TxnId) (txn : Txn Value) (key : Key) value, state.txns[id]? = some txn ->
    txn.keeps -> txn.writes[key]? = some value ->
    (state.tree[key]? = none ∧ value = none) ∨ txn.takes key
  inserting : ∀ (id : TxnId) (txn : Txn Value) key row, state.txns[id]? = some txn ->
    txn.phase = .inserting key row -> row.ownedBy id = true ∧ row.intentLsn = txn.readLsn ∧
      state.undo.Leads owner horizon id (state.history key) row.undoPtr

/-- The answer that a read of the key should get. -/
def expected (state : Embedded Value) (txn : Txn Value) (key : Key) : Option Value :=
  match txn.writes[key]? with
  | some value => value
  | none => visibleAt (state.history key) txn.readLsn

def ReadingOk (state : Embedded Value) (owner : PageId -> Owner) (horizon : Nat) (txn : Txn Value) :
    Prop :=
  match txn.reading with
  | .answered key result => result = state.expected txn key
  | .walking key ptr => txn.writes[key]? = none ∧
      state.undo.Walks owner horizon txn.readLsn (state.history key) ptr
  | _ => True

def ReadingsOk (state : Embedded Value) (owner : PageId -> Owner) (horizon : Nat) : Prop :=
  ∀ (id : TxnId) (txn : Txn Value), state.txns[id]? = some txn ->
    ReadingOk state owner horizon txn

/-- A collection in progress has nothing to change but settled versions. -/
structure GcOk (state : Embedded Value) (horizon : Nat) : Prop where
  bound : ∀ run, state.gc = some run -> run.gcLsn ≤ horizon
  alone : ∀ run, state.gc = some run -> ∀ (id : TxnId) (txn : Txn Value),
    state.txns[id]? = some txn -> txn.readOnly = false -> id = run.txnId ∧ txn.phase = .active ∧
      (∀ key, key ∉ txn.modified) ∧ ∀ key : Key, txn.writes[key]? = none
  removals : ∀ run, state.gc = some run -> ∀ key ∈ run.removals,
    ∀ row, state.tree[key]? = some row -> row.flags.intent = false ∧
      row.commitLsn ≤ horizon ∧ row.flags.tombstone = true
  updates : ∀ run, state.gc = some run -> ∀ entry ∈ run.updates,
    ∃ row, state.tree[entry.1]? = some row ∧ row.flags.intent = false ∧
      row.commitLsn ≤ horizon ∧ row.flags.tombstone = false ∧ entry.2 = { row with undoPtr := none }

structure Coherent (state : Embedded Value) (owner : PageId -> Owner) (horizon : Nat) : Prop where
  log : LogOk state owner
  lsn : LsnOk state horizon
  txns : TxnsOk state
  rows : RowsOk state owner horizon
  readings : ReadingsOk state owner horizon
  gc : GcOk state horizon

/-! ## Consequences -/

section

variable {state : Embedded Value} {owner : PageId -> Owner} {horizon : Nat} {id : TxnId}
  {txn : Txn Value} {key : Key} {phase : Phase Value} {row : Row Value}

theorem pending_of_active (active : txn.phase = .active) : txn.pending key <-> key ∈ txn.modified := by
  unfold Txn.pending
  rw [active]

theorem not_stamped (phase : Phase Value) (current : txn.phase = phase)
    (unstamped : ∀ startLsn endLsn rest, phase ≠ .stamping startLsn endLsn rest) (endLsn : Nat) :
    ¬txn.stamped key endLsn := by
  rintro ⟨_, startLsn, rest, stamping, _⟩
  exact unstamped startLsn endLsn rest (current.symm.trans stamping)

theorem keeps_of_phase (current : txn.phase = phase)
    (kept : ∀ rest, phase ≠ .resolving rest) : txn.keeps :=
  fun rest resolving => kept rest (current.symm.trans resolving)

theorem not_takes_of_unmodified (active : txn.phase = .active)
    (nothing : ∀ key, key ∉ txn.modified) : ¬txn.takes key := by
  rintro (pending | ⟨endLsn, stamped⟩)
  · exact nothing key ((pending_of_active active).mp pending)
  · exact not_stamped _ active nofun endLsn stamped

/-- The transaction has written nothing. -/
def Unwritten (txn : Txn Value) : Prop :=
  txn.phase = .active ∧ (∀ key, key ∉ txn.modified) ∧ ∀ key : Key, txn.writes[key]? = none

theorem Unwritten.not_takes (unwritten : Unwritten txn) : ¬txn.takes key :=
  not_takes_of_unmodified unwritten.1 unwritten.2.1

theorem Taken.takes (taken : state.Taken owner horizon key id txn row) :
    txn.takes key := by
  rcases taken.place with ⟨pending, _⟩ | ⟨endLsn, stamped, _⟩
  · exact .inl pending
  · exact .inr ⟨endLsn, stamped⟩

theorem TxnsOk.writer_of_takes (txns : TxnsOk state) (present : state.txns[id]? = some txn)
    (takes : txn.takes key) : txn.readOnly = false := by
  cases reads : txn.readOnly with
  | false => rfl
  | true =>
    rcases txns.readers id txn present reads with ⟨active, nothing, _⟩
    exact absurd takes (not_takes_of_unmodified active nothing)

/-- Beside the transaction that takes a key there are only readers. -/
theorem TxnsOk.reader_of_ne {other : TxnId} {writer : Txn Value} (txns : TxnsOk state)
    (present : state.txns[id]? = some txn) (found : state.txns[other]? = some writer)
    (takes : writer.takes key) (different : id ≠ other) : txn.readOnly = true := by
  cases reads : txn.readOnly with
  | true => rfl
  | false =>
    exact absurd (txns.single id other txn writer present found reads
      (txns.writer_of_takes found takes)) different

theorem RowsOk.quiet_of_free (rows : RowsOk state owner horizon)
    (free : ∀ (id : TxnId) txn, state.txns[id]? = some txn -> ¬txn.takes key) :
    state.Quiet owner horizon key := by
  rcases rows.rows key with quiet | ⟨id, txn, _, taken⟩
  · exact quiet
  · exact absurd taken.takes (free id txn taken.present)

section

variable (inv : Coherent state owner horizon)

include inv

theorem Coherent.unwritten {run : GcRun Value}
    (running : state.gc = some run) (present : state.txns[id]? = some txn) : Unwritten txn := by
  cases reads : txn.readOnly with
  | true => exact inv.txns.readers id txn present reads
  | false => exact (inv.gc.alone run running id txn present reads).2

/-- A transaction outside its active phase is the writer; it reads nothing, and no
collection is in progress.  Its phase says which keys are pending. -/
theorem Coherent.busy
    (present : state.txns[id]? = some txn) (current : txn.phase = phase) (busy : phase.isActive = false) :
    txn.readOnly = false ∧ txn.reading = .idle ∧ state.gc = none ∧ PhaseOk { txn with phase := phase } ∧
      ∀ key, txn.pending key <-> Txn.pending { txn with phase := phase } key := by
  have notActive : txn.phase ≠ .active := by
    intro active
    rw [← current, active] at busy
    cases busy
  subst current
  refine ⟨?_, (inv.txns.idle id txn present).resolve_left notActive, ?_, inv.txns.phases id txn present,
    fun _ => Iff.rfl⟩
  · cases reads : txn.readOnly with
    | false => rfl
    | true => exact absurd (inv.txns.readers id txn present reads).1 notActive
  · cases running : state.gc with
    | none => rfl
    | some => exact absurd (inv.unwritten running present).1 notActive

theorem Coherent.taken_of_takes (present : state.txns[id]? = some txn) (takes : txn.takes key) :
    ∃ row, state.Taken owner horizon key id txn row := by
  rcases inv.rows.rows key with quiet | ⟨other, writer, row, taken⟩
  · exact absurd takes (quiet.free id txn present)
  · have same : other = id := inv.txns.single other id writer txn taken.present present
      (inv.txns.writer_of_takes taken.present taken.takes) (inv.txns.writer_of_takes present takes)
    subst same
    have sameTxn : writer = txn := some_inj.mp (taken.present.symm.trans present)
    subst sameTxn
    exact ⟨row, taken⟩

omit inv in
theorem Taken.owned (taken : state.Taken owner horizon key id txn row)
    (pending : txn.pending key) : row.ownedBy id = true ∧ row.intentLsn = txn.readLsn := by
  rcases taken.place with ⟨_, owned, lsn⟩ | ⟨_, ⟨_, _, _, phase, notRest⟩, _⟩
  · exact ⟨owned, lsn⟩
  · unfold Txn.pending at pending
    rw [phase] at pending
    exact absurd pending notRest

/-- A read that no write of its own answers, at any row but a foreign intent that
it has to wait for. -/
theorem Coherent.glance (present : state.txns[id]? = some txn)
    (active : txn.phase = .active) {reading : Reading Value}
    (follows : Follows key (lookAt (txn.undoTxnId id) txn.readLsn state.tree[key]?) reading) :
    ReadingOk state owner horizon { txn with reading := reading } := by
  have above := (inv.lsn.reads id txn present).1
  have below := (inv.lsn.reads id txn present).2
  have keeps : txn.keeps := keeps_of_phase active nofun
  rcases inv.rows.rows key with quiet | ⟨other, writer, row, taken⟩
  · -- no transaction has written the key
    have own : txn.writes[key]? = none ∨ txn.writes[key]? = some none ∧ state.tree[key]? = none := by
      cases written : txn.writes[key]? with
      | none => exact .inl rfl
      | some value =>
        rcases inv.rows.written id txn key value present keeps written with ⟨missing, rfl⟩ | takes
        · exact .inr ⟨rfl, missing⟩
        · exact absurd takes (quiet.free id txn present)
    rcases quiet.version with ⟨missing, empty⟩ | ⟨row, _, stored, version, _, shape, behind⟩
    · rw [missing] at follows
      cases follows
      show none = state.expected txn key
      unfold expected
      rcases own with unwritten | ⟨deleted, _⟩
      · rw [unwritten]
        exact (empty txn.readLsn above).symm
      · rw [deleted]
    · have unwritten : txn.writes[key]? = none := by
        rcases own with unwritten | ⟨_, missing⟩
        · exact unwritten
        · rw [missing] at stored
          cases stored
      rw [stored] at follows
      unfold lookAt at follows
      dsimp only at follows
      rw [version, if_neg Bool.false_ne_true] at follows
      by_cases covered : row.commitLsn ≤ txn.readLsn
      · rw [if_pos covered] at follows
        cases follows
        show row.visible = state.expected txn key
        unfold expected
        rw [unwritten, shape]
        exact (visibleAt_cons_of_le covered _ _).symm
      · rw [if_neg covered] at follows
        cases follows
        have newer := Nat.lt_of_not_le covered
        refine ⟨unwritten, ?_⟩
        have walks := behind.walks inv.log.undo above newer
        apply walks.keeps inv.log.undo le_rfl above below
        · rw [shape]
          exact visibleAt_cons_of_lt newer _ _
        · exact UndoLog.Keeps.of_same rfl rfl
  · -- the writer has written the key
    rw [taken.stored] at follows
    unfold lookAt at follows
    dsimp only at follows
    have sameOf : id = other -> writer = txn := by
      rintro rfl
      exact some_inj.mp (taken.present.symm.trans present)
    have foreign : id ≠ other -> ReadingOk state owner horizon
        { txn with reading := .walking key row.undoPtr } := by
      intro different
      have reads := inv.txns.reader_of_ne present taken.present taken.takes different
      exact ⟨(inv.txns.readers id txn present reads).2.2 key, taken.leads.walks inv.log.undo above⟩
    rcases taken.place with ⟨_, owned, lsn⟩ | ⟨endLsn, stamped, version, stamp⟩
    · rcases (Row.ownedBy_iff _ _).mp owned with ⟨intent, isOwner⟩
      rw [intent, if_pos rfl] at follows
      by_cases mine : txn.undoTxnId id = some row.intentTxnId
      · rw [if_pos mine] at follows
        cases follows
        have same : id = other := by
          unfold Txn.undoTxnId at mine
          split at mine
          · cases mine
          · exact (some_inj.mp mine).trans isOwner
        cases sameOf same
        show row.visible = state.expected txn key
        unfold expected
        rw [taken.shows keeps]
      · rw [if_neg mine] at follows
        split at follows
        · cases follows
          apply foreign
          intro same
          cases sameOf same
          apply mine
          unfold Txn.undoTxnId
          rw [inv.txns.writer_of_takes taken.present taken.takes, isOwner, same]
          rfl
        · cases follows
    · rw [version, if_neg Bool.false_ne_true] at follows
      rcases stamped with ⟨_, startLsn, rest, phase, _⟩
      have newer : txn.readLsn < row.commitLsn := by
        rw [stamp]
        exact below.trans_lt (inv.lsn.stamping other writer startLsn endLsn rest taken.present phase).1
      rw [if_neg newer.not_ge] at follows
      cases follows
      apply foreign
      intro same
      cases sameOf same
      rw [active] at phase
      cases phase

end

end

end Embedded

end Compute
end ScaleKv
