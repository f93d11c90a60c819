import ScaleKv.Compute.Sequencer
import ScaleKv.Compute.UndoLog
import Mathlib.Data.List.MinMax

namespace ScaleKv
namespace Compute

open Foundation Std

/-!
# Transactions of the embedded compute node

The rows of the primary tree carry their version: the LSN of the commit that
wrote them, the undo record of the version before, and, while the transaction
that writes them is in progress, its intent.  A commit turns the intents of its
transaction into versions row by row, ships its pages and only then becomes
durable.  A reader that meets a version newer than its snapshot walks the undo
records.

The primary tree is taken as a finite map here.  A step is what a call does
between two points at which other tasks may run: one tree operation, the visit
of one undo record, one shipped batch.  How many pages a batch has is left to
the action.
-/

/-- `LeafValue`. -/
structure Row (Value : Type) where
  value : Value
  commitLsn : Nat
  undoPtr : Option UndoPtr
  flags : Flags
  intentTxnId : TxnId
  intentLsn : Nat

namespace Row

variable {Value : Type}

/-- The value that a reader of this version gets. -/
def visible (row : Row Value) : Option Value := if row.flags.tombstone then none else some row.value

/-- The row is an intent of the transaction. -/
def ownedBy (row : Row Value) (txnId : TxnId) : Bool := row.flags.intent && row.intentTxnId = txnId

theorem ownedBy_iff (row : Row Value) (txnId : TxnId) :
    row.ownedBy txnId = true <-> row.flags.intent = true ∧ row.intentTxnId = txnId := by
  simp [ownedBy]

end Row

/-- The value that a reader of the overwritten version gets. -/
def UndoRecord.visible {Value : Type} (record : UndoRecord Value) : Option Value :=
  if record.oldFlags.tombstone then none else some record.oldValue

/-- What a reader does after it has looked at the row. -/
inductive Glance (Value : Type)
  | answer (result : Option Value)
  | undo (ptr : Option UndoPtr)
  | wait (txnId : TxnId)

/-- The loop body of `read_visible_value_from_row`. -/
def lookAt {Value : Type} (own : Option TxnId) (readLsn : Nat) : Option (Row Value) -> Glance Value
  | none => .answer none
  | some row =>
    if row.flags.intent then
      if own = some row.intentTxnId then .answer row.visible
      else if readLsn < row.intentLsn then .undo row.undoPtr
      else .wait row.intentTxnId
    else if row.commitLsn ≤ readLsn then .answer row.visible
    else .undo row.undoPtr

/-- The loop body of `read_visible_from_undo`. -/
def lookAtRecord {Value : Type} (readLsn : Nat) (record : UndoRecord Value) : Glance Value :=
  if record.oldFlags.intent then .undo record.prev
  else if record.oldCommitLsn ≤ readLsn then .answer record.visible
  else .undo record.prev

/-- Where the last `get` of a transaction stands. -/
inductive Reading (Value : Type)
  | idle
  | walking (key : Key) (ptr : Option UndoPtr)
  | answered (key : Key) (result : Option Value)
  | failed (key : Key) (error : Error)
deriving DecidableEq

/-- Where a transaction stands: between two calls, before the tree insert of a
`put` or `delete`, before or after the reservation of its commit, or in its
abort. -/
inductive Phase (Value : Type)
  | active
  | inserting (key : Key) (row : Row Value)
  | prestamping (rest : List Key)
  | stamping (startLsn endLsn : Nat) (rest : List Key)
  | resolving (rest : List Key)

/-- The transaction is between two calls. -/
def Phase.isActive {Value : Type} : Phase Value -> Bool
  | .active => true
  | _ => false

/-- `EmbeddedTxn`.  Its undo pages are in the undo log; `writes` records its
latest write to every key and is read by no step. -/
structure Txn (Value : Type) where
  readOnly : Bool
  readLsn : Nat
  phase : Phase Value
  reading : Reading Value
  modified : TreeSet Key
  writes : TreeMap Key (Option Value)

namespace Txn

variable {Value : Type}

/-- `undo_txn_id`. -/
def undoTxnId (txn : Txn Value) (id : TxnId) : Option TxnId := if txn.readOnly then none else some id

end Txn

/-- A `gc_once` in progress: whether it has found anything to change, and the
changes it has still to make. -/
structure GcRun (Value : Type) where
  txnId : TxnId
  gcLsn : Nat
  changes : Bool
  removals : List Key
  updates : List (Key × Row Value)

/-- A commit that has returned `Ok`. -/
structure CommitInfo where
  txnId : TxnId
  readLsn : Nat
  commitLsn : Nat
  keys : List Key

/-- `EmbeddedCompute`.  The last three fields record the past and are read by no
step but `begin`, which takes an id that was not used before: the ids, the
committed versions of every key from the newest to the oldest, and the commits. -/
structure Embedded (Value : Type) where
  tree : TreeMap Key (Row Value)
  undo : UndoLog Value
  sequencer : Sequencer
  activeReads : TreeMap TxnId Nat
  txns : TreeMap TxnId (Txn Value)
  gc : Option (GcRun Value)
  used : List TxnId
  versions : TreeMap Key (List (Nat × Option Value))
  commits : List CommitInfo

namespace Embedded

variable {Value : Type}

/-- A new database behind the given sequencer. -/
def created (sequencer : Sequencer) : Embedded Value :=
  { tree := ∅
    undo := .created
    sequencer := sequencer
    activeReads := ∅
    txns := ∅
    gc := none
    used := []
    versions := ∅
    commits := [] }

def setTxn (state : Embedded Value) (id : TxnId) (txn : Txn Value) : Embedded Value :=
  { state with txns := state.txns.insert id txn }

/-- The end of a transaction: its snapshot is released. -/
def endTxn (state : Embedded Value) (id : TxnId) : Embedded Value :=
  { state with
    txns := state.txns.erase id
    activeReads := state.activeReads.erase id
    undo := state.undo.drop id }

/-- `begin_tx`; the snapshot is registered before anything else can run. -/
def beginTx (state : Embedded Value) (id : TxnId) (readOnly : Bool) : Option (Embedded Value) :=
  if id ∈ state.used then none
  else do
    let undo <- state.undo.beginTx id
    return { state with
      undo := undo
      activeReads := state.activeReads.insert id state.sequencer.durableLsn
      txns := state.txns.insert id
        { readOnly := readOnly
          readLsn := state.sequencer.durableLsn
          phase := .active
          reading := .idle
          modified := ∅
          writes := ∅ }
      used := id :: state.used }

/-! ## Reading -/

/-- `get`, up to the end of its tree lookup.  A reader that has to wait for an
intent looks again later. -/
def get (state : Embedded Value) (id : TxnId) (key : Key) : Option (Embedded Value) := do
  let txn <- state.txns[id]?
  match txn.phase with
  | .active =>
    match lookAt (txn.undoTxnId id) txn.readLsn state.tree[key]? with
    | .answer result => return state.setTxn id { txn with reading := .answered key result }
    | .undo ptr => return state.setTxn id { txn with reading := .walking key ptr }
    | .wait _ => none
  | _ => none

/-- `get_page_for_read` of an undo page. -/
def pageForRead (undo : UndoLog Value) (id : TxnId) (pageId : PageId) :
    Option (UndoPage Value × UndoLog Value) := do
  let own <- undo.txns[id]?
  match own.dirty[pageId]?.or own.roCache[pageId]? with
  | some page => return (page, undo)
  | none =>
    let page <- undo.store.pages[pageId]?
    return (page, { undo with
      txns := undo.txns.insert id { own with roCache := own.roCache.insert pageId page } })

/-- The next record of `read_visible_from_undo`. -/
def walk (state : Embedded Value) (id : TxnId) : Option (Embedded Value) := do
  let txn <- state.txns[id]?
  match txn.reading with
  | .walking key none => return state.setTxn id { txn with reading := .answered key none }
  | .walking key (some ptr) =>
    match pageForRead state.undo id ptr.pageId with
    | none =>
      return state.setTxn id
        { txn with reading := .failed key (.inMemoryPageMissing ptr.pageId) }
    | some (page, undo) =>
      let after := { state with undo := undo }
      match page.readRecord ptr.slotId with
      | .error error => return after.setTxn id { txn with reading := .failed key error }
      | .ok record =>
        match lookAtRecord txn.readLsn record with
        | .answer result => return after.setTxn id { txn with reading := .answered key result }
        | .undo next => return after.setTxn id { txn with reading := .walking key next }
        | .wait _ => none
  | _ => none

/-! ## Writing -/

/-- The row that `put` and `delete` insert over an existing one: a version is
saved in an undo record, an intent of the transaction itself is replaced. -/
def intentRow (undo : UndoLog Value) (id : TxnId) (intentBaseLsn : Nat) (value : Value)
    (tombstone : Bool) : Option (Row Value) -> Option (Except Error (Row Value × UndoLog Value))
  | none =>
    some (.ok (⟨value, 0, none, ⟨tombstone, true⟩, id, intentBaseLsn⟩, undo))
  | some old =>
    if old.flags.intent then
      if old.intentTxnId = id then
        some (.ok (⟨value, 0, old.undoPtr, ⟨tombstone, true⟩, id, old.intentLsn⟩, undo))
      else
        some (.error (.io .wouldBlock s!"encountered foreign intent txn_id={old.intentTxnId}"))
    else
      (undo.append id old.undoPtr old.commitLsn old.flags old.value).map (fun appended =>
        match appended with
        | .error error => .error error
        | .ok (ptr, after) =>
          .ok (⟨value, 0, some ptr, ⟨tombstone, true⟩, id, intentBaseLsn⟩, after))

/-- `put` and `delete` up to their tree insert.  A call that fails changes
nothing. -/
def write (state : Embedded Value) (id : TxnId) (key : Key) (value : Value) (tombstone : Bool) :
    Option (Embedded Value) := do
  let txn <- state.txns[id]?
  match txn.readOnly, txn.phase with
  | false, .active =>
    match <- intentRow state.undo id txn.readLsn value tombstone state.tree[key]? with
    | .error _ => return state.setTxn id { txn with reading := .idle }
    | .ok (row, undo) =>
      return { state with undo := undo }.setTxn id
        { txn with phase := .inserting key row, reading := .idle }
  | _, _ => none

/-- `put`. -/
def put (state : Embedded Value) (id : TxnId) (key : Key) (value : Value) : Option (Embedded Value) :=
  state.write id key value false

/-- `delete`, which keeps the bytes of the row and does nothing without one. -/
def delete (state : Embedded Value) (id : TxnId) (key : Key) : Option (Embedded Value) :=
  match state.tree[key]? with
  | some old => state.write id key old.value true
  | none => do
      let txn <- state.txns[id]?
      match txn.readOnly, txn.phase with
      | false, .active =>
        return state.setTxn id
          { txn with reading := .idle, writes := txn.writes.insert key none }
      | _, _ => none

/-- The tree insert of `put` and `delete`. -/
def insert (state : Embedded Value) (id : TxnId) : Option (Embedded Value) := do
  let txn <- state.txns[id]?
  match txn.phase with
  | .inserting key row =>
    return { state with tree := state.tree.insert key row }.setTxn id
      { txn with
        phase := .active
        modified := txn.modified.insert key
        writes := txn.writes.insert key row.visible }
  | _ => none

/-! ## Commit -/

/-- The start of `commit`. -/
def commit (state : Embedded Value) (id : TxnId) : Option (Embedded Value) := do
  let txn <- state.txns[id]?
  match txn.readOnly, txn.phase with
  | true, .active => return state.endTxn id
  | false, .active =>
    return state.setTxn id
      { txn with phase := .prestamping txn.modified.toList, reading := .idle }
  | _, _ => none

/-- The first pass of `commit` at one row; it returns an error when the intent
is gone. -/
def prestamp (state : Embedded Value) (id : TxnId) : Option (Embedded Value) := do
  let txn <- state.txns[id]?
  match txn.phase with
  | .prestamping (key :: rest) =>
    match state.tree[key]? with
    | some row =>
      if row.ownedBy id then
        return { state with tree := state.tree.insert key { row with commitLsn := 1 } }.setTxn id
          { txn with phase := .prestamping rest }
      else return state.endTxn id
    | none => return state.endTxn id
  | _ => none

/-- `reserve_txn_with_request_id` of a commit. -/
def reserve (state : Embedded Value) (id : TxnId) (pages : Nat) : Option (Embedded Value) := do
  let txn <- state.txns[id]?
  match txn.phase with
  | .prestamping [] =>
    match state.sequencer.reserveTxnWithRequestId pages id with
    | (.error _, _) => return state.endTxn id
    | (.ok (startLsn, endLsn), sequencer) =>
      return { state with sequencer := sequencer }.setTxn id
        { txn with phase := .stamping startLsn endLsn txn.modified.toList }
  | _ => none

/-- The row that the second pass of `commit` writes. -/
def stampedRow (row : Row Value) (commitLsn : Nat) : Row Value :=
  { row with
    commitLsn := commitLsn
    flags := { row.flags with intent := false }
    intentTxnId := 0
    intentLsn := 0 }

/-- The second pass of `commit` at one row. -/
def stamp (state : Embedded Value) (id : TxnId) : Option (Embedded Value) := do
  let txn <- state.txns[id]?
  match txn.phase with
  | .stamping startLsn endLsn (key :: rest) =>
    let advanced := { txn with phase := .stamping startLsn endLsn rest }
    match state.tree[key]? with
    | some row =>
      if row.ownedBy id then
        return { state with tree := state.tree.insert key (stampedRow row endLsn) }.setTxn id
          advanced
      else return state.endTxn id
    | none => return state.setTxn id advanced
  | _ => none

/-- The versions of every key after a commit. -/
def addVersions (versions : TreeMap Key (List (Nat × Option Value))) (commitLsn : Nat)
    (writes : TreeMap Key (Option Value)) : TreeMap Key (List (Nat × Option Value)) :=
  writes.toList.foldl (fun current write =>
    current.insert write.1 ((commitLsn, write.2) :: (current[write.1]?.getD []))) versions

def setDurable (sequencer : Sequencer) (lsn : Nat) : Sequencer :=
  { sequencer with durableLsn := max sequencer.durableLsn lsn }

/-- A commit whose batch has been shipped. -/
def publish (state : Embedded Value) (id : TxnId) (txn : Txn Value) (endLsn : Nat)
    (undo : UndoLog Value) : Embedded Value :=
  { state with
    undo := undo
    sequencer := setDurable state.sequencer endLsn
    activeReads := state.activeReads.erase id
    txns := state.txns.erase id
    versions := addVersions state.versions endLsn txn.writes
    commits := ⟨id, txn.readLsn, endLsn, txn.modified.toList⟩ :: state.commits }

/-- The end of `commit`.  It fails when the set of pages has changed, a page has
the wrong size or the quorum is missed; the rows stay as they are then. -/
def ship (state : Embedded Value) (id : TxnId) (shipped : Bool) : Option (Embedded Value) := do
  let txn <- state.txns[id]?
  match txn.phase with
  | .stamping startLsn endLsn [] =>
    if shipped then
      match <- state.undo.commit id startLsn endLsn with
      | .error _ => return state.endTxn id
      | .ok undo => return state.publish id txn endLsn undo
    else return state.endTxn id
  | _ => none

/-! ## Abort -/

/-- The undo record that an abort goes back to, or none if there is no version. -/
def restorePoint (undo : UndoLog Value) : Nat -> Option UndoPtr ->
    Option (Except Error (Option (UndoRecord Value)))
  | 0, _ => none
  | _ + 1, none => some (.ok none)
  | fuel + 1, some ptr =>
    match undo.store.pages[ptr.pageId]? with
    | none => some (.error (.inMemoryPageMissing ptr.pageId))
    | some page =>
      match page.readRecord ptr.slotId with
      | .error error => some (.error error)
      | .ok record =>
        if record.oldFlags.intent then restorePoint undo fuel record.prev
        else some (.ok (some record))

/-- The row that `resolve_txn_intents` writes back. -/
def restoredRow (record : UndoRecord Value) : Row Value :=
  { value := record.oldValue
    commitLsn := record.oldCommitLsn
    undoPtr := record.prev
    flags := { record.oldFlags with intent := false }
    intentTxnId := 0
    intentLsn := 0 }

/-- The tree after `resolve_txn_intents` has dealt with an intent.  A chain that
ends without a version removes the row only if the row itself has no undo record. -/
def restore (tree : TreeMap Key (Row Value)) (key : Key) (row : Row Value) :
    Option (UndoRecord Value) -> TreeMap Key (Row Value)
  | none => if row.undoPtr = none then tree.erase key else tree
  | some record =>
    if record.oldCommitLsn = 0 ∧ record.prev = none then tree.erase key
    else tree.insert key (restoredRow record)

/-- `abort`. -/
def abort (state : Embedded Value) (id : TxnId) : Option (Embedded Value) := do
  let txn <- state.txns[id]?
  match txn.readOnly, txn.phase with
  | true, .active => return state.endTxn id
  | false, .active =>
    return state.setTxn id { txn with phase := .resolving txn.modified.toList, reading := .idle }
  | _, _ => none

/-- The loop body of `resolve_txn_intents`.  An undo chain that does not end
within the fuel has no end. -/
def resolve (state : Embedded Value) (id : TxnId) (fuel : Nat) : Option (Embedded Value) := do
  let txn <- state.txns[id]?
  match txn.phase with
  | .resolving (key :: rest) =>
    let advanced := { txn with phase := .resolving rest }
    match state.tree[key]? with
    | none => return state.setTxn id advanced
    | some row =>
      if row.ownedBy id then
        match <- restorePoint state.undo fuel row.undoPtr with
        | .error _ => return state.endTxn id
        | .ok point =>
          return { state with tree := restore state.tree key row point }.setTxn id advanced
      else return state.setTxn id advanced
  | .resolving [] => return state.endTxn id
  | _ => none

/-! ## Garbage collection -/

/-- `gc_lsn`. -/
def gcLsn (state : Embedded Value) : Nat :=
  ((state.activeReads.toList.map Prod.snd).min?).getD state.sequencer.durableLsn

/-- A row that `gc_once` looks at more closely. -/
def collectable (gcLsn : Nat) (row : Row Value) : Bool := row.commitLsn ≠ 0 && row.commitLsn ≤ gcLsn

/-- The start of `gc_once`, up to the end of its range scan. -/
def gcOnce (state : Embedded Value) (id : TxnId) (budgetPages : Nat) : Option (Embedded Value) :=
  if budgetPages = 0 ∨ state.gc.isSome then none
  else do
    let bound := state.gcLsn
    let begun <- state.beginTx id false
    let scanned := begun.tree.toList.take budgetPages
    let old := scanned.filter (fun entry => collectable bound entry.2)
    let removals := (old.filter (fun entry => entry.2.flags.tombstone)).map Prod.fst
    let updates := (old.filter (fun entry =>
      !entry.2.flags.tombstone && entry.2.undoPtr.isSome)).map
        (fun entry => (entry.1, { entry.2 with undoPtr := none }))
    return { begun with
      gc := some
        { txnId := id
          gcLsn := bound
          changes := !removals.isEmpty || !updates.isEmpty
          removals := removals
          updates := updates } }

/-- One tree operation of `gc_once`: the removals come first. -/
def gcApply (state : Embedded Value) : Option (Embedded Value) := do
  let run <- state.gc
  match run.removals, run.updates with
  | key :: rest, _ =>
    return { state with
      tree := state.tree.erase key
      gc := some { run with removals := rest } }
  | [], (key, row) :: rest =>
    return { state with
      tree := state.tree.insert key row
      gc := some { run with updates := rest } }
  | [], [] => none

/-- The commit of `gc_once`, whose transaction has written no row of its own; if
there was nothing to change the transaction is only dropped.  A failure ends the
call. -/
def gcCommit (state : Embedded Value) (pages : Nat) (shipped : Bool) : Option (Embedded Value) := do
  let run <- state.gc
  match run.removals, run.updates, state.txns[run.txnId]? with
  | [], [], some _ =>
    let ended := state.endTxn run.txnId
    if run.changes then
      match state.sequencer.reserveTxnWithRequestId pages run.txnId with
      | (.error _, _) => return { ended with gc := none }
      | (.ok (_, endLsn), sequencer) =>
        if shipped then return { ended with sequencer := setDurable sequencer endLsn }
        else return { ended with sequencer := sequencer, gc := none }
    else return ended
  | _, _, _ => none

/-- The purge at the end of `gc_once`, whose errors are ignored.  A purge that
finds no segment reserves nothing and ships no page. -/
def gcPurge (state : Embedded Value) (pages : Nat) (shipped : Bool) : Option (Embedded Value) := do
  let run <- state.gc
  match state.txns[run.txnId]? with
  | some _ => none
  | none =>
    let finished := { state with gc := none }
    match <- state.undo.purge run.gcLsn with
    | .error _ => return finished
    | .ok undo =>
      if state.undo.store.purgeBatch run.gcLsn = 0 then return finished
      else
        let (requestId, allocated) := state.sequencer.allocateRequestId
        match allocated.reserveTxnWithRequestId pages requestId with
        | (.error _, sequencer) => return { finished with sequencer := sequencer }
        | (.ok (_, endLsn), sequencer) =>
          if shipped then
            return { finished with undo := undo, sequencer := setDurable sequencer endLsn }
          else return { finished with sequencer := sequencer }

inductive Action (Value : Type)
  | begin (id : TxnId) (readOnly : Bool)
  | get (id : TxnId) (key : Key)
  | walk (id : TxnId)
  | put (id : TxnId) (key : Key) (value : Value)
  | delete (id : TxnId) (key : Key)
  | insert (id : TxnId)
  | commit (id : TxnId)
  | prestamp (id : TxnId)
  | reserve (id : TxnId) (pages : Nat)
  | stamp (id : TxnId)
  | ship (id : TxnId) (shipped : Bool)
  | abort (id : TxnId)
  | resolve (id : TxnId) (fuel : Nat)
  | gcOnce (id : TxnId) (budgetPages : Nat)
  | gcApply
  | gcCommit (pages : Nat) (shipped : Bool)
  | gcPurge (pages : Nat) (shipped : Bool)

def step (state : Embedded Value) : Action Value -> Option (Embedded Value)
  | .begin id readOnly => state.beginTx id readOnly
  | .get id key => state.get id key
  | .walk id => state.walk id
  | .put id key value => state.put id key value
  | .delete id key => state.delete id key
  | .insert id => state.insert id
  | .commit id => state.commit id
  | .prestamp id => state.prestamp id
  | .reserve id pages => state.reserve id pages
  | .stamp id => state.stamp id
  | .ship id shipped => state.ship id shipped
  | .abort id => state.abort id
  | .resolve id fuel => state.resolve id fuel
  | .gcOnce id budgetPages => state.gcOnce id budgetPages
  | .gcApply => state.gcApply
  | .gcCommit pages shipped => state.gcCommit pages shipped
  | .gcPurge pages shipped => state.gcPurge pages shipped

end Embedded

end Compute
end ScaleKv
