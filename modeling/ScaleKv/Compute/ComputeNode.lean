import ScaleKv.Compute.EmbeddedTxn

namespace ScaleKv
namespace Compute

open Foundation Std

/-!
# The compute node between two tree operations

Here a step is at most one operation on the primary tree, so that a call that
first reads a row and then writes it back is at least two steps, and whatever
runs in between is seen: the transactions, the reaper that resolves the intents
of expired transactions, and the garbage collection.  `put` and `delete` read the
row, append the undo record and insert; both passes of `commit` read and insert
each row; `resolve_txn_intents` reads a row, walks its undo records, reads the
row again and only then writes.

Beyond `Embedded`, the registry of pending transactions, the clock, dropped
handles, the order in which reserved ranges are dispatched and every error exit
of a commit are here.  The rows, the undo log and the sequencer are the same.
A handle stays in the state after its end, so that its outcome can be asked for.
-/

/-- `PendingTxn`. -/
structure PendingTxn where
  deadline : Nat
  writeKeys : TreeSet Key

/-- Where `resolve_txn_intents` stands at the key it works on: before it reads
the row, before it reads the row again, before it writes the row. -/
inductive ResolveAt (Value : Type)
  | reading
  | decided (point : Option (UndoRecord Value))
  | checked (point : Option (UndoRecord Value))

/-- The copies that a commit takes at its start: of the META page, and of the
tail of the undo history if it will link its segment behind it. -/
structure CommitBase (Value : Type) where
  metaPage : MetaPage
  tail : Option (PageId × UndoPage Value)

/-- How a handle came to its end. -/
inductive Outcome
  | committed (commitLsn : Nat)
  | aborted
  | failed
  | dropped
  | closed
deriving DecidableEq

/-- Where a handle stands: between two calls, in a `put` or `delete`, in a
`commit`, in an `abort`, before the end of a commit or abort, and after its end.
A row that a pass of `commit` has read and not yet written back is held. -/
inductive Stage (Value : Type)
  | active
  | inserting (key : Key) (row : Row Value)
  | recording (key : Key)
  | prestamping (base : CommitBase Value) (held : Option (Row Value)) (rest : List Key)
  | stamping (base : CommitBase Value) (startLsn endLsn : Nat) (held : Option (Row Value))
      (rest : List Key)
  | resolving (stands : ResolveAt Value) (rest : List Key)
  | leaving (outcome : Outcome)
  | ended (outcome : Outcome)

/-- `EmbeddedTxn`.  The pages staged with `write_page` are known by their sizes.
The last two fields record the past and are read by no step: the row that was
last inserted for every key, and what the calls of `get` have returned. -/
structure Handle (Value : Type) where
  readOnly : Bool
  readLsn : Nat
  startedAt : Nat
  timeout : Option Nat
  stage : Stage Value
  walking : Option (Key × Option UndoPtr)
  modified : TreeSet Key
  pages : TreeMap PageId Nat
  placed : TreeMap Key (Row Value)
  answers : List (Key × Except Error (Option Value))

namespace Handle

variable {Value : Type}

/-- `undo_txn_id`. -/
def undoTxnId (handle : Handle Value) (id : TxnId) : Option TxnId :=
  if handle.readOnly then none else some id

/-- `ensure_not_timed_out`. -/
def timedOut (handle : Handle Value) (now : Nat) : Bool :=
  handle.timeout.any (fun timeout => timeout < now - handle.startedAt)

/-- `registry_deadline`. -/
def registryDeadline (handle : Handle Value) (defaultTimeout : Nat) : Nat :=
  handle.startedAt + handle.timeout.getD defaultTimeout

end Handle

/-- The work of `resolve_txn_intents` for one transaction. -/
structure Resolve (Value : Type) where
  txnId : TxnId
  keys : List Key
  stands : ResolveAt Value

/-- A pass of the reaper: the expired transactions that it has still to take up,
and the one that it resolves. -/
structure ReaperPass (Value : Type) where
  expired : List TxnId
  job : Option (Resolve Value)

/-- A reserved range of LSNs, with the transaction whose commit has reserved it. -/
structure Reservation where
  holder : Option TxnId
  startLsn : Nat
  endLsn : Nat
deriving DecidableEq

/-- `EmbeddedCompute`.  The last four fields record the past and are read by no
step: the ranges that have been reserved and not dispatched, the transaction for
which the row of every key was last written or removed, the versions of every
key in the order in which they were stamped on its row, and the versions whose
commit has returned `Ok`; both from the newest to the oldest. -/
structure ComputeNode (Value : Type) where
  tree : TreeMap Key (Row Value)
  undo : UndoLog Value
  sequencer : Sequencer
  activeReads : TreeMap TxnId Nat
  handles : TreeMap TxnId (Handle Value)
  registry : TreeMap TxnId PendingTxn
  reaper : Option (ReaperPass Value)
  gc : Option (GcRun Value)
  purge : Option Reservation
  purgeBatch : UndoStore.Purge Value
  batches : List Reservation
  now : Nat
  defaultTimeout : Nat
  reserved : List Reservation
  writers : TreeMap Key TxnId
  chains : TreeMap Key (List (Nat × Option Value))
  versions : TreeMap Key (List (Nat × Option Value))

/-! ## The undo log under a commit that takes several steps -/

namespace UndoLog

variable {Value : Type}

/-- The copies of the META page and of the tail page at the start of `commit`.
The tail page is also put back into the cache, where it was taken from. -/
def commitBase (log : UndoLog Value) (txnId : TxnId) : Option (Except Error (CommitBase Value)) :=
  log.txns[txnId]?.map (fun own =>
    let metaPage := own.dirtyMeta.getD log.store.metaPage
    let tail := metaPage.undoHistoryTail
    if own.firstPageId.isNone ∨ tail = 0 ∨ own.dirty.contains tail = true then .ok ⟨metaPage, none⟩
    else
      match log.store.pages[tail]?.or own.roCache[tail]? with
      | some page => .ok ⟨metaPage, some (tail, page)⟩
      | none => .error (.inMemoryPageMissing tail))

/-- What the transaction has staged, with the copies of its commit. -/
def staged (own : TxnUndo Value) (base : CommitBase Value) : TxnUndo Value :=
  { own with
    dirtyMeta := some base.metaPage
    dirty :=
      match base.tail with
      | some (tail, page) => own.dirty.insert tail page
      | none => own.dirty }

/-- The end of a commit that has started from the given copies. -/
def commitFrom (log : UndoLog Value) (txnId : TxnId) (base : CommitBase Value)
    (startLsn endLsn : Nat) : Option (Except Error (UndoLog Value)) :=
  log.txns[txnId]?.bind (fun own =>
    { log with txns := log.txns.insert txnId (staged own base) }.commit txnId startLsn endLsn)

end UndoLog

/-- How the end of a commit goes: an error exit before the batch is dispatched, a
quorum that is missed, or success.  Missing undo pages and pages of the wrong size
are seen in the state.  The tree is a map here and the posting log is not part of
the node, so that the action says whether the second pass has changed the set of
pages or one of the two has failed. -/
inductive ShipOutcome
  | rejected
  | missed
  | shipped
deriving DecidableEq

namespace ComputeNode

variable {Value : Type}

/-- A new database behind the given sequencer. -/
def created (sequencer : Sequencer) (defaultTimeout : Nat) : ComputeNode Value :=
  { tree := ∅
    undo := .created
    sequencer := sequencer
    activeReads := ∅
    handles := ∅
    registry := ∅
    reaper := none
    gc := none
    purge := none
    purgeBatch := ⟨.initial, ∅, []⟩
    batches := []
    now := 0
    defaultTimeout := defaultTimeout
    reserved := []
    writers := ∅
    chains := ∅
    versions := ∅ }

/-- A tree operation that is made for a transaction. -/
def setTree (node : ComputeNode Value) (id : TxnId) (key : Key) (tree : TreeMap Key (Row Value)) :
    ComputeNode Value :=
  { node with tree := tree, writers := node.writers.insert key id }

def setHandle (node : ComputeNode Value) (id : TxnId) (handle : Handle Value) : ComputeNode Value :=
  { node with handles := node.handles.insert id handle }

def setStage (node : ComputeNode Value) (id : TxnId) (handle : Handle Value) (stage : Stage Value) :
    ComputeNode Value :=
  node.setHandle id { handle with stage := stage, walking := none }

/-- The read guard and the staged pages of a handle go away with it. -/
def endHandle (node : ComputeNode Value) (id : TxnId) (handle : Handle Value) (outcome : Outcome) :
    ComputeNode Value :=
  { node with
    undo := node.undo.drop id
    activeReads := node.activeReads.erase id }.setStage id handle (.ended outcome)

/-- A handle as `begin_tx` makes it. -/
def newHandle (node : ComputeNode Value) (readOnly : Bool) (timeout : Option Nat) : Handle Value :=
  { readOnly := readOnly
    readLsn := node.sequencer.durableLsn
    startedAt := node.now
    timeout := timeout
    stage := .active
    walking := none
    modified := ∅
    pages := ∅
    placed := ∅
    answers := [] }

/-- `register_pending_txn` for a transaction that writes. -/
def register (node : ComputeNode Value) (id : TxnId) (handle : Handle Value) :
    TreeMap TxnId PendingTxn :=
  if handle.readOnly then node.registry
  else node.registry.insert id ⟨handle.registryDeadline node.defaultTimeout, ∅⟩

/-- The node after `begin_tx`; the snapshot is registered before anything else can
run. -/
def begun (node : ComputeNode Value) (id : TxnId) (readOnly : Bool) (timeout : Option Nat)
    (undo : UndoLog Value) : ComputeNode Value :=
  let handle := node.newHandle readOnly timeout
  { node with
    undo := undo
    activeReads := node.activeReads.insert id node.sequencer.durableLsn
    registry := node.register id handle }.setHandle id handle

/-- `begin_tx`, `begin_rw` and `begin_rw_timeout`. -/
def beginTx (node : ComputeNode Value) (id : TxnId) (readOnly : Bool) (timeout : Option Nat) :
    Option (ComputeNode Value) :=
  if node.handles.contains id then none
  else (node.undo.beginTx id).map (node.begun id readOnly timeout)

/-- The handle is that of the collection in progress, which makes its own calls. -/
def ofGc (node : ComputeNode Value) (id : TxnId) : Bool := node.gc.any (fun run => run.txnId = id)

/-- The handle of a caller, between two calls. -/
def idle (node : ComputeNode Value) (id : TxnId) : Option (Handle Value) := do
  let handle <- node.handles[id]?
  match handle.stage with
  | .active => if node.ofGc id then none else some handle
  | _ => none

/-! ## Reading -/

def answer (node : ComputeNode Value) (id : TxnId) (handle : Handle Value) (key : Key)
    (result : Except Error (Option Value)) : ComputeNode Value :=
  node.setHandle id
    { handle with walking := none, answers := (key, result) :: handle.answers }

/-- `get`, up to the end of its tree lookup.  A reader that has to wait for an
intent looks again later. -/
def get (node : ComputeNode Value) (id : TxnId) (key : Key) : Option (ComputeNode Value) := do
  let handle <- node.idle id
  if handle.timedOut node.now then return node.answer id handle key (.error .txnTimeout)
  else
    match lookAt (handle.undoTxnId id) handle.readLsn node.tree[key]? with
    | .answer result => return node.answer id handle key (.ok result)
    | .undo ptr => return node.setHandle id { handle with walking := some (key, ptr) }
    | .wait _ => none

/-- The next record of `read_visible_from_undo`. -/
def walk (node : ComputeNode Value) (id : TxnId) : Option (ComputeNode Value) := do
  let handle <- node.idle id
  match handle.walking with
  | some (key, none) => return node.answer id handle key (.ok none)
  | some (key, some ptr) =>
    match Embedded.pageForRead node.undo id ptr.pageId with
    | none => return node.answer id handle key (.error (.inMemoryPageMissing ptr.pageId))
    | some (page, undo) =>
      let after := { node with undo := undo }
      match page.readRecord ptr.slotId with
      | .error error => return after.answer id handle key (.error error)
      | .ok record =>
        match lookAtRecord handle.readLsn record with
        | .answer result => return after.answer id handle key (.ok result)
        | .undo next => return after.setHandle id { handle with walking := some (key, next) }
        | .wait _ => none
  | none => none

/-! ## Writing -/

/-- `put` and `delete` up to their tree insert.  A call that fails changes
nothing. -/
def write (node : ComputeNode Value) (id : TxnId) (key : Key) (value : Value) (tombstone : Bool) :
    Option (ComputeNode Value) := do
  let handle <- node.idle id
  if handle.readOnly || handle.timedOut node.now then return node.setStage id handle .active
  else
    match <- Embedded.intentRow node.undo id handle.readLsn value tombstone node.tree[key]? with
    | .error _ => return node.setStage id handle .active
    | .ok (row, undo) =>
      return { node with undo := undo }.setStage id handle (.inserting key row)

/-- `put`. -/
def put (node : ComputeNode Value) (id : TxnId) (key : Key) (value : Value) :
    Option (ComputeNode Value) :=
  node.write id key value false

/-- `delete`, which keeps the bytes of the row and does nothing without one. -/
def delete (node : ComputeNode Value) (id : TxnId) (key : Key) : Option (ComputeNode Value) :=
  match node.tree[key]? with
  | some old => node.write id key old.value true
  | none => (node.idle id).map (fun handle => node.setStage id handle .active)

/-- The tree insert of `put` and `delete`. -/
def insert (node : ComputeNode Value) (id : TxnId) : Option (ComputeNode Value) := do
  let handle <- node.handles[id]?
  match handle.stage with
  | .inserting key row =>
    let after := { handle with
      modified := handle.modified.insert key
      placed := handle.placed.insert key row }
    return (node.setTree id key (node.tree.insert key row)).setStage id after (.recording key)
  | _ => none

/-- `record_txn_write`. -/
def registerWrite (node : ComputeNode Value) (id : TxnId) (key : Key) : ComputeNode Value :=
  { node with
    registry := node.registry.modify id (fun pending =>
      { pending with writeKeys := pending.writeKeys.insert key }) }

/-- The end of `put` and `delete`. -/
def record (node : ComputeNode Value) (id : TxnId) : Option (ComputeNode Value) := do
  let handle <- node.handles[id]?
  match handle.stage with
  | .recording key =>
    return (node.registerWrite id key).setStage id handle .active
  | _ => none

/-- `EmbeddedTxn::write_page`. -/
def writePage (node : ComputeNode Value) (id : TxnId) (page : PageId) (size : Nat) :
    Option (ComputeNode Value) := do
  let handle <- node.idle id
  if handle.readOnly then return node.setStage id handle .active
  else return node.setStage id { handle with pages := handle.pages.insert page size } .active

/-- A handle that is dropped without commit or abort. -/
def drop (node : ComputeNode Value) (id : TxnId) : Option (ComputeNode Value) :=
  (node.idle id).map (fun handle => node.endHandle id handle .dropped)

/-! ## Commit -/

/-- The start of `commit`, up to its first pass. -/
def startCommit (node : ComputeNode Value) (id : TxnId) (handle : Handle Value) :
    Option (ComputeNode Value) :=
  if handle.timedOut node.now then some (node.endHandle id handle .failed)
  else if handle.readOnly then some (node.endHandle id handle .closed)
  else
    (node.undo.commitBase id).map (fun copied =>
      match copied with
      | .error _ => node.endHandle id handle .failed
      | .ok base => node.setStage id handle (.prestamping base none handle.modified.toList))

/-- `commit`. -/
def commit (node : ComputeNode Value) (id : TxnId) : Option (ComputeNode Value) := do
  let handle <- node.idle id
  node.startCommit id handle

/-- The first pass of `commit` reads a row; without the intent it returns an
error. -/
def prestampGet (node : ComputeNode Value) (id : TxnId) : Option (ComputeNode Value) := do
  let handle <- node.handles[id]?
  match handle.stage with
  | .prestamping base none (key :: rest) =>
    match node.tree[key]? with
    | some row =>
      if row.ownedBy id then
        return node.setStage id handle (.prestamping base (some row) (key :: rest))
      else return node.endHandle id handle .failed
    | none => return node.endHandle id handle .failed
  | _ => none

/-- The first pass writes the row back with a dummy commit LSN. -/
def prestampInsert (node : ComputeNode Value) (id : TxnId) : Option (ComputeNode Value) := do
  let handle <- node.handles[id]?
  match handle.stage with
  | .prestamping base (some row) (key :: rest) =>
    return (node.setTree id key (node.tree.insert key { row with commitLsn := 1 })).setStage id handle
      (.prestamping base none rest)
  | _ => none

/-- `reserve_txn_with_request_id` of a commit. -/
def reserve (node : ComputeNode Value) (id : TxnId) (pages : Nat) : Option (ComputeNode Value) := do
  let handle <- node.handles[id]?
  match handle.stage with
  | .prestamping base none [] =>
    match node.sequencer.reserveTxnWithRequestId pages id with
    | (.error _, _) => return node.endHandle id handle .failed
    | (.ok (startLsn, endLsn), sequencer) =>
      let reserved := node.reserved ++ [⟨some id, startLsn, endLsn⟩]
      return { node with sequencer := sequencer, reserved := reserved }.setStage id handle
        (.stamping base startLsn endLsn none handle.modified.toList)
  | _ => none

/-- The second pass of `commit` reads a row; it goes on where there is none. -/
def stampGet (node : ComputeNode Value) (id : TxnId) : Option (ComputeNode Value) := do
  let handle <- node.handles[id]?
  match handle.stage with
  | .stamping base startLsn endLsn none (key :: rest) =>
    match node.tree[key]? with
    | some row =>
      if row.ownedBy id then
        return node.setStage id handle (.stamping base startLsn endLsn (some row) (key :: rest))
      else return node.endHandle id handle .failed
    | none => return node.setStage id handle (.stamping base startLsn endLsn none rest)
  | _ => none

/-- Another version at the head of a key. -/
def addVersion (versions : TreeMap Key (List (Nat × Option Value))) (key : Key)
    (version : Nat × Option Value) : TreeMap Key (List (Nat × Option Value)) :=
  versions.insert key (version :: versions[key]?.getD [])

/-- The second pass writes the row back as a version. -/
def stampInsert (node : ComputeNode Value) (id : TxnId) : Option (ComputeNode Value) := do
  let handle <- node.handles[id]?
  match handle.stage with
  | .stamping base startLsn endLsn (some row) (key :: rest) =>
    let stamped := node.setTree id key (node.tree.insert key (Embedded.stampedRow row endLsn))
    return { stamped with chains := addVersion node.chains key (endLsn, row.visible) }.setStage id
      handle (.stamping base startLsn endLsn none rest)
  | _ => none

/-- The range has been sent to the storage nodes. -/
def dispatched (sequencer : Sequencer) (endLsn : Nat) (shipped : Bool) : Sequencer :=
  { sequencer with
    dispatchLsn := endLsn
    durableLsn := if shipped then max sequencer.durableLsn endLsn else sequencer.durableLsn }

/-- A page that was staged with `write_page` has the wrong size. -/
def oddPage (handle : Handle Value) : Bool := handle.pages.toList.any (fun entry => entry.2 ≠ pageSize)

/-- The end of `commit`.  It seals the undo segment, checks the pages and waits
until every range before its own has been dispatched. -/
def ship (node : ComputeNode Value) (id : TxnId) (outcome : ShipOutcome) :
    Option (ComputeNode Value) := do
  let handle <- node.handles[id]?
  match handle.stage with
  | .stamping base startLsn endLsn none [] =>
    match <- node.undo.commitFrom id base startLsn endLsn with
    | .error _ => return node.endHandle id handle .failed
    | .ok undo =>
      if outcome = .rejected ∨ oddPage handle = true then return node.endHandle id handle .failed
      else if node.sequencer.dispatchLsn ≠ startLsn then none
      else
        let shipped : Bool := outcome = ShipOutcome.shipped
        let sent := { node with
          sequencer := dispatched node.sequencer endLsn shipped
          reserved := node.reserved.tail }
        if shipped then
          let written := handle.placed.map (fun _ (row : Row Value) => row.visible)
          let versions := Embedded.addVersions node.versions endLsn written
          return { sent with undo := undo, versions := versions }.setStage id handle
            (.leaving (.committed endLsn))
        else return sent.endHandle id handle .failed
  | _ => none

/-! ## Abort and the reaper -/

/-- What one step of `resolve_txn_intents` at a key leads to. -/
inductive Resolved (Value : Type)
  | stands (next : ResolveAt Value)
  | skipped
  | restored (tree : TreeMap Key (Row Value))
  | error

/-- The tree operation at the end of `resolve_txn_intents`. -/
def restore (tree : TreeMap Key (Row Value)) (key : Key) :
    Option (UndoRecord Value) -> TreeMap Key (Row Value)
  | none => tree.erase key
  | some record =>
    if record.oldCommitLsn = 0 ∧ record.prev = none then tree.erase key
    else tree.insert key (Embedded.restoredRow record)

/-- The second look of `resolve_txn_intents` at the row. -/
def stillIntent (row : Row Value) (txnId : TxnId) (point : Option (UndoRecord Value)) : Bool :=
  row.ownedBy txnId && (point.isSome || row.undoPtr.isNone)

/-- One step of `resolve_txn_intents` at a key.  An undo chain that does not end
within the fuel has no end. -/
def resolveStep (node : ComputeNode Value) (txnId : TxnId) (key : Key) (fuel : Nat) :
    ResolveAt Value -> Option (Resolved Value)
  | .reading =>
    match node.tree[key]? with
    | none => some .skipped
    | some row =>
      if row.ownedBy txnId then
        (Embedded.restorePoint node.undo fuel row.undoPtr).map (fun found =>
          match found with
          | .error _ => .error
          | .ok point => .stands (.decided point))
      else some .skipped
  | .decided point =>
    if node.tree[key]?.any (fun row => stillIntent row txnId point) then
      some (.stands (.checked point))
    else some .skipped
  | .checked point => some (.restored (restore node.tree key point))

/-- A commit or abort has only to take itself out of the registry. -/
def leave (node : ComputeNode Value) (id : TxnId) (handle : Handle Value) (outcome : Outcome) :
    ComputeNode Value :=
  { node with undo := node.undo.drop id }.setStage id handle (.leaving outcome)

/-- `abort`. -/
def abort (node : ComputeNode Value) (id : TxnId) : Option (ComputeNode Value) := do
  let handle <- node.idle id
  if handle.readOnly then return node.endHandle id handle .closed
  else return node.setStage id handle (.resolving .reading handle.modified.toList)

/-- One step of the `resolve_txn_intents` of an abort.  After an error the rest
of the keys is left as it is. -/
def resolve (node : ComputeNode Value) (id : TxnId) (fuel : Nat) : Option (ComputeNode Value) := do
  let handle <- node.handles[id]?
  match handle.stage with
  | .resolving _ [] => return node.leave id handle .aborted
  | .resolving stands (key :: rest) =>
    match <- node.resolveStep id key fuel stands with
    | .stands next => return node.setStage id handle (.resolving next (key :: rest))
    | .skipped => return node.setStage id handle (.resolving .reading rest)
    | .restored tree =>
      return (node.setTree id key tree).setStage id handle (.resolving .reading rest)
    | .error => return node.leave id handle .failed
  | _ => none

/-- `remove_pending_txn` at the end of a commit or abort. -/
def finish (node : ComputeNode Value) (id : TxnId) : Option (ComputeNode Value) := do
  let handle <- node.handles[id]?
  match handle.stage with
  | .leaving outcome =>
    return { node with registry := node.registry.erase id }.endHandle id handle outcome
  | _ => none

/-- The reaper collects the transactions whose deadline has passed. -/
def reapStart (node : ComputeNode Value) : Option (ComputeNode Value) :=
  match node.reaper with
  | some _ => none
  | none =>
    let expired := (node.registry.toList.filter (fun entry => entry.2.deadline ≤ node.now)).map Prod.fst
    if expired.isEmpty then none else some { node with reaper := some ⟨expired, none⟩ }

/-- The reaper takes up the next expired transaction.  It works on the keys that
the registry knows then. -/
def reapTake (node : ComputeNode Value) : Option (ComputeNode Value) := do
  let pass <- node.reaper
  match pass.job, pass.expired with
  | none, id :: rest =>
    let keys :=
      match node.registry[id]? with
      | some pending => if pending.deadline ≤ node.now then pending.writeKeys.toList else []
      | none => []
    return { node with reaper := some ⟨rest, some ⟨id, keys, .reading⟩⟩ }
  | _, _ => none

/-- One step of the `resolve_txn_intents` of the reaper, whose errors are
ignored. -/
def reapResolve (node : ComputeNode Value) (fuel : Nat) : Option (ComputeNode Value) := do
  let pass <- node.reaper
  match pass.job with
  | some ⟨id, key :: rest, stands⟩ =>
    match <- node.resolveStep id key fuel stands with
    | .stands next =>
      return { node with reaper := some { pass with job := some ⟨id, key :: rest, next⟩ } }
    | .skipped => return { node with reaper := some { pass with job := some ⟨id, rest, .reading⟩ } }
    | .restored tree =>
      return { node.setTree id key tree with
        reaper := some { pass with job := some ⟨id, rest, .reading⟩ } }
    | .error => return { node with reaper := some { pass with job := some ⟨id, [], .reading⟩ } }
  | _ => none

/-- `remove_pending_txn` of the reaper. -/
def reapRemove (node : ComputeNode Value) : Option (ComputeNode Value) := do
  let pass <- node.reaper
  match pass.job with
  | some ⟨id, [], _⟩ =>
    return { node with
      registry := node.registry.erase id
      reaper := if pass.expired.isEmpty then none else some { pass with job := none } }
  | _ => none

/-! ## Garbage collection -/

/-- `gc_lsn`. -/
def gcLsn (node : ComputeNode Value) : Nat :=
  ((node.activeReads.toList.map Prod.snd).min?).getD node.sequencer.durableLsn

/-- What the range scan of `gc_once` finds to change. -/
def gcScan (tree : TreeMap Key (Row Value)) (id : TxnId) (bound budgetPages : Nat) : GcRun Value :=
  let scanned := tree.toList.take budgetPages
  let old := scanned.filter (fun entry => Embedded.collectable bound entry.2)
  let removals := (old.filter (fun entry => entry.2.flags.tombstone)).map Prod.fst
  let updates := (old.filter (fun entry =>
    !entry.2.flags.tombstone && entry.2.undoPtr.isSome)).map
      (fun entry => (entry.1, { entry.2 with undoPtr := none }))
  { txnId := id
    gcLsn := bound
    changes := !removals.isEmpty || !updates.isEmpty
    removals := removals
    updates := updates }

/-- The start of `gc_once`, up to the end of its range scan. -/
def gcOnce (node : ComputeNode Value) (id : TxnId) (budgetPages : Nat) : Option (ComputeNode Value) :=
  if budgetPages = 0 ∨ node.gc.isSome then none
  else
    (node.beginTx id false none).map (fun begun =>
      { begun with gc := some (gcScan node.tree id node.gcLsn budgetPages) })

/-- One tree operation of `gc_once`: the removals come first. -/
def gcApply (node : ComputeNode Value) : Option (ComputeNode Value) := do
  let run <- node.gc
  match run.removals, run.updates with
  | key :: rest, _ =>
    return { node.setTree run.txnId key (node.tree.erase key) with
      gc := some { run with removals := rest } }
  | [], (key, row) :: rest =>
    return { node.setTree run.txnId key (node.tree.insert key row) with
      gc := some { run with updates := rest } }
  | [], [] => none

/-- The start of the commit of `gc_once`, if it has changed anything. -/
def gcCommit (node : ComputeNode Value) : Option (ComputeNode Value) := do
  let run <- node.gc
  let handle <- node.handles[run.txnId]?
  match run.removals, run.updates, handle.stage, run.changes with
  | [], [], .active, true => node.startCommit run.txnId handle
  | _, _, _, _ => none

/-- Where `gc_once` comes to its purge, and the handle that it still has then: a
collection without changes has not committed its transaction. -/
def gcReady (node : ComputeNode Value) : Option (GcRun Value × Option (Handle Value)) := do
  let run <- node.gc
  let handle <- node.handles[run.txnId]?
  match run.removals, run.updates, handle.stage, run.changes with
  | [], [], .active, false => return (run, some handle)
  | [], [], .ended (.committed _), true => return (run, none)
  | _, _, _, _ => none

/-- `gc_once` returns; a handle that it still has is dropped. -/
def gcReturn (node : ComputeNode Value) (id : TxnId) (left : Option (Handle Value)) :
    ComputeNode Value :=
  let returned := { node with gc := none, purge := none }
  match left with
  | some handle => returned.endHandle id handle .dropped
  | none => returned

/-- A commit of `gc_once` that fails ends the call. -/
def gcFail (node : ComputeNode Value) : Option (ComputeNode Value) := do
  let run <- node.gc
  let handle <- node.handles[run.txnId]?
  match handle.stage with
  | .ended .failed => return { node with gc := none }
  | _ => none

/-- `gc_purge_undo_segments` up to its reservation.  It collects the pages that it
will write, in one step here; a purge that finds no segment, or fails, ends the
call. -/
def gcReserve (node : ComputeNode Value) : Option (ComputeNode Value) := do
  let (run, left) <- node.gcReady
  let store := node.undo.store
  let collected <- store.purgeLoop run.gcLsn (store.pages.size + 1) ⟨store.metaPage, ∅, []⟩
  match node.purge, collected with
  | some _, _ => none
  | none, .error _ => return node.gcReturn run.txnId left
  | none, .ok batch =>
    if batch.dirtyPages.isEmpty then return node.gcReturn run.txnId left
    else
      let (requestId, allocated) := node.sequencer.allocateRequestId
      match allocated.reserveTxnWithRequestId (batch.dirtyPages.size + 1) requestId with
      | (.error _, sequencer) => return { node with sequencer := sequencer }.gcReturn run.txnId left
      | (.ok (startLsn, endLsn), sequencer) =>
        return { node with
          sequencer := sequencer
          purge := some ⟨none, startLsn, endLsn⟩
          purgeBatch := batch
          reserved := node.reserved ++ [⟨none, startLsn, endLsn⟩] }

/-- The dispatch of the pages that the purge has collected. -/
def gcPurge (node : ComputeNode Value) (shipped : Bool) : Option (ComputeNode Value) := do
  let (run, left) <- node.gcReady
  let range <- node.purge
  if node.sequencer.dispatchLsn ≠ range.startLsn then none
  else
    let sent := { node with
      sequencer := dispatched node.sequencer range.endLsn shipped
      reserved := node.reserved.tail }
    if shipped then return { sent with undo := node.undo.overwrite node.purgeBatch }.gcReturn run.txnId left
    else return sent.gcReturn run.txnId left

/-! ## Direct batches -/

/-- The reservation of `write_pages_direct`, which the index operations use. -/
def reserveDirect (node : ComputeNode Value) (pages : Nat) : Option (ComputeNode Value) :=
  let (requestId, allocated) := node.sequencer.allocateRequestId
  match allocated.reserveTxnWithRequestId pages requestId with
  | (.error _, sequencer) => some { node with sequencer := sequencer }
  | (.ok (startLsn, endLsn), sequencer) =>
    some { node with
      sequencer := sequencer
      batches := node.batches ++ [⟨none, startLsn, endLsn⟩]
      reserved := node.reserved ++ [⟨none, startLsn, endLsn⟩] }

/-- The dispatch of `write_pages_direct`; it writes pages of the right size. -/
def shipDirect (node : ComputeNode Value) (shipped : Bool) : Option (ComputeNode Value) := do
  let batch <- node.batches.find? (fun batch => batch.startLsn = node.sequencer.dispatchLsn)
  return { node with
    sequencer := dispatched node.sequencer batch.endLsn shipped
    batches := node.batches.erase batch
    reserved := node.reserved.tail }

/-! ## Steps -/

inductive Action (Value : Type)
  | tick
  | begin (id : TxnId) (readOnly : Bool) (timeout : Option Nat)
  | get (id : TxnId) (key : Key)
  | walk (id : TxnId)
  | put (id : TxnId) (key : Key) (value : Value)
  | delete (id : TxnId) (key : Key)
  | insert (id : TxnId)
  | record (id : TxnId)
  | writePage (id : TxnId) (page : PageId) (size : Nat)
  | drop (id : TxnId)
  | commit (id : TxnId)
  | prestampGet (id : TxnId)
  | prestampInsert (id : TxnId)
  | reserve (id : TxnId) (pages : Nat)
  | stampGet (id : TxnId)
  | stampInsert (id : TxnId)
  | ship (id : TxnId) (outcome : ShipOutcome)
  | abort (id : TxnId)
  | resolve (id : TxnId) (fuel : Nat)
  | finish (id : TxnId)
  | reapStart
  | reapTake
  | reapResolve (fuel : Nat)
  | reapRemove
  | gcOnce (id : TxnId) (budgetPages : Nat)
  | gcApply
  | gcCommit
  | gcFail
  | gcReserve
  | gcPurge (shipped : Bool)
  | reserveDirect (pages : Nat)
  | shipDirect (shipped : Bool)

def step (node : ComputeNode Value) : Action Value -> Option (ComputeNode Value)
  | .tick => some { node with now := node.now + 1 }
  | .begin id readOnly timeout => node.beginTx id readOnly timeout
  | .get id key => node.get id key
  | .walk id => node.walk id
  | .put id key value => node.put id key value
  | .delete id key => node.delete id key
  | .insert id => node.insert id
  | .record id => node.record id
  | .writePage id page size => node.writePage id page size
  | .drop id => node.drop id
  | .commit id => node.commit id
  | .prestampGet id => node.prestampGet id
  | .prestampInsert id => node.prestampInsert id
  | .reserve id pages => node.reserve id pages
  | .stampGet id => node.stampGet id
  | .stampInsert id => node.stampInsert id
  | .ship id outcome => node.ship id outcome
  | .abort id => node.abort id
  | .resolve id fuel => node.resolve id fuel
  | .finish id => node.finish id
  | .reapStart => node.reapStart
  | .reapTake => node.reapTake
  | .reapResolve fuel => node.reapResolve fuel
  | .reapRemove => node.reapRemove
  | .gcOnce id budgetPages => node.gcOnce id budgetPages
  | .gcApply => node.gcApply
  | .gcCommit => node.gcCommit
  | .gcFail => node.gcFail
  | .gcReserve => node.gcReserve
  | .gcPurge shipped => node.gcPurge shipped
  | .reserveDirect pages => node.reserveDirect pages
  | .shipDirect shipped => node.shipDirect shipped

end ComputeNode

end Compute
end ScaleKv
