import ScaleKv.Compute.ComputeNode

namespace ScaleKv
namespace Compute
namespace ComputeNode

open Foundation Option Std OrderedMap

variable {Value : Type}

/-!
# What one step of the compute node can do

The steps of the node, once more as a relation with a case for every outcome.
Several actions share a case when they do the same thing.  Proofs about runs go by these
cases and do not look into the definitions of the steps.
-/

/-- The key that the action wants to write. -/
def Action.target : Action Value -> Option (TxnId × Key)
  | .put id key _ => some (id, key)
  | .delete id key => some (id, key)
  | _ => none

/-- The ways in which a call ends its handle without going through the registry. -/
inductive Quits (node : ComputeNode Value) : Action Value -> TxnId -> Handle Value -> Outcome -> Prop
  | dropped {id handle} : node.handles[id]? = some handle -> handle.stage = .active ->
      Quits node (.drop id) id handle .dropped
  | closed {id handle action} : node.handles[id]? = some handle -> handle.stage = .active ->
      handle.readOnly = true -> Quits node action id handle .closed
  | unstarted {id handle action} : node.handles[id]? = some handle -> handle.stage = .active ->
      Quits node action id handle .failed
  | unstamped {id handle base rest action} : node.handles[id]? = some handle ->
      handle.stage = .prestamping base none rest -> Quits node action id handle .failed
  | lost {id handle base startLsn endLsn key rest row} : node.handles[id]? = some handle ->
      handle.stage = .stamping base startLsn endLsn none (key :: rest) ->
      node.tree[key]? = some row -> row.ownedBy id = false ->
      Quits node (.stampGet id) id handle .failed
  | unsealed {id handle base startLsn endLsn outcome error} : node.handles[id]? = some handle ->
      handle.stage = .stamping base startLsn endLsn none [] ->
      node.undo.commitFrom id base startLsn endLsn = some (.error error) ->
      Quits node (.ship id outcome) id handle .failed
  | rejected {id handle base startLsn endLsn outcome} : node.handles[id]? = some handle ->
      handle.stage = .stamping base startLsn endLsn none [] ->
      (outcome = .rejected ∨ oddPage handle = true) ->
      Quits node (.ship id outcome) id handle .failed

/-- What a read of a transaction leads to: an answer, or the next undo record. -/
inductive Reads (node : ComputeNode Value) (id : TxnId) (handle : Handle Value) :
    Action Value -> UndoLog Value -> Key -> Except Error (Option Value) ⊕ Option UndoPtr -> Prop
  | timedOut {key} : handle.timedOut node.now = true ->
      Reads node id handle (.get id key) node.undo key (.inl (.error .txnTimeout))
  | row {key result} :
      lookAt (handle.undoTxnId id) handle.readLsn node.tree[key]? = .answer result ->
      Reads node id handle (.get id key) node.undo key (.inl (.ok result))
  | newer {key ptr} :
      lookAt (handle.undoTxnId id) handle.readLsn node.tree[key]? = .undo ptr ->
      Reads node id handle (.get id key) node.undo key (.inr ptr)
  | nothing {key} : handle.walking = some (key, none) ->
      Reads node id handle (.walk id) node.undo key (.inl (.ok none))
  | missing {key ptr} : handle.walking = some (key, some ptr) ->
      Embedded.pageForRead node.undo id ptr.pageId = none ->
      Reads node id handle (.walk id) node.undo key (.inl (.error (.inMemoryPageMissing ptr.pageId)))
  | broken {key ptr page undo error} : handle.walking = some (key, some ptr) ->
      Embedded.pageForRead node.undo id ptr.pageId = some (page, undo) ->
      page.readRecord ptr.slotId = .error error ->
      Reads node id handle (.walk id) undo key (.inl (.error error))
  | record {key ptr page undo record result} : handle.walking = some (key, some ptr) ->
      Embedded.pageForRead node.undo id ptr.pageId = some (page, undo) ->
      page.readRecord ptr.slotId = .ok record ->
      lookAtRecord handle.readLsn record = .answer result ->
      Reads node id handle (.walk id) undo key (.inl (.ok result))
  | older {key ptr page undo record before} : handle.walking = some (key, some ptr) ->
      Embedded.pageForRead node.undo id ptr.pageId = some (page, undo) ->
      page.readRecord ptr.slotId = .ok record ->
      lookAtRecord handle.readLsn record = .undo before ->
      Reads node id handle (.walk id) undo key (.inr before)

/-- A handle after a read. -/
def hasRead (handle : Handle Value) (key : Key) :
    Except Error (Option Value) ⊕ Option UndoPtr -> Handle Value
  | .inl result => { handle with walking := none, answers := (key, result) :: handle.answers }
  | .inr ptr => { handle with walking := some (key, ptr) }

/-- The sequencer after the reservation of a direct batch that was refused. -/
def Refused (before after : Sequencer) : Prop :=
  after.nextLsn = before.nextLsn ∧ after.durableLsn = before.durableLsn ∧
    after.dispatchLsn = before.dispatchLsn

/-- The sequencer after a reservation. -/
structure Reserves (before after : Sequencer) (range : Reservation) : Prop where
  start : range.startLsn = before.nextLsn
  proper : range.startLsn < range.endLsn
  nextLsn : after.nextLsn = range.endLsn
  durableLsn : after.durableLsn = before.durableLsn
  dispatchLsn : after.dispatchLsn = before.dispatchLsn

inductive Moves (node : ComputeNode Value) : Action Value -> ComputeNode Value -> Prop
  | ticks : Moves node .tick { node with now := node.now + 1 }
  | begins {id readOnly timeout undo} : node.handles[id]? = none ->
      node.undo.beginTx id = some undo ->
      Moves node (.begin id readOnly timeout) (node.begun id readOnly timeout undo)
  | reads {action id handle undo key result} : node.handles[id]? = some handle ->
      handle.stage = .active -> Reads node id handle action undo key result ->
      Moves node action ({ node with undo := undo }.setHandle id (hasRead handle key result))
  | idles {action id handle} (pages : TreeMap PageId Nat) : node.handles[id]? = some handle ->
      handle.stage = .active ->
      Moves node action (node.setStage id { handle with pages := pages } .active)
  | writes {action id key handle value tombstone row undo} : action.target = some (id, key) ->
      node.handles[id]? = some handle -> handle.stage = .active -> handle.readOnly = false ->
      Embedded.intentRow node.undo id handle.readLsn value tombstone node.tree[key]? =
        some (.ok (row, undo)) ->
      Moves node action ({ node with undo := undo }.setStage id handle (.inserting key row))
  | inserts {id handle key row} : node.handles[id]? = some handle ->
      handle.stage = .inserting key row ->
      Moves node (.insert id) ((node.setTree id key (node.tree.insert key row)).setStage id
        { handle with
          modified := handle.modified.insert key
          placed := handle.placed.insert key row } (.recording key))
  | records {id handle key} : node.handles[id]? = some handle -> handle.stage = .recording key ->
      Moves node (.record id) ((node.registerWrite id key).setStage id handle .active)
  | quits {action id handle outcome} : Quits node action id handle outcome ->
      Moves node action (node.endHandle id handle outcome)
  | commits {action id handle base} : node.handles[id]? = some handle -> handle.stage = .active ->
      handle.readOnly = false -> node.undo.commitBase id = some (.ok base) ->
      Moves node action (node.setStage id handle (.prestamping base none handle.modified.toList))
  | prestampReads {id handle base key rest row} : node.handles[id]? = some handle ->
      handle.stage = .prestamping base none (key :: rest) -> node.tree[key]? = some row ->
      row.ownedBy id = true ->
      Moves node (.prestampGet id)
        (node.setStage id handle (.prestamping base (some row) (key :: rest)))
  | prestamps {id handle base key rest row} : node.handles[id]? = some handle ->
      handle.stage = .prestamping base (some row) (key :: rest) ->
      Moves node (.prestampInsert id)
        ((node.setTree id key (node.tree.insert key { row with commitLsn := 1 })).setStage id handle
          (.prestamping base none rest))
  | reserves {id handle base pages sequencer range} : node.handles[id]? = some handle ->
      handle.stage = .prestamping base none [] -> range.holder = some id ->
      Reserves node.sequencer sequencer range ->
      Moves node (.reserve id pages)
        ({ node with sequencer := sequencer, reserved := node.reserved ++ [range] }.setStage id handle
          (.stamping base range.startLsn range.endLsn none handle.modified.toList))
  | stampReads {id handle base startLsn endLsn key rest row} : node.handles[id]? = some handle ->
      handle.stage = .stamping base startLsn endLsn none (key :: rest) ->
      node.tree[key]? = some row -> row.ownedBy id = true ->
      Moves node (.stampGet id)
        (node.setStage id handle (.stamping base startLsn endLsn (some row) (key :: rest)))
  | stampSkips {id handle base startLsn endLsn key rest} : node.handles[id]? = some handle ->
      handle.stage = .stamping base startLsn endLsn none (key :: rest) -> node.tree[key]? = none ->
      Moves node (.stampGet id)
        (node.setStage id handle (.stamping base startLsn endLsn none rest))
  | stamps {id handle base startLsn endLsn key rest row} : node.handles[id]? = some handle ->
      handle.stage = .stamping base startLsn endLsn (some row) (key :: rest) ->
      Moves node (.stampInsert id)
        ({ node.setTree id key (node.tree.insert key (Embedded.stampedRow row endLsn)) with
          chains := addVersion node.chains key (endLsn, row.visible) }.setStage id handle
            (.stamping base startLsn endLsn none rest))
  | misses {id handle base startLsn endLsn undo} : node.handles[id]? = some handle ->
      handle.stage = .stamping base startLsn endLsn none [] ->
      node.undo.commitFrom id base startLsn endLsn = some (.ok undo) -> oddPage handle = false ->
      node.sequencer.dispatchLsn = startLsn ->
      Moves node (.ship id .missed) ({ node with
        sequencer := dispatched node.sequencer endLsn false
        reserved := node.reserved.tail }.endHandle id handle .failed)
  | ships {id handle base startLsn endLsn undo} : node.handles[id]? = some handle ->
      handle.stage = .stamping base startLsn endLsn none [] ->
      node.undo.commitFrom id base startLsn endLsn = some (.ok undo) -> oddPage handle = false ->
      node.sequencer.dispatchLsn = startLsn ->
      Moves node (.ship id .shipped) ({ node with
        sequencer := dispatched node.sequencer endLsn true
        reserved := node.reserved.tail
        undo := undo
        versions := Embedded.addVersions node.versions endLsn
          (handle.placed.map (fun _ (row : Row Value) => row.visible)) }.setStage id handle
            (.leaving (.committed endLsn)))
  | aborts {id handle} : node.handles[id]? = some handle -> handle.stage = .active ->
      handle.readOnly = false ->
      Moves node (.abort id)
        (node.setStage id handle (.resolving .reading handle.modified.toList))
  | resolveStands {id fuel handle stands key rest next} : node.handles[id]? = some handle ->
      handle.stage = .resolving stands (key :: rest) ->
      node.resolveStep id key fuel stands = some (.stands next) ->
      Moves node (.resolve id fuel) (node.setStage id handle (.resolving next (key :: rest)))
  | resolveSkips {id fuel handle stands key rest} : node.handles[id]? = some handle ->
      handle.stage = .resolving stands (key :: rest) ->
      node.resolveStep id key fuel stands = some .skipped ->
      Moves node (.resolve id fuel) (node.setStage id handle (.resolving .reading rest))
  | restores {id fuel handle point key rest} : node.handles[id]? = some handle ->
      handle.stage = .resolving (.checked point) (key :: rest) ->
      Moves node (.resolve id fuel)
        ((node.setTree id key (restore node.tree key point)).setStage id handle
          (.resolving .reading rest))
  | resolveFails {id fuel handle stands key rest} : node.handles[id]? = some handle ->
      handle.stage = .resolving stands (key :: rest) ->
      node.resolveStep id key fuel stands = some .error ->
      Moves node (.resolve id fuel) (node.leave id handle .failed)
  | resolveEnds {id fuel handle stands} : node.handles[id]? = some handle ->
      handle.stage = .resolving stands [] ->
      Moves node (.resolve id fuel) (node.leave id handle .aborted)
  | finishes {id handle outcome} : node.handles[id]? = some handle ->
      handle.stage = .leaving outcome ->
      Moves node (.finish id)
        ({ node with registry := node.registry.erase id }.endHandle id handle outcome)
  | reapStarts {expired} : node.reaper = none ->
      expired = (node.registry.toList.filter (fun entry => entry.2.deadline ≤ node.now)).map Prod.fst ->
      Moves node .reapStart { node with reaper := some ⟨expired, none⟩ }
  | reapTakes {id rest keys} : node.reaper = some ⟨id :: rest, none⟩ ->
      (keys = [] ∧ (∀ pending, node.registry[id]? = some pending -> node.now < pending.deadline) ∨
        ∃ pending, node.registry[id]? = some pending ∧ pending.deadline ≤ node.now ∧
          keys = pending.writeKeys.toList) ->
      Moves node .reapTake { node with reaper := some ⟨rest, some ⟨id, keys, .reading⟩⟩ }
  | reapStands {fuel expired id key rest stands next} :
      node.reaper = some ⟨expired, some ⟨id, key :: rest, stands⟩⟩ ->
      node.resolveStep id key fuel stands = some (.stands next) ->
      Moves node (.reapResolve fuel)
        { node with reaper := some ⟨expired, some ⟨id, key :: rest, next⟩⟩ }
  | reapSkips {fuel expired id key rest stands} :
      node.reaper = some ⟨expired, some ⟨id, key :: rest, stands⟩⟩ ->
      node.resolveStep id key fuel stands = some .skipped ->
      Moves node (.reapResolve fuel)
        { node with reaper := some ⟨expired, some ⟨id, rest, .reading⟩⟩ }
  | reapRestores {fuel expired id key rest point} :
      node.reaper = some ⟨expired, some ⟨id, key :: rest, .checked point⟩⟩ ->
      Moves node (.reapResolve fuel)
        { node.setTree id key (restore node.tree key point) with
          reaper := some ⟨expired, some ⟨id, rest, .reading⟩⟩ }
  | reapFails {fuel expired id key rest stands} :
      node.reaper = some ⟨expired, some ⟨id, key :: rest, stands⟩⟩ ->
      node.resolveStep id key fuel stands = some .error ->
      Moves node (.reapResolve fuel)
        { node with reaper := some ⟨expired, some ⟨id, [], .reading⟩⟩ }
  | reapRemoves {expired id stands reaper} :
      node.reaper = some ⟨expired, some ⟨id, [], stands⟩⟩ ->
      (reaper = none ∨ reaper = some ⟨expired, none⟩) ->
      Moves node .reapRemove { node with registry := node.registry.erase id, reaper := reaper }
  | gcStarts {id budgetPages undo} : node.gc = none -> node.handles[id]? = none ->
      node.undo.beginTx id = some undo ->
      Moves node (.gcOnce id budgetPages) { node.begun id false none undo with
        gc := some (gcScan node.tree id node.gcLsn budgetPages) }
  | gcRemoves {run key rest} : node.gc = some run -> run.removals = key :: rest ->
      Moves node .gcApply { node.setTree run.txnId key (node.tree.erase key) with
        gc := some { run with removals := rest } }
  | gcUpdates {run key row rest} : node.gc = some run -> run.removals = [] ->
      run.updates = (key, row) :: rest ->
      Moves node .gcApply { node.setTree run.txnId key (node.tree.insert key row) with
        gc := some { run with updates := rest } }
  | gcFails {run} : node.gc = some run -> Moves node .gcFail { node with gc := none }
  | gcRefused {run left sequencer} : node.gcReady = some (run, left) -> node.purge = none ->
      Refused node.sequencer sequencer ->
      Moves node .gcReserve ({ node with sequencer := sequencer }.gcReturn run.txnId left)
  | gcReserves {run left sequencer range batch} : node.gcReady = some (run, left) ->
      node.purge = none -> range.holder = none -> Reserves node.sequencer sequencer range ->
      Moves node .gcReserve { node with
        sequencer := sequencer
        purge := some range
        purgeBatch := batch
        reserved := node.reserved ++ [range] }
  | gcReturns {run left} : node.gcReady = some (run, left) -> node.purge = none ->
      Moves node .gcReserve (node.gcReturn run.txnId left)
  | gcPurges {run left range} : node.gcReady = some (run, left) -> node.purge = some range ->
      node.sequencer.dispatchLsn = range.startLsn ->
      Moves node (.gcPurge true) ({ node with
        sequencer := dispatched node.sequencer range.endLsn true
        reserved := node.reserved.tail
        undo := node.undo.overwrite node.purgeBatch }.gcReturn run.txnId left)
  | gcMisses {run left range} : node.gcReady = some (run, left) -> node.purge = some range ->
      node.sequencer.dispatchLsn = range.startLsn ->
      Moves node (.gcPurge false) ({ node with
        sequencer := dispatched node.sequencer range.endLsn false
        reserved := node.reserved.tail }.gcReturn run.txnId left)
  | directRefused {pages sequencer} : Refused node.sequencer sequencer ->
      Moves node (.reserveDirect pages) { node with sequencer := sequencer }
  | directReserves {pages sequencer range} : range.holder = none ->
      Reserves node.sequencer sequencer range ->
      Moves node (.reserveDirect pages) { node with
        sequencer := sequencer
        batches := node.batches ++ [range]
        reserved := node.reserved ++ [range] }
  | directShips {shipped batch} : batch ∈ node.batches ->
      batch.startLsn = node.sequencer.dispatchLsn ->
      Moves node (.shipDirect shipped) { node with
        sequencer := dispatched node.sequencer batch.endLsn shipped
        batches := node.batches.erase batch
        reserved := node.reserved.tail }

variable {node next : ComputeNode Value} {id : TxnId} {key : Key}

/-! ## Every step is one of these -/

variable {handle : Handle Value} {action : Action Value} {fuel pages : Nat}
  {tree : TreeMap Key (Row Value)}

theorem idle_eq_some (idle : node.idle id = some handle) :
    node.handles[id]? = some handle ∧ handle.stage = .active := by
  rcases bind_eq_some_iff.mp idle with ⟨_, present, rest⟩
  split at rest
  · next active =>
    split at rest
    · cases rest
    · cases rest
      exact ⟨present, active⟩
  · cases rest

theorem beginTx_eq_some {readOnly : Bool} {timeout : Option Nat}
    (taken : node.beginTx id readOnly timeout = some next) :
    node.handles[id]? = none ∧ ∃ undo, node.undo.beginTx id = some undo ∧
      next = node.begun id readOnly timeout undo := by
  unfold beginTx at taken
  split at taken
  · cases taken
  · next fresh =>
    rcases map_eq_some_iff.mp taken with ⟨undo, begun, rfl⟩
    refine ⟨?_, undo, begun, rfl⟩
    simpa [← TreeMap.isSome_getElem?_eq_contains] using fresh

theorem moves_of_get (taken : node.get id key = some next) : Moves node (.get id key) next := by
  rcases bind_eq_some_iff.mp taken with ⟨_, idle, rest⟩
  rcases idle_eq_some idle with ⟨present, active⟩
  split at rest
  · next late =>
    cases rest
    exact .reads present active (.timedOut late)
  · split at rest
    · next _ looked =>
      cases rest
      exact .reads present active (.row looked)
    · next _ looked =>
      cases rest
      exact .reads present active (.newer looked)
    · cases rest

theorem moves_of_walk (taken : node.walk id = some next) : Moves node (.walk id) next := by
  rcases bind_eq_some_iff.mp taken with ⟨_, idle, rest⟩
  rcases idle_eq_some idle with ⟨present, active⟩
  split at rest
  · next _ walking =>
    cases rest
    exact .reads present active (.nothing walking)
  · next _ _ walking =>
    split at rest
    · next missing =>
      cases rest
      exact .reads present active (.missing walking missing)
    · next _ _ found =>
      split at rest
      · next _ failed =>
        cases rest
        exact .reads present active (.broken walking found failed)
      · next record readOk =>
        split at rest
        · next _ looked =>
          cases rest
          exact .reads present active (.record walking found readOk looked)
        · next _ looked =>
          cases rest
          exact .reads present active (.older walking found readOk looked)
        · cases rest
  · cases rest

theorem moves_of_write {value : Value} {tombstone : Bool} (target : action.target = some (id, key))
    (taken : node.write id key value tombstone = some next) : Moves node action next := by
  rcases bind_eq_some_iff.mp taken with ⟨handle, idle, rest⟩
  rcases idle_eq_some idle with ⟨present, active⟩
  split at rest
  · cases rest
    exact .idles handle.pages present active
  · next allowed =>
    rcases bind_eq_some_iff.mp rest with ⟨_, decided, rest⟩
    split at rest
    · cases rest
      exact .idles handle.pages present active
    · next _ _ =>
      cases rest
      refine .writes target present active ?_ decided
      cases reads : handle.readOnly with
      | false => rfl
      | true =>
        rw [reads] at allowed
        exact absurd rfl allowed

theorem moves_of_startCommit (action : Action Value) (present : node.handles[id]? = some handle)
    (active : handle.stage = .active) (taken : node.startCommit id handle = some next) :
    Moves node action next := by
  unfold startCommit at taken
  split at taken
  · cases taken
    exact .quits (.unstarted present active)
  · split at taken
    · next reads =>
      cases taken
      exact .quits (.closed present active reads)
    · next writes =>
      rcases map_eq_some_iff.mp taken with ⟨copied, isCopied, rfl⟩
      cases copied with
      | error => exact .quits (.unstarted present active)
      | ok => exact .commits present active (Bool.eq_false_iff.mpr writes) isCopied

theorem reserves_cases (sequencer : Sequencer) (pages requestId : Nat) (holder : Option TxnId) :
    (∃ error, sequencer.reserveTxnWithRequestId pages requestId = (.error error, sequencer)) ∨
      ∃ startLsn endLsn after,
        sequencer.reserveTxnWithRequestId pages requestId = (.ok (startLsn, endLsn), after) ∧
          Reserves sequencer after ⟨holder, startLsn, endLsn⟩ := by
  rcases sequencer.reserveTxnWithRequestId_cases pages requestId with
    ⟨_, error, refused⟩ | ⟨_, reserved⟩
  · exact .inl ⟨error, refused⟩
  · refine .inr ⟨_, _, _, reserved, rfl, ?_, rfl, rfl, rfl⟩
    show sequencer.nextLsn < sequencer.nextLsn + pages
    omega

theorem moves_of_reserve (taken : node.reserve id pages = some next) :
    Moves node (.reserve id pages) next := by
  rcases bind_eq_some_iff.mp taken with ⟨handle, present, rest⟩
  split at rest
  · next base stage =>
    rcases reserves_cases node.sequencer pages id (some id) with
      ⟨_, refused⟩ | ⟨startLsn, endLsn, after, done, reserves⟩
    · rw [refused] at rest
      cases rest
      exact .quits (.unstamped present stage)
    · rw [done] at rest
      cases rest
      exact @Moves.reserves Value node id handle base pages after ⟨some id, startLsn, endLsn⟩ present stage
        rfl reserves
  · cases rest

theorem moves_of_ship {outcome : ShipOutcome} (taken : node.ship id outcome = some next) :
    Moves node (.ship id outcome) next := by
  rcases bind_eq_some_iff.mp taken with ⟨_, present, rest⟩
  split at rest
  · next _ _ _ stage =>
    rcases bind_eq_some_iff.mp rest with ⟨_, isSealed, rest⟩
    split at rest
    · next _ =>
      cases rest
      exact .quits (.unsealed present stage isSealed)
    · next _ =>
      split at rest
      · next refused =>
        cases rest
        exact .quits (.rejected present stage refused)
      · next accepted =>
        rw [not_or, Bool.not_eq_true] at accepted
        split at rest
        · cases rest
        · next turn =>
          rw [not_not] at turn
          cases outcome with
          | rejected => exact absurd rfl accepted.1
          | missed =>
            cases rest
            exact .misses present stage isSealed accepted.2 turn
          | shipped =>
            cases rest
            exact .ships present stage isSealed accepted.2 turn
  · cases rest

theorem resolveStep_eq_restored {stands : ResolveAt Value}
    (resolved : node.resolveStep id key fuel stands = some (.restored tree)) :
    ∃ point, stands = .checked point ∧ tree = restore node.tree key point := by
  cases stands with
  | reading =>
    unfold resolveStep at resolved
    dsimp only at resolved
    split at resolved
    · cases resolved
    · split at resolved
      · rcases map_eq_some_iff.mp resolved with ⟨found, _, isRestored⟩
        cases found <;> cases isRestored
      · cases resolved
  | decided =>
    unfold resolveStep at resolved
    dsimp only at resolved
    split at resolved <;> cases resolved
  | checked point =>
    cases resolved
    exact ⟨point, rfl, rfl⟩

theorem moves_of_resolve (taken : node.resolve id fuel = some next) :
    Moves node (.resolve id fuel) next := by
  rcases bind_eq_some_iff.mp taken with ⟨_, present, rest⟩
  split at rest
  · next _ stage =>
    cases rest
    exact .resolveEnds present stage
  · next _ _ _ stage =>
    rcases bind_eq_some_iff.mp rest with ⟨_, isResolved, rest⟩
    split at rest
    · cases rest
      exact .resolveStands present stage isResolved
    · cases rest
      exact .resolveSkips present stage isResolved
    · rcases resolveStep_eq_restored isResolved with ⟨_, rfl, rfl⟩
      cases rest
      exact .restores present stage
    · cases rest
      exact .resolveFails present stage isResolved
  · cases rest

theorem moves_of_reapTake (taken : node.reapTake = some next) : Moves node .reapTake next := by
  rcases bind_eq_some_iff.mp taken with ⟨⟨_, _⟩, running, rest⟩
  split at rest
  · next id others noJob isExpired =>
    cases rest
    have pass : node.reaper = some ⟨id :: others, none⟩ := by
      rw [running, ← noJob, ← isExpired]
    refine .reapTakes pass ?_
    cases found : node.registry[id]? with
    | none => exact .inl ⟨rfl, fun pending impossible => by cases impossible⟩
    | some pending =>
      dsimp only
      by_cases late : pending.deadline ≤ node.now
      · rw [if_pos late]
        exact .inr ⟨pending, rfl, late, rfl⟩
      · rw [if_neg late]
        refine .inl ⟨rfl, ?_⟩
        intro _ same
        cases same
        exact Nat.lt_of_not_le late
  · cases rest

theorem moves_of_reapResolve (taken : node.reapResolve fuel = some next) :
    Moves node (.reapResolve fuel) next := by
  rcases bind_eq_some_iff.mp taken with ⟨⟨expired, _⟩, running, rest⟩
  split at rest
  · next id key keys stands isJob =>
    have pass : node.reaper = some ⟨expired, some ⟨id, key :: keys, stands⟩⟩ := by
      rw [running, ← isJob]
    rcases bind_eq_some_iff.mp rest with ⟨_, isResolved, rest⟩
    split at rest
    · cases rest
      exact .reapStands pass isResolved
    · cases rest
      exact .reapSkips pass isResolved
    · rcases resolveStep_eq_restored isResolved with ⟨_, rfl, rfl⟩
      cases rest
      exact .reapRestores pass
    · cases rest
      exact .reapFails pass isResolved
  · cases rest

theorem moves_of_reapRemove (taken : node.reapRemove = some next) : Moves node .reapRemove next := by
  rcases bind_eq_some_iff.mp taken with ⟨⟨expired, _⟩, running, rest⟩
  split at rest
  · next id stands isJob =>
    have pass : node.reaper = some ⟨expired, some ⟨id, [], stands⟩⟩ := by
      rw [running, ← isJob]
    cases rest
    refine .reapRemoves pass ?_
    split
    · exact .inl rfl
    · exact .inr rfl
  · cases rest

theorem moves_of_gcApply (taken : node.gcApply = some next) : Moves node .gcApply next := by
  rcases bind_eq_some_iff.mp taken with ⟨_, running, rest⟩
  split at rest
  · next removals =>
    cases rest
    exact .gcRemoves running removals
  · next _ _ _ removals updates =>
    cases rest
    exact .gcUpdates running removals updates
  · cases rest

theorem moves_of_gcReserve (taken : node.gcReserve = some next) : Moves node .gcReserve next := by
  rcases bind_eq_some_iff.mp taken with ⟨⟨_, _⟩, ready, rest⟩
  rcases bind_eq_some_iff.mp rest with ⟨_, -, rest⟩
  split at rest
  · cases rest
  · next unreserved =>
    cases rest
    exact .gcReturns ready unreserved
  · next batch unreserved =>
    split at rest
    · cases rest
      exact .gcReturns ready unreserved
    · dsimp only at rest
      rcases reserves_cases node.sequencer.allocateRequestId.2 (batch.dirtyPages.size + 1)
        node.sequencer.allocateRequestId.1 none with
        ⟨_, refused⟩ | ⟨_, _, _, done, reserves⟩
      · rw [refused] at rest
        cases rest
        exact .gcRefused ready unreserved ⟨rfl, rfl, rfl⟩
      · rw [done] at rest
        cases rest
        exact .gcReserves ready unreserved rfl { reserves with }

theorem moves_of_gcPurge {shipped : Bool} (taken : node.gcPurge shipped = some next) :
    Moves node (.gcPurge shipped) next := by
  rcases bind_eq_some_iff.mp taken with ⟨⟨_, _⟩, ready, rest⟩
  rcases bind_eq_some_iff.mp rest with ⟨_, reserved, rest⟩
  split at rest
  · cases rest
  · next turn =>
    rw [not_not] at turn
    cases shipped with
    | true =>
      cases rest
      exact .gcPurges ready reserved turn
    | false =>
      cases rest
      exact .gcMisses ready reserved turn

theorem moves_of_reserveDirect (taken : node.reserveDirect pages = some next) :
    Moves node (.reserveDirect pages) next := by
  unfold reserveDirect at taken
  dsimp only at taken
  rcases reserves_cases node.sequencer.allocateRequestId.2 pages node.sequencer.allocateRequestId.1
    none with
    ⟨_, refused⟩ | ⟨_, _, _, done, reserves⟩
  · rw [refused] at taken
    cases taken
    exact .directRefused ⟨rfl, rfl, rfl⟩
  · rw [done] at taken
    cases taken
    exact .directReserves rfl { reserves with }

theorem moves_of_step (taken : node.step action = some next) : Moves node action next := by
  cases action with
  | tick =>
    cases taken
    exact .ticks
  | begin =>
    rcases beginTx_eq_some taken with ⟨fresh, _, begun, rfl⟩
    exact .begins fresh begun
  | get => exact moves_of_get taken
  | walk => exact moves_of_walk taken
  | put => exact moves_of_write rfl taken
  | delete id key =>
    have deleted : node.delete id key = some next := taken
    unfold delete at deleted
    split at deleted
    · exact moves_of_write rfl deleted
    · rcases map_eq_some_iff.mp deleted with ⟨handle, idle, rfl⟩
      rcases idle_eq_some idle with ⟨present, active⟩
      exact .idles handle.pages present active
  | insert =>
    rcases bind_eq_some_iff.mp taken with ⟨_, present, rest⟩
    split at rest
    · next _ _ stage =>
      cases rest
      exact .inserts present stage
    · cases rest
  | record =>
    rcases bind_eq_some_iff.mp taken with ⟨_, present, rest⟩
    split at rest
    · next _ stage =>
      cases rest
      exact .records present stage
    · cases rest
  | writePage =>
    rcases bind_eq_some_iff.mp taken with ⟨handle, idle, rest⟩
    rcases idle_eq_some idle with ⟨present, active⟩
    split at rest
    · cases rest
      exact .idles handle.pages present active
    · cases rest
      exact .idles _ present active
  | drop =>
    rcases map_eq_some_iff.mp taken with ⟨_, idle, rfl⟩
    rcases idle_eq_some idle with ⟨present, active⟩
    exact .quits (.dropped present active)
  | commit =>
    rcases bind_eq_some_iff.mp taken with ⟨_, idle, rest⟩
    rcases idle_eq_some idle with ⟨present, active⟩
    exact moves_of_startCommit _ present active rest
  | prestampGet =>
    rcases bind_eq_some_iff.mp taken with ⟨_, present, rest⟩
    split at rest
    · next _ _ _ stage =>
      split at rest
      · next _ found =>
        split at rest
        · next owned =>
          cases rest
          exact .prestampReads present stage found owned
        · cases rest
          exact .quits (.unstamped present stage)
      · cases rest
        exact .quits (.unstamped present stage)
    · cases rest
  | prestampInsert =>
    rcases bind_eq_some_iff.mp taken with ⟨_, present, rest⟩
    split at rest
    · next _ _ _ _ stage =>
      cases rest
      exact .prestamps present stage
    · cases rest
  | reserve => exact moves_of_reserve taken
  | stampGet =>
    rcases bind_eq_some_iff.mp taken with ⟨_, present, rest⟩
    split at rest
    · next _ _ _ _ _ stage =>
      split at rest
      · next _ found =>
        split at rest
        · next owned =>
          cases rest
          exact .stampReads present stage found owned
        · next foreign =>
          cases rest
          exact .quits (.lost present stage found (Bool.eq_false_iff.mpr foreign))
      · next missing =>
        cases rest
        exact .stampSkips present stage missing
    · cases rest
  | stampInsert =>
    rcases bind_eq_some_iff.mp taken with ⟨_, present, rest⟩
    split at rest
    · next _ _ _ _ _ _ stage =>
      cases rest
      exact .stamps present stage
    · cases rest
  | ship => exact moves_of_ship taken
  | abort =>
    rcases bind_eq_some_iff.mp taken with ⟨_, idle, rest⟩
    rcases idle_eq_some idle with ⟨present, active⟩
    split at rest
    · next reads =>
      cases rest
      exact .quits (.closed present active reads)
    · next writes =>
      cases rest
      exact .aborts present active (Bool.eq_false_iff.mpr writes)
  | resolve => exact moves_of_resolve taken
  | finish =>
    rcases bind_eq_some_iff.mp taken with ⟨_, present, rest⟩
    split at rest
    · next _ stage =>
      cases rest
      exact .finishes present stage
    · cases rest
  | reapStart =>
    have started : node.reapStart = some next := taken
    unfold reapStart at started
    split at started
    · cases started
    · next sleeping =>
      dsimp only at started
      split at started
      · cases started
      · cases started
        exact .reapStarts sleeping rfl
  | reapTake => exact moves_of_reapTake taken
  | reapResolve => exact moves_of_reapResolve taken
  | reapRemove => exact moves_of_reapRemove taken
  | gcOnce id budgetPages =>
    have started : node.gcOnce id budgetPages = some next := taken
    unfold gcOnce at started
    split at started
    · cases started
    · next ready =>
      rcases map_eq_some_iff.mp started with ⟨_, isBegun, rfl⟩
      rcases beginTx_eq_some isBegun with ⟨fresh, _, undoBegun, rfl⟩
      rw [not_or, Bool.not_eq_true, isSome_eq_false_iff, isNone_iff_eq_none] at ready
      exact .gcStarts ready.2 fresh undoBegun
  | gcApply => exact moves_of_gcApply taken
  | gcCommit =>
    rcases bind_eq_some_iff.mp taken with ⟨_, _, rest⟩
    rcases bind_eq_some_iff.mp rest with ⟨_, present, rest⟩
    split at rest
    · next active _ => exact moves_of_startCommit _ present active rest
    · cases rest
  | gcFail =>
    rcases bind_eq_some_iff.mp taken with ⟨_, running, rest⟩
    rcases bind_eq_some_iff.mp rest with ⟨_, _, rest⟩
    split at rest
    · cases rest
      exact .gcFails running
    · cases rest
  | gcReserve => exact moves_of_gcReserve taken
  | gcPurge => exact moves_of_gcPurge taken
  | reserveDirect => exact moves_of_reserveDirect taken
  | shipDirect =>
    rcases bind_eq_some_iff.mp taken with ⟨_, found, rest⟩
    cases rest
    have turn := List.find?_some found
    rw [decide_eq_true_eq] at turn
    exact .directShips (List.mem_of_find?_eq_some found) turn

/-! ## The handles after a step -/

section

variable {handle : Handle Value}

/-- Where `gc_once` still has a handle, the handle is idle. -/
theorem gcReady_eq_some {run : GcRun Value} {left : Option (Handle Value)}
    (ready : node.gcReady = some (run, left)) : node.gc = some run ∧
      ∀ handle, left = some handle -> node.handles[run.txnId]? = some handle ∧
        handle.stage = .active := by
  rcases bind_eq_some_iff.mp ready with ⟨_, running, rest⟩
  rcases bind_eq_some_iff.mp rest with ⟨_, present, rest⟩
  split at rest
  · next active _ =>
    cases rest
    refine ⟨running, ?_⟩
    intro _ same
    cases same
    exact ⟨present, active⟩
  · cases rest
    refine ⟨running, ?_⟩
    intro _ same
    cases same
  · cases rest

end

/-! ## Rows that are written back -/

/-- The row that the handle has read and is about to write. -/
def inHand (handle : Handle Value) : Option (Key × Row Value) :=
  match handle.stage with
  | .prestamping _ (some row) (key :: _) => some (key, row)
  | .stamping _ _ _ (some row) (key :: _) => some (key, row)
  | _ => none

theorem restore_elsewhere {other : Key} (point : Option (UndoRecord Value))
    (different : key ≠ other) : (restore tree key point)[other]? = tree[other]? := by
  cases point with
  | none => exact (lookup_erase _ _ _).trans (if_neg different)
  | some =>
    unfold restore
    dsimp only
    split
    · exact (lookup_erase _ _ _).trans (if_neg different)
    · exact lookup_insert_of_ne _ _ different

theorem restore_version {point : Option (UndoRecord Value)} {row : Row Value}
    (stored : (restore tree key point)[key]? = some row) : row.flags.intent = false := by
  have erased : (tree.erase key)[key]? ≠ some row := by
    rw [lookup_erase, if_pos rfl]
    nofun
  cases point with
  | none => exact absurd stored erased
  | some =>
    unfold restore at stored
    dsimp only at stored
    split at stored
    · exact absurd stored erased
    · rw [lookup_insert, if_pos rfl] at stored
      cases stored
      rfl

end ComputeNode

end Compute
end ScaleKv
