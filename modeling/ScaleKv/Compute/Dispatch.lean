import ScaleKv.Compute.Sequencer
import ScaleKv.Foundation.Tiling

namespace ScaleKv
namespace Compute

open Foundation Sequencer List Option Function OrderedMap Std

/-!
# Dispatch in the order of the log

`commit_reserved_txn_batch` waits until the dispatch counter has come to the
start of its range, sends the batch to all clients, waits for all answers, raises
the durable counter and only then moves the dispatch counter to the end of its
range.  The counters are plain atomics, so every access is a step of its own
here, and any number of calls may stand at any of these points.

The clients are seen through what they get and what they answer.  The page
images of a batch play no part in its order and are left out.
-/

/-- What `reserve_txn` hands out, and `commit_reserved_txn_batch` is called with. -/
structure Batch where
  requestId : Nat
  startLsn : Nat
  endLsn : Nat
deriving DecidableEq

/-- Where a call stands: before its turn, in its fan-out, between the two writes
to the counters, and after its end. -/
inductive CallStage
  | waiting
  | sending
  | leaving (result : Except Error Nat)
  | returned (result : Except Error Nat)

/-- A call of `commit_reserved_txn_batch` with what its clients have got and
answered. -/
structure Call (nodes : Nat) where
  batch : Batch
  stage : CallStage
  sent : Fin nodes -> Bool
  answers : Fin nodes -> Option (Except String (Nat × Nat))

/-- The sequencer, the ranges that no call has been made for, and the calls.  The
last two fields record the past: the ranges that have been reserved and not
dispatched, and the batches that every client has got. -/
structure Dispatch (nodes : Nat) where
  sequencer : Sequencer
  reserved : List Batch
  calls : TreeMap Nat (Call nodes)
  undispatched : List Batch
  received : Fin nodes -> List Batch

namespace Dispatch

variable {nodes : Nat}

def connected (sequencer : Sequencer) : Dispatch nodes :=
  { sequencer := sequencer, reserved := [], calls := ∅, undispatched := [], received := fun _ => [] }

/-- `reserve_txn_with_request_id`. -/
def reserveTxnWithRequestId (state : Dispatch nodes) (nWrites requestId : Nat) : Dispatch nodes :=
  match state.sequencer.reserveTxnWithRequestId nWrites requestId with
  | (.error _, sequencer) => { state with sequencer := sequencer }
  | (.ok (startLsn, endLsn), sequencer) =>
    let batch : Batch := ⟨requestId, startLsn, endLsn⟩
    { state with
      sequencer := sequencer
      reserved := state.reserved ++ [batch]
      undispatched := state.undispatched ++ [batch] }

/-- `reserve_txn`. -/
def reserveTxn (state : Dispatch nodes) (nWrites : Nat) : Dispatch nodes :=
  let (requestId, sequencer) := state.sequencer.allocateRequestId
  { state with sequencer := sequencer }.reserveTxnWithRequestId nWrites requestId

def setCall (state : Dispatch nodes) (id : Nat) (call : Call nodes) : Dispatch nodes :=
  { state with calls := state.calls.insert id call }

/-- `commit_reserved_txn_batch` is called with a reserved range, which no other
call gets then. -/
def start (state : Dispatch nodes) (id : Nat) (batch : Batch) : Option (Dispatch nodes) :=
  if state.calls.contains id ∨ batch ∉ state.reserved then none
  else
    some ({ state with reserved := state.reserved.erase batch }.setCall id
      { batch := batch, stage := .waiting, sent := fun _ => false, answers := fun _ => none })

/-- A look at the dispatch counter.  A call whose turn has not come looks again
later. -/
def look (state : Dispatch nodes) (id : Nat) : Option (Dispatch nodes) := do
  let call <- state.calls[id]?
  match call.stage with
  | .waiting =>
    let current := state.sequencer.dispatchLsn
    if current = call.batch.startLsn then return state.setCall id { call with stage := .sending }
    else if call.batch.startLsn < current then
      return state.setCall id { call with stage := .returned (.error (.io .invalidInput
        s!"stale reserved range: start_lsn={call.batch.startLsn} dispatch_lsn={current}")) }
    else return state
  | _ => none

def send (state : Dispatch nodes) (id : Nat) (node : Fin nodes) : Option (Dispatch nodes) := do
  let call <- state.calls[id]?
  match call.stage, call.sent node with
  | .sending, false =>
    return { state with
      received := update state.received node (state.received node ++ [call.batch])
    }.setCall id { call with sent := update call.sent node true }
  | _, _ => none

/-- A client that has got the batch answers. -/
def answer (state : Dispatch nodes) (id : Nat) (node : Fin nodes)
    (result : Except String (Nat × Nat)) : Option (Dispatch nodes) := do
  let call <- state.calls[id]?
  match call.stage, call.sent node, call.answers node with
  | .sending, true, none =>
    return state.setCall id
      { call with answers := update call.answers node (some result) }
  | _, _, _ => none

def results (call : Call nodes) : List (Except String (Nat × Nat)) :=
  (List.finRange nodes).filterMap call.answers

/-- All answers are there: `durable_lsn.fetch_max`, if they make a quorum. -/
def settle (state : Dispatch nodes) (id : Nat) : Option (Dispatch nodes) := do
  let call <- state.calls[id]?
  match call.stage with
  | .sending =>
    if (List.finRange nodes).all (fun node => (call.answers node).isSome) then
      let (result, after) := state.sequencer.finish call.batch.endLsn (results call)
      return { state with
        sequencer := { state.sequencer with durableLsn := after.durableLsn }
      }.setCall id { call with stage := .leaving result }
    else none
  | _ => none

/-- `dispatch_lsn.store`, with which the call ends. -/
def release (state : Dispatch nodes) (id : Nat) : Option (Dispatch nodes) := do
  let call <- state.calls[id]?
  match call.stage with
  | .leaving result =>
    return { state with
      sequencer := { state.sequencer with dispatchLsn := call.batch.endLsn }
      undispatched := state.undispatched.tail
    }.setCall id { call with stage := .returned result }
  | _ => none

inductive Action (nodes : Nat)
  | reserveTxn (nWrites : Nat)
  | reserveTxnWithRequestId (nWrites requestId : Nat)
  | start (id : Nat) (batch : Batch)
  | look (id : Nat)
  | send (id : Nat) (node : Fin nodes)
  | answer (id : Nat) (node : Fin nodes) (result : Except String (Nat × Nat))
  | settle (id : Nat)
  | release (id : Nat)

def step (state : Dispatch nodes) : Action nodes -> Option (Dispatch nodes)
  | .reserveTxn nWrites => some (state.reserveTxn nWrites)
  | .reserveTxnWithRequestId nWrites requestId => some (state.reserveTxnWithRequestId nWrites requestId)
  | .start id batch => state.start id batch
  | .look id => state.look id
  | .send id node => state.send id node
  | .answer id node result => state.answer id node result
  | .settle id => state.settle id
  | .release id => state.release id

/-! ## What is claimed -/

/-- A node has accepted the batch of the call. -/
def accepted (call : Call nodes) (node : Fin nodes) : Bool :=
  match call.answers node with
  | some (.ok _) => true
  | _ => false

/-- Nodes answer an accepted batch with its end. -/
def answersEnd (state : Dispatch nodes) : Action nodes -> Prop
  | .answer id _ (.ok (commit, _)) =>
    (state.calls[id]?.map (fun call => call.batch.endLsn)) = some commit
  | _ => True

instance answersEndDecidable (state : Dispatch nodes) (action : Action nodes) :
    Decidable (answersEnd state action) := by
  unfold answersEnd
  split <;> infer_instance

/-- The batches of a client follow one another from the first LSN on, and none
comes twice. -/
structure InOrder (first : Nat) (batches : List Batch) : Prop where
  gapFree : ∃ stop, Tiles Batch.startLsn Batch.endLsn first batches stop
  once : batches.Nodup

/-- A quorum has accepted a batch that ends there or later. -/
def QuorumReached (state : Dispatch nodes) (lsn : Nat) : Prop :=
  ∃ (id : Nat) (call : Call nodes), state.calls[id]? = some call ∧ lsn ≤ call.batch.endLsn ∧
    state.sequencer.quorum ≤ (List.finRange nodes).countP (accepted call)

end Dispatch

/-! ## What one step can do -/

/-- The call is not over. -/
def CallStage.isOpen : CallStage -> Bool
  | .returned _ => false
  | _ => true

/-- The call has passed the gate and not yet moved it. -/
def CallStage.isPast : CallStage -> Bool
  | .sending => true
  | .leaving _ => true
  | _ => false

namespace Dispatch

variable {nodes : Nat}

inductive Moves (state : Dispatch nodes) : Action nodes -> Dispatch nodes -> Prop
  | refused {action sequencer} : sequencer.quorum = state.sequencer.quorum ->
      sequencer.nextLsn = state.sequencer.nextLsn ->
      sequencer.durableLsn = state.sequencer.durableLsn ->
      sequencer.dispatchLsn = state.sequencer.dispatchLsn ->
      Moves state action { state with sequencer := sequencer }
  | reserves {action sequencer} (batch : Batch) : sequencer.quorum = state.sequencer.quorum ->
      batch.startLsn = state.sequencer.nextLsn -> batch.startLsn < batch.endLsn ->
      sequencer.nextLsn = batch.endLsn -> sequencer.durableLsn = state.sequencer.durableLsn ->
      sequencer.dispatchLsn = state.sequencer.dispatchLsn ->
      Moves state action { state with
        sequencer := sequencer
        reserved := state.reserved ++ [batch]
        undispatched := state.undispatched ++ [batch] }
  | starts {id batch} : state.calls[id]? = none -> batch ∈ state.reserved ->
      Moves state (.start id batch) ({ state with reserved := state.reserved.erase batch }.setCall id
        { batch := batch, stage := .waiting, sent := fun _ => false, answers := fun _ => none })
  | enters {id call} : state.calls[id]? = some call -> call.stage = .waiting ->
      state.sequencer.dispatchLsn = call.batch.startLsn ->
      Moves state (.look id) (state.setCall id { call with stage := .sending })
  | refuses {id call error} : state.calls[id]? = some call -> call.stage = .waiting ->
      Moves state (.look id) (state.setCall id { call with stage := .returned (.error error) })
  | waits {id} : Moves state (.look id) state
  | sends {id node call} : state.calls[id]? = some call -> call.stage = .sending ->
      call.sent node = false ->
      Moves state (.send id node) ({ state with
        received := update state.received node (state.received node ++ [call.batch])
      }.setCall id { call with sent := update call.sent node true })
  | answers {id node call result} : state.calls[id]? = some call -> call.stage = .sending ->
      call.sent node = true -> call.answers node = none ->
      Moves state (.answer id node result) (state.setCall id
        { call with answers := update call.answers node (some result) })
  | settles {id call} : state.calls[id]? = some call -> call.stage = .sending ->
      (∀ node, (call.answers node).isSome = true) ->
      Moves state (.settle id) ({ state with
        sequencer := { state.sequencer with
          durableLsn := (state.sequencer.finish call.batch.endLsn (results call)).2.durableLsn }
      }.setCall id { call with
        stage := .leaving (state.sequencer.finish call.batch.endLsn (results call)).1 })
  | releases {id call result} : state.calls[id]? = some call -> call.stage = .leaving result ->
      Moves state (.release id) ({ state with
        sequencer := { state.sequencer with dispatchLsn := call.batch.endLsn }
        undispatched := state.undispatched.tail
      }.setCall id { call with stage := .returned result })

variable {state next : Dispatch nodes} {action : Action nodes} {id : Nat} {call after : Call nodes}
  {first : Nat} {node : Fin nodes}

theorem moves_of_reserve {nWrites requestId : Nat} {sequencer : Sequencer}
    (quorum : sequencer.quorum = state.sequencer.quorum)
    (nextLsn : sequencer.nextLsn = state.sequencer.nextLsn)
    (durableLsn : sequencer.durableLsn = state.sequencer.durableLsn)
    (dispatchLsn : sequencer.dispatchLsn = state.sequencer.dispatchLsn) :
    Moves state action
      ({ state with sequencer := sequencer }.reserveTxnWithRequestId nWrites requestId) := by
  unfold reserveTxnWithRequestId
  rcases sequencer.reserveTxnWithRequestId_cases nWrites requestId with ⟨_, _, refused⟩ | ⟨_, reserved⟩
  · rw [refused]
    exact .refused quorum nextLsn durableLsn dispatchLsn
  · rw [reserved]
    refine .reserves ⟨requestId, sequencer.nextLsn, sequencer.nextLsn + nWrites⟩ quorum nextLsn ?_ rfl
      durableLsn dispatchLsn
    show sequencer.nextLsn < sequencer.nextLsn + nWrites
    omega

theorem moves_of_step (taken : state.step action = some next) : Moves state action next := by
  cases action with
  | reserveTxn =>
    cases taken
    exact moves_of_reserve rfl rfl rfl rfl
  | reserveTxnWithRequestId nWrites requestId =>
    cases taken
    exact @moves_of_reserve _ state _ nWrites requestId state.sequencer rfl rfl rfl rfl
  | start id batch =>
    change state.start id batch = some next at taken
    unfold Dispatch.start at taken
    split at taken
    · cases taken
    · next allowed =>
      cases taken
      rcases not_or.mp allowed with ⟨fresh, member⟩
      refine .starts ?_ (Decidable.of_not_not member)
      simpa [← TreeMap.isSome_getElem?_eq_contains] using fresh
  | look =>
    rcases bind_eq_some_iff.mp taken with ⟨_, present, rest⟩
    split at rest
    · next waiting =>
      dsimp only at rest
      split at rest
      · next turn =>
        cases rest
        exact .enters present waiting turn
      · split at rest
        · cases rest
          exact .refuses present waiting
        · cases rest
          exact .waits
    · cases rest
  | send =>
    rcases bind_eq_some_iff.mp taken with ⟨_, present, rest⟩
    split at rest
    · next sending unsent =>
      cases rest
      exact .sends present sending unsent
    · cases rest
  | answer =>
    rcases bind_eq_some_iff.mp taken with ⟨_, present, rest⟩
    split at rest
    · next sending sent open_ =>
      cases rest
      exact .answers present sending sent open_
    · cases rest
  | settle =>
    rcases bind_eq_some_iff.mp taken with ⟨_, present, rest⟩
    split at rest
    · next sending =>
      split at rest
      · next complete =>
        cases rest
        refine .settles present sending ?_
        intro node
        exact all_eq_true.mp complete node (mem_finRange node)
      · cases rest
    · cases rest
  | release =>
    rcases bind_eq_some_iff.mp taken with ⟨_, present, rest⟩
    split at rest
    · next _ leaving =>
      cases rest
      exact .releases present leaving
    · cases rest

theorem lookup_setCall (state : Dispatch nodes) (id : Nat) (call : Call nodes) (other : Nat) :
    (state.setCall id call).calls[other]? = if id = other then some call else state.calls[other]? :=
  lookup_insert _ _ _ _

/-! ## One call at the gate -/

/-- What a client has got, up to the call that is past the gate. -/
structure Fed (first : Nat) (state : Dispatch nodes) (node : Fin nodes) (stop : Nat) : Prop where
  tiles : Tiles Batch.startLsn Batch.endLsn first (state.received node) stop
  past : ∀ (id : Nat) (call : Call nodes), state.calls[id]? = some call ->
    call.stage.isPast = true ->
    stop = if call.sent node then call.batch.endLsn else call.batch.startLsn
  quiet : (∀ (id : Nat) (call : Call nodes), state.calls[id]? = some call ->
    call.stage.isPast = false) -> stop = state.sequencer.dispatchLsn

structure CallOk (state : Dispatch nodes) (call : Call nodes) : Prop where
  pending : call.stage.isOpen = true -> call.batch ∈ state.undispatched ∧ call.batch ∉ state.reserved
  turn : call.stage.isPast = true -> call.batch.startLsn = state.sequencer.dispatchLsn
  unsent : call.stage = .waiting -> ∀ node, call.sent node = false
  sent : ∀ result, call.stage = .leaving result -> ∀ node, call.sent node = true
  answered : ∀ node, (call.answers node).isSome = true -> call.sent node = true

structure Ordered (first : Nat) (state : Dispatch nodes) : Prop where
  tiles : Tiles Batch.startLsn Batch.endLsn state.sequencer.dispatchLsn state.undispatched
    state.sequencer.nextLsn
  reserved : ∀ batch ∈ state.reserved, batch ∈ state.undispatched
  distinct : state.reserved.Nodup
  calls : ∀ (id : Nat) (call : Call nodes), state.calls[id]? = some call -> CallOk state call
  apart : ∀ (id other : Nat) (call found : Call nodes), state.calls[id]? = some call ->
    state.calls[other]? = some found -> call.stage.isOpen = true -> found.stage.isOpen = true ->
    call.batch = found.batch -> id = other
  fed : ∀ node, ∃ stop, Fed first state node stop

theorem isOpen_of_isPast {stage : CallStage} (past : stage.isPast = true) : stage.isOpen = true := by
  cases stage <;> first | rfl | cases past

/-- While it is the turn of an open call, no other call is past the gate. -/
theorem Ordered.others_before (inv : Ordered first state) {other : Nat} {found : Call nodes}
    (present : state.calls[id]? = some call) (isOpen : call.stage.isOpen = true)
    (turn : call.batch.startLsn = state.sequencer.dispatchLsn) (different : id ≠ other)
    (isFound : state.calls[other]? = some found) : found.stage.isPast = false := by
  by_contra foundPast
  rw [Bool.not_eq_false] at foundPast
  have foundOpen := isOpen_of_isPast foundPast
  have foundOk := inv.calls other found isFound
  rcases inv.tiles.front ((inv.calls id call present).pending isOpen).1 turn with ⟨_, isFront⟩
  rcases inv.tiles.front (foundOk.pending foundOpen).1 (foundOk.turn foundPast) with ⟨_, isFront'⟩
  apply different
  apply inv.apart id other call found present isFound isOpen foundOpen
  have same := isFront.symm.trans isFront'
  exact (List.cons.inj same).1

/-- Open calls stay apart when one call is replaced by one whose batch no other
open call has. -/
theorem Ordered.apart_update (inv : Ordered first state)
    (calls : next.calls = state.calls.insert id after)
    (new : after.stage.isOpen = true -> ∀ other found, id ≠ other ->
      state.calls[other]? = some found -> found.stage.isOpen = true -> found.batch ≠ after.batch) :
    ∀ (left right : Nat) (leftCall rightCall : Call nodes), next.calls[left]? = some leftCall ->
      next.calls[right]? = some rightCall -> leftCall.stage.isOpen = true ->
      rightCall.stage.isOpen = true -> leftCall.batch = rightCall.batch -> left = right := by
  intro left right leftCall rightCall isLeft isRight leftOpen rightOpen same
  rw [calls, lookup_insert] at isLeft isRight
  split at isLeft
  · next leftNew =>
    split at isRight
    · next rightNew => exact leftNew.symm.trans rightNew
    · next different =>
      cases isLeft
      exact absurd same.symm (new leftOpen right rightCall different isRight rightOpen)
  · next different =>
    split at isRight
    · cases isRight
      exact absurd same (new rightOpen left leftCall different isLeft leftOpen)
    · exact inv.apart left right leftCall rightCall isLeft isRight leftOpen rightOpen same

theorem Fed.alone {stop : Nat} (calls : next.calls = state.calls.insert id after)
    (before : ∀ other found, id ≠ other -> state.calls[other]? = some found ->
      found.stage.isPast = false)
    (tiles : Tiles Batch.startLsn Batch.endLsn first (next.received node) stop)
    (stops : stop = if after.stage.isPast = true then
      if after.sent node then after.batch.endLsn else after.batch.startLsn
      else next.sequencer.dispatchLsn) : Fed first next node stop := by
  refine ⟨tiles, ?_, ?_⟩
  · intro other found isFound isPast
    rw [calls, lookup_insert] at isFound
    split at isFound
    · cases isFound
      rwa [if_pos isPast] at stops
    · next different =>
      rw [before other found different isFound] at isPast
      cases isPast
  · intro quiet
    rwa [quiet id after (calls ▸ TreeMap.getElem?_insert_self), if_neg Bool.false_ne_true] at stops

variable {sequencer : Sequencer} {quorum : Nat}

theorem Ordered.initially (level : sequencer.dispatchLsn = sequencer.nextLsn) :
    Ordered sequencer.dispatchLsn (connected sequencer : Dispatch nodes) := by
  refine ⟨level, nofun, nodup_nil, forall_empty, ?_, ?_⟩
  · exact fun id other call found present => by simp [connected] at present
  · exact fun node => ⟨sequencer.dispatchLsn, rfl, forall_empty, fun _ => rfl⟩

theorem Ordered.replaces (inv : Ordered first state) (present : state.calls[id]? = some call)
    (calls : next.calls = state.calls.insert id after) (batch : after.batch = call.batch)
    (isOpen : after.stage.isOpen = true -> call.stage.isOpen = true)
    (ok : CallOk state after) (nextLsn : next.sequencer.nextLsn = state.sequencer.nextLsn)
    (dispatchLsn : next.sequencer.dispatchLsn = state.sequencer.dispatchLsn)
    (reserved : next.reserved = state.reserved) (undispatched : next.undispatched = state.undispatched)
    (fed : ∀ node, ∃ stop, Fed first next node stop) : Ordered first next := by
  refine ⟨?_, ?_, ?_, ?_, ?_, fed⟩
  · rw [dispatchLsn, undispatched, nextLsn]
    exact inv.tiles
  · rw [reserved, undispatched]
    exact inv.reserved
  · rw [reserved]
    exact inv.distinct
  · have carried : ∀ found : Call nodes, CallOk state found -> CallOk next found := by
      intro found ok
      refine ⟨?_, ?_, ok.unsent, ok.sent, ok.answered⟩
      · rw [reserved, undispatched]
        exact ok.pending
      · rw [dispatchLsn]
        exact ok.turn
    exact calls ▸ forall_insert (carried after ok) (fun other found isFound =>
      carried found (inv.calls other found isFound))
  · refine inv.apart_update calls ?_
    intro afterOpen other found different isFound foundOpen same
    exact different (inv.apart id other call found present isFound (isOpen afterOpen) foundOpen
      (batch.symm.trans same.symm))

/-- A call that does not come to the gate or leave it changes what clients have
got only by what it sends. -/
theorem Fed.keeps {stop : Nat} (fed : Fed first state node stop)
    (present : state.calls[id]? = some call) (calls : next.calls = state.calls.insert id after)
    (past : after.stage.isPast = call.stage.isPast) (batch : after.batch = call.batch)
    (sent : call.stage.isPast = true -> after.sent node = call.sent node)
    (received : next.received node = state.received node)
    (dispatchLsn : next.sequencer.dispatchLsn = state.sequencer.dispatchLsn) :
    Fed first next node stop := by
  refine ⟨?_, ?_, ?_⟩
  · rw [received]
    exact fed.tiles
  · intro other found isFound isPast
    rw [calls, lookup_insert] at isFound
    split at isFound
    · cases isFound
      rw [past] at isPast
      rw [sent isPast, batch]
      exact fed.past id call present isPast
    · exact fed.past other found isFound isPast
  · intro quiet
    rw [dispatchLsn]
    apply fed.quiet
    intro other found isFound
    by_cases same : id = other
    · subst same
      cases present.symm.trans isFound
      rw [← past]
      exact quiet id after (calls ▸ TreeMap.getElem?_insert_self)
    · exact quiet other found (calls ▸ (lookup_insert_of_ne _ _ same).trans isFound)

theorem Ordered.step (inv : Ordered first state) (taken : state.step action = some next) :
    Ordered first next := by
  cases moves_of_step taken with
  | refused _ nextLsn _ dispatchLsn =>
    refine ⟨?_, inv.reserved, inv.distinct, ?_, inv.apart, fun node => (inv.fed node).imp
      (fun stop fed => { fed with quiet := fun quiet => (fed.quiet quiet).trans dispatchLsn.symm })⟩
    · dsimp only
      rw [dispatchLsn, nextLsn]
      exact inv.tiles
    · intro other found isFound
      have ok := inv.calls other found isFound
      refine { ok with turn := ?_ }
      rw [dispatchLsn]
      exact ok.turn
  | @reserves _ _ batch _ begins proper nextLsn _ dispatchLsn =>
    have fresh : batch ∉ state.undispatched := by
      intro member
      have below := (inv.tiles.bounds member).2
      omega
    refine ⟨?_, ?_, ?_, ?_, inv.apart, fun node => (inv.fed node).imp
      (fun stop fed => { fed with quiet := fun quiet => (fed.quiet quiet).trans dispatchLsn.symm })⟩
    · dsimp only
      rw [dispatchLsn, nextLsn]
      exact inv.tiles.snoc begins (begins ▸ proper)
    · intro found member
      rcases mem_append.mp member with old | isNew
      · exact mem_append_left _ (inv.reserved found old)
      · exact mem_append_right _ isNew
    · refine nodup_append.mpr ⟨inv.distinct, nodup_singleton _, ?_⟩
      intro found old other isNew same
      rw [mem_singleton.mp isNew] at same
      exact fresh (same ▸ inv.reserved found old)
    · intro other found isFound
      have ok := inv.calls other found isFound
      refine ⟨?_, ?_, ok.unsent, ok.sent, ok.answered⟩
      · intro isOpen
        rcases ok.pending isOpen with ⟨member, outside⟩
        refine ⟨mem_append_left _ member, ?_⟩
        intro inside
        rcases mem_append.mp inside with old | isNew
        · exact outside old
        · exact fresh (mem_singleton.mp isNew ▸ member)
      · dsimp only
        rw [dispatchLsn]
        exact ok.turn
  | @starts _ batch fresh member =>
    refine ⟨inv.tiles, ?_, inv.distinct.erase _, ?_, ?_, ?_⟩
    · intro found inside
      exact inv.reserved found (mem_of_mem_erase inside)
    · intro other found isFound
      rw [lookup_setCall] at isFound
      split at isFound
      · cases isFound
        exact ⟨fun _ => ⟨inv.reserved batch member, inv.distinct.not_mem_erase⟩, nofun,
          fun _ _ => rfl, nofun, nofun⟩
      · have ok := inv.calls other found isFound
        refine { ok with pending := ?_ }
        intro isOpen
        rcases ok.pending isOpen with ⟨inside, outside⟩
        exact ⟨inside, fun erased => outside (mem_of_mem_erase erased)⟩
    · refine inv.apart_update rfl ?_
      intro _ other found _ isFound isOpen same
      exact ((inv.calls other found isFound).pending isOpen).2 (same ▸ member)
    · intro node
      rcases inv.fed node with ⟨stop, fed⟩
      refine ⟨stop, fed.tiles, ?_, ?_⟩
      · exact forall_insert nofun fed.past
      · intro quiet
        apply fed.quiet
        intro other found isFound
        apply quiet other found
        rw [lookup_setCall, if_neg]
        · exact isFound
        · rintro rfl
          cases fresh.symm.trans isFound
  | @enters id call present waiting turn =>
    have ok := inv.calls id call present
    have isOpen : call.stage.isOpen = true := by
      rw [waiting]
      rfl
    refine inv.replaces present rfl rfl (fun _ => isOpen) ?_ rfl rfl rfl rfl ?_
    · exact ⟨fun _ => ok.pending isOpen, fun _ => turn.symm, nofun, nofun, ok.answered⟩
    · -- nobody else is past the gate, so every client has got all before this batch
      intro node
      rcases inv.fed node with ⟨stop, fed⟩
      have noneBefore : ∀ (other : Nat) found, state.calls[other]? = some found ->
          found.stage.isPast = false := by
        intro other found isFound
        by_cases same : id = other
        · subst same
          cases present.symm.trans isFound
          rw [waiting]
          rfl
        · exact inv.others_before present isOpen turn.symm same isFound
      refine ⟨stop, .alone rfl (fun other found _ => noneBefore other found) fed.tiles ?_⟩
      have unsent := Bool.eq_false_iff.mp (ok.unsent waiting node)
      exact ((fed.quiet noneBefore).trans turn).trans (if_neg unsent).symm
  | @refuses id call _ present waiting =>
    have ok := inv.calls id call present
    have isPast : call.stage.isPast = false := by
      rw [waiting]
      rfl
    refine inv.replaces present rfl rfl nofun ?_ rfl rfl
      rfl rfl ?_
    · exact ⟨nofun, nofun, nofun, nofun, ok.answered⟩
    · intro node
      rcases inv.fed node with ⟨stop, fed⟩
      exact ⟨stop, fed.keeps present rfl isPast.symm rfl (fun _ => rfl) rfl rfl⟩
  | waits => exact inv
  | @sends id node call present sending unsent =>
    have ok := inv.calls id call present
    have isPast : call.stage.isPast = true := by
      rw [sending]
      rfl
    have isOpen := isOpen_of_isPast isPast
    have member := (ok.pending isOpen).1
    refine inv.replaces present rfl rfl (fun isOpen => isOpen) ?_ rfl rfl rfl rfl ?_
    · refine ⟨ok.pending, ok.turn, ?_, ?_, ?_⟩
      · intro impossible
        cases sending.symm.trans impossible
      · intro result impossible
        cases sending.symm.trans impossible
      · intro other answered
        by_cases same : other = node
        · rw [same]
          exact update_self _ _ _
        · exact (update_of_ne same _ _).trans (ok.answered other answered)
    · intro other
      rcases inv.fed other with ⟨stop, fed⟩
      by_cases same : other = node
      · subst same
        have stops := fed.past id call present isPast
        rw [unsent, if_neg Bool.false_ne_true] at stops
        refine ⟨call.batch.endLsn, .alone rfl
          (fun _ _ => inv.others_before present isOpen (ok.turn isPast)) ?_ ?_⟩
        · dsimp only [setCall]
          rw [update_self]
          refine fed.tiles.snoc stops.symm ?_
          rw [stops]
          exact (inv.tiles.bounds member).2.1
        · rw [if_pos isPast, if_pos (update_self _ _ _)]
      · refine ⟨stop, fed.keeps present rfl rfl rfl ?_ ?_ rfl⟩
        · intro _
          exact update_of_ne same _ _
        · exact update_of_ne same _ _
  | @answers id node call _ present _ sent =>
    have ok := inv.calls id call present
    refine inv.replaces present rfl rfl (fun isOpen => isOpen) ?_ rfl rfl rfl rfl ?_
    · refine { ok with answered := ?_ }
      intro other answered
      by_cases same : other = node
      · rw [same]
        exact sent
      · apply ok.answered other
        rw [← answered]
        exact congrArg Option.isSome (update_of_ne same _ _).symm
    · intro other
      rcases inv.fed other with ⟨stop, fed⟩
      exact ⟨stop, fed.keeps present rfl rfl rfl (fun _ => rfl) rfl rfl⟩
  | @settles id call present sending complete =>
    have ok := inv.calls id call present
    have isPast : call.stage.isPast = true := by
      rw [sending]
      rfl
    refine inv.replaces present rfl rfl (fun _ => isOpen_of_isPast isPast) ?_ rfl rfl rfl rfl ?_
    · exact ⟨fun _ => ok.pending (isOpen_of_isPast isPast), fun _ => ok.turn isPast,
        nofun, fun _ _ node => ok.answered node (complete node), ok.answered⟩
    · intro other
      rcases inv.fed other with ⟨stop, fed⟩
      exact ⟨stop, fed.keeps present rfl isPast.symm rfl (fun _ => rfl) rfl rfl⟩
  | @releases id call result present leaving =>
    have ok := inv.calls id call present
    have isPast : call.stage.isPast = true := by
      rw [leaving]
      rfl
    have isOpen := isOpen_of_isPast isPast
    rcases ok.pending isOpen with ⟨member, outside⟩
    rcases inv.tiles.givesBack member (ok.turn isPast) with ⟨tiles, stays⟩
    refine ⟨tiles, ?_, inv.distinct, ?_, ?_, ?_⟩
    · intro batch inside
      exact (stays batch).mpr ⟨inv.reserved batch inside, fun same => outside (same ▸ inside)⟩
    · intro other found isFound
      rw [lookup_setCall] at isFound
      split at isFound
      · cases isFound
        exact ⟨nofun, nofun, nofun, nofun, ok.answered⟩
      · next different =>
        have foundOk := inv.calls other found isFound
        refine { foundOk with pending := ?_, turn := ?_ }
        · intro foundOpen
          rcases foundOk.pending foundOpen with ⟨inside, notReserved⟩
          refine ⟨(stays _).mpr ⟨inside, ?_⟩, notReserved⟩
          intro same
          exact different (inv.apart id other call found present isFound isOpen foundOpen same.symm)
        · intro foundPast
          rw [inv.others_before present isOpen (ok.turn isPast) different isFound] at foundPast
          cases foundPast
    · exact inv.apart_update rfl nofun
    · intro node
      rcases inv.fed node with ⟨stop, fed⟩
      have stops := fed.past id call present isPast
      rw [ok.sent result leaving node, if_pos rfl] at stops
      exact ⟨stop, .alone rfl
        (fun _ _ => inv.others_before present isOpen (ok.turn isPast)) fed.tiles stops⟩

/-! ## Counting the answers -/

theorem finish_durableLsn_le (sequencer : Sequencer) (endLsn : Nat)
    (results : List (Except String (Nat × Nat))) :
    sequencer.durableLsn ≤ (sequencer.finish endLsn results).2.durableLsn := by
  unfold finish
  dsimp only
  split
  · exact le_rfl
  · exact le_max_left _ _

theorem durableLsn_le_of_step (taken : state.step action = some next) :
    state.sequencer.durableLsn ≤ next.sequencer.durableLsn := by
  cases moves_of_step taken with
  | refused _ _ durableLsn | reserves _ _ _ _ _ durableLsn => exact Nat.le_of_eq durableLsn.symm
  | settles => exact finish_durableLsn_le _ _ _
  | _ => exact le_rfl

theorem quorum_of_step (taken : state.step action = some next) :
    next.sequencer.quorum = state.sequencer.quorum := by
  cases moves_of_step taken with
  | refused quorum | reserves _ quorum => exact quorum
  | _ => rfl

/-- Every answer with `Ok` names the end of the batch. -/
def Exact (call : Call nodes) : Prop :=
  ∀ node commit durable, call.answers node = some (.ok (commit, durable)) ->
    commit = call.batch.endLsn

theorem acksOf_eq (exact_ : Exact call) (indices : List (Fin nodes)) :
    acksOf call.batch.endLsn (indices.filterMap call.answers) =
      List.replicate (indices.countP (accepted call)) call.batch.endLsn := by
  induction indices with
  | nil => rfl
  | cons node _ ih =>
    rw [filterMap_cons, countP_cons]
    rcases given : call.answers node with _ | _ | ⟨commit, durable⟩
    · simpa [accepted, given] using ih
    · simpa [accepted, given, acksOf, readAck, Except.toOption] using ih
    · have ack : readAck call.batch.endLsn (.ok (commit, durable)) = .ok call.batch.endLsn := by
        rw [exact_ node commit durable given]
        exact if_pos le_rfl
      have agrees : accepted call node = true := by simp [accepted, given]
      rw [agrees, if_pos rfl, replicate_succ, ← ih]
      simp [acksOf, ack, Except.toOption]

theorem descending_replicate (count lsn : Nat) : descending (List.replicate count lsn) = List.replicate count lsn :=
  perm_replicate.mp (perm_insertionSort _ _)

theorem finish_of_exact (exact_ : Exact call) (positive : 0 < sequencer.quorum) :
    ((sequencer.finish call.batch.endLsn (results call)).1.toOption.isSome = true <->
      sequencer.quorum ≤ (List.finRange nodes).countP (accepted call)) ∧
    ((sequencer.finish call.batch.endLsn (results call)).2.durableLsn = sequencer.durableLsn ∨
      sequencer.quorum ≤ (List.finRange nodes).countP (accepted call) ∧
        (sequencer.finish call.batch.endLsn (results call)).2.durableLsn =
          max sequencer.durableLsn call.batch.endLsn) := by
  unfold finish results
  dsimp only
  rw [acksOf_eq exact_, length_replicate]
  split
  · next few =>
    refine ⟨?_, .inl rfl⟩
    constructor
    · nofun
    · intro enough
      exact absurd enough (Nat.not_le_of_lt few)
  · next enough =>
    refine ⟨⟨fun _ => le_of_not_gt enough, fun _ => rfl⟩, .inr ⟨le_of_not_gt enough, ?_⟩⟩
    have inside : sequencer.quorum - 1 < (List.finRange nodes).countP (accepted call) := by omega
    rw [descending_replicate, List.getElem?_replicate, if_pos inside, getD_some]

/-- What the answers have led to. -/
structure Counted (first quorum : Nat) (state : Dispatch nodes) : Prop where
  required : state.sequencer.quorum = quorum
  exact_ : ∀ (id : Nat) (call : Call nodes), state.calls[id]? = some call -> Exact call
  unanswered : ∀ (id : Nat) (call : Call nodes), state.calls[id]? = some call ->
    call.stage = .waiting -> ∀ node, call.answers node = none
  results : ∀ (id : Nat) (call : Call nodes) result, state.calls[id]? = some call ->
    call.stage = .leaving result ∨ call.stage = .returned result ->
    (result.toOption.isSome = true <-> quorum ≤ (List.finRange nodes).countP (accepted call))
  durable : state.sequencer.durableLsn ≤ first ∨ state.QuorumReached state.sequencer.durableLsn

theorem Counted.replaces (inv : Counted first quorum state) (present : state.calls[id]? = some call)
    (calls : next.calls = state.calls.insert id after)
    (sameQuorum : next.sequencer.quorum = state.sequencer.quorum) (ownExact : Exact after)
    (batch : after.batch = call.batch)
    (ownUnanswered : after.stage = .waiting -> ∀ node, after.answers node = none)
    (ownResult : ∀ result, after.stage = .leaving result ∨ after.stage = .returned result ->
      (result.toOption.isSome = true <-> quorum ≤ (List.finRange nodes).countP (accepted after)))
    (grows : (List.finRange nodes).countP (accepted call) ≤ (List.finRange nodes).countP (accepted after))
    (durable : next.sequencer.durableLsn = state.sequencer.durableLsn ∨
      quorum ≤ (List.finRange nodes).countP (accepted after) ∧
        next.sequencer.durableLsn = max state.sequencer.durableLsn after.batch.endLsn) :
    Counted first quorum next := by
  have kept : ∀ lsn, state.QuorumReached lsn -> next.QuorumReached lsn := by
    rintro _ ⟨other, found, isFound, below, enough⟩
    by_cases same : id = other
    · subst same
      cases present.symm.trans isFound
      refine ⟨id, after, calls ▸ TreeMap.getElem?_insert_self, batch ▸ below, ?_⟩
      rw [sameQuorum]
      exact enough.trans grows
    · refine ⟨other, found, calls ▸ (lookup_insert_of_ne _ _ same).trans isFound, below, ?_⟩
      rw [sameQuorum]
      exact enough
  refine ⟨sameQuorum.trans inv.required, ?_, ?_, ?_, ?_⟩
  · exact calls ▸ forall_insert ownExact inv.exact_
  · exact calls ▸ forall_insert ownUnanswered inv.unanswered
  · intro other found result isFound
    rw [calls, lookup_insert] at isFound
    split at isFound
    · cases isFound
      exact ownResult result
    · exact inv.results other found result isFound
  · rcases durable with same | ⟨enough, raised⟩
    · rw [same]
      exact inv.durable.imp_right (kept _)
    · rw [raised]
      rcases le_total state.sequencer.durableLsn after.batch.endLsn with below | above
      · rw [max_eq_right below]
        refine .inr ⟨id, after, calls ▸ TreeMap.getElem?_insert_self, le_rfl, ?_⟩
        rw [sameQuorum, inv.required]
        exact enough
      · rw [max_eq_left above]
        exact inv.durable.imp_right (kept _)

theorem Counted.step (positive : 0 < quorum) (inv : Counted first quorum state)
    (admitted : answersEnd state action) (taken : state.step action = some next) :
    Counted first quorum next := by
  have sameQuorum := quorum_of_step taken
  cases moves_of_step taken with
  | refused _ _ durableLsn | reserves _ _ _ _ _ durableLsn =>
    refine { inv with required := sameQuorum.trans inv.required, durable := ?_ }
    rw [durableLsn]
    refine inv.durable.imp_right ?_
    rintro ⟨other, found, isFound, below, enough⟩
    exact ⟨other, found, isFound, below, (Nat.le_of_eq sameQuorum).trans enough⟩
  | @starts _ _ fresh =>
    refine ⟨inv.required, ?_, ?_, ?_, ?_⟩
    · exact forall_insert nofun inv.exact_
    · exact forall_insert (fun _ _ => rfl) inv.unanswered
    · intro other found result isFound
      rw [lookup_setCall] at isFound
      split at isFound
      · cases isFound
        rintro (impossible | impossible) <;> cases impossible
      · exact inv.results other found result isFound
    · refine inv.durable.imp_right ?_
      rintro ⟨other, found, isFound, below, enough⟩
      refine ⟨other, found, ?_, below, enough⟩
      rw [lookup_setCall, if_neg]
      · exact isFound
      · rintro rfl
        cases fresh.symm.trans isFound
  | @enters id call present =>
    refine inv.replaces present rfl rfl (inv.exact_ id call present) rfl
      nofun ?_ le_rfl (.inl rfl)
    rintro result (impossible | impossible) <;> cases impossible
  | @refuses id call error present waiting =>
    refine inv.replaces present rfl rfl (inv.exact_ id call present) rfl
      nofun ?_ le_rfl (.inl rfl)
    rintro _ (impossible | isResult)
    · cases impossible
    · cases isResult
      have none_ : (List.finRange nodes).countP
          (accepted { call with stage := .returned (.error error) }) = 0 := by
        apply countP_eq_zero.mpr
        intro node _
        unfold accepted
        rw [inv.unanswered id call present waiting node]
        exact Bool.false_ne_true
      rw [none_]
      constructor
      · nofun
      · intro enough
        exact absurd positive (Nat.not_lt_of_le enough)
  | waits => exact inv
  | @sends id _ call present sending =>
    refine inv.replaces present rfl rfl (inv.exact_ id call present) rfl ?_ ?_ le_rfl (.inl rfl)
    · intro impossible
      cases sending.symm.trans impossible
    · rintro result (impossible | impossible) <;> cases sending.symm.trans impossible
  | @answers id node call _ present sending _ unanswered =>
    refine inv.replaces present rfl rfl ?_ rfl ?_ ?_ ?_ (.inl rfl)
    · intro other commit durable given
      dsimp only at given
      by_cases same : other = node
      · rw [same, update_self, some_inj] at given
        subst given
        have ends : (state.calls[id]?.map (fun call => call.batch.endLsn)) = some commit := admitted
        rw [present, map_some, some_inj] at ends
        exact ends.symm
      · rw [update_of_ne same] at given
        exact inv.exact_ id call present other commit durable given
    · intro impossible
      cases sending.symm.trans impossible
    · rintro _ (impossible | impossible) <;> cases sending.symm.trans impossible
    · apply countP_mono_left
      intro other _ before
      by_cases same : other = node
      · unfold accepted at before
        rw [same, unanswered] at before
        cases before
      · unfold accepted at before ⊢
        dsimp only
        rw [update_of_ne same]
        exact before
  | @settles id call present =>
    have finished := @finish_of_exact _ call state.sequencer (inv.exact_ id call present)
      (by rw [inv.required]; exact positive)
    rw [inv.required] at finished
    refine inv.replaces present rfl rfl (inv.exact_ id call present) rfl
      nofun ?_ le_rfl finished.2
    rintro _ (isResult | impossible)
    · cases isResult
      exact finished.1
    · cases impossible
  | @releases id call result present leaving =>
    refine inv.replaces present rfl rfl (inv.exact_ id call present) rfl
      nofun ?_ le_rfl (.inl rfl)
    rintro _ (impossible | isResult)
    · cases impossible
    · cases isResult
      exact inv.results id call result present (.inl leaving)

/-! ## All interleavings -/

theorem counted_connected (level : sequencer.durableLsn = sequencer.dispatchLsn) :
    Counted sequencer.dispatchLsn sequencer.quorum (connected sequencer : Dispatch nodes) := by
  refine ⟨rfl, forall_empty, forall_empty, ?_, .inl (Nat.le_of_eq level)⟩
  exact fun id call result present => by simp [connected] at present

/-- After a connect, whatever the callers and the clients do: every client gets
the batches in the order of the log, and the durable counter does not fall.  If
nodes answer an accepted batch with its end, the counter stays below what a
quorum has accepted, and a call that has returned has returned `Ok` exactly if
a quorum has accepted its batch. -/
theorem batches_dispatched_in_order {addrs : List Endpoint} {quorum seed : Nat} {sequencer : Sequencer}
    (isConnected : connect addrs quorum seed = .ok sequencer) :
    (∀ state : Dispatch nodes, Reaches step anyStep (connected sequencer) state ->
      (∀ node, InOrder sequencer.dispatchLsn (state.received node)) ∧
      ∀ action next, state.step action = some next ->
        state.sequencer.durableLsn ≤ next.sequencer.durableLsn) ∧
    (∀ state : Dispatch nodes, Reaches step answersEnd (connected sequencer) state ->
      (state.sequencer.durableLsn ≤ sequencer.durableLsn ∨
        state.QuorumReached state.sequencer.durableLsn) ∧
      ∀ (id : Nat) (call : Call nodes) result, state.calls[id]? = some call ->
        call.stage = .returned result ->
        ((∃ commitLsn, result = .ok commitLsn) <->
          sequencer.quorum ≤ (List.finRange nodes).countP (accepted call))) := by
  rcases connect_eq_ok isConnected with ⟨_, _, positive, _, _, level, durable⟩
  constructor
  · intro state reached
    have ordered : Ordered sequencer.dispatchLsn state :=
      reached.invariant (Ordered.initially level) (fun _ _ _ inv _ taken => inv.step taken)
    refine ⟨?_, fun _ _ taken => durableLsn_le_of_step taken⟩
    intro node
    rcases ordered.fed node with ⟨stop, fed⟩
    exact ⟨⟨stop, fed.tiles⟩, fed.tiles.nodup⟩
  · intro state reached
    have counted : Counted sequencer.dispatchLsn sequencer.quorum state :=
      reached.invariant (counted_connected durable)
        (fun _ _ _ inv admitted taken => inv.step positive admitted taken)
    refine ⟨?_, ?_⟩
    · rw [durable]
      exact counted.durable
    · intro id call result present returned
      rw [← counted.results id call result present (.inr returned)]
      cases result with
      | error =>
        constructor
        · rintro ⟨_, impossible⟩
          cases impossible
        · nofun
      | ok commitLsn => exact ⟨fun _ => rfl, fun _ => ⟨commitLsn, rfl⟩⟩

def threeNew : List Endpoint := [("a", .ok (.ok 1)), ("b", .ok (.ok 1)), ("c", .ok (.ok 1))]

/-- A batch goes to three nodes, and the second one refuses it. -/
def fanOut (id endLsn : Nat) : List (Action 3) :=
  [.send id 0, .send id 1, .send id 2, .answer id 0 (.ok (endLsn, endLsn)),
    .answer id 1 (.error "refused"), .answer id 2 (.ok (endLsn, endLsn)), .settle id, .release id]

/-- Of two calls the second looks first. -/
theorem batches_dispatched_in_order_three : ∃ (state : Dispatch 3) (call : Call 3) (commitLsn : Nat),
    connect threeNew 2 7 = .ok ⟨2, 1, 7, 1, 1⟩ ∧
      Reaches step answersEnd (connected ⟨2, 1, 7, 1, 1⟩) state ∧
      (∀ node, (state.received node).length = 2 ∧ InOrder 1 (state.received node)) ∧
      state.sequencer.durableLsn = 4 ∧ state.QuorumReached 4 ∧
      state.calls[0]? = some call ∧ call.stage = .returned (.ok commitLsn) := by
  have isConnected : connect threeNew 2 7 = .ok ⟨2, 1, 7, 1, 1⟩ := rfl
  have passed : (runGuarded step answersEnd (connected ⟨2, 1, 7, 1, 1⟩ : Dispatch 3)
      ([.reserveTxn 2, .reserveTxn 1, .start 0 ⟨7, 1, 3⟩, .start 1 ⟨8, 3, 4⟩, .look 1, .look 0] ++
        fanOut 0 3 ++ [.look 1] ++ fanOut 1 4)).any (fun state =>
      (∀ node, (state.received node).length = 2) ∧ state.sequencer.durableLsn = 4 ∧
        state.calls[0]?.any (fun call => !call.stage.isOpen &&
          2 ≤ (List.finRange 3).countP (accepted call)) = true) = true := by
    decide +kernel
  rcases exists_reaches_of_decide passed with ⟨state, reached, sizes, durable, returned⟩
  rcases (any_eq_true _ _).mp returned with ⟨call, present, ended⟩
  rw [Bool.and_eq_true, Bool.not_eq_true', decide_eq_true_iff] at ended
  rcases batches_dispatched_in_order isConnected with ⟨unrestricted, answered⟩
  rcases answered state reached with ⟨quorum, results⟩
  rw [durable] at quorum
  cases stage : call.stage with
  | returned result =>
    rcases (results 0 call result present stage).mpr ended.2 with ⟨commitLsn, rfl⟩
    refine ⟨state, call, commitLsn, isConnected, reached, ?_, durable, ?_, present, stage⟩
    · exact fun node => ⟨sizes node, (unrestricted state reached.unrestricted).1 node⟩
    · exact quorum.resolve_left (by decide)
  | _ =>
    rw [stage] at ended
    cases ended.1

/-- At most one call is past the gate, however the calls interleave, and its batch
begins at the dispatch counter. -/
theorem one_call_past_gate {addrs : List Endpoint} {seed : Nat}
    (isConnected : connect addrs quorum seed = .ok sequencer)
    (reached : Reaches step anyStep (connected sequencer) state)
    (present : state.calls[id]? = some call) (past : call.stage.isPast = true) :
    call.batch.startLsn = state.sequencer.dispatchLsn ∧
      ∀ (other : Nat) found, state.calls[other]? = some found -> id ≠ other ->
        found.stage.isPast = false := by
  rcases connect_eq_ok isConnected with ⟨_, _, _, _, _, level, _⟩
  have inv : Ordered sequencer.dispatchLsn state :=
    reached.invariant (Ordered.initially level) (fun _ _ _ inv _ taken => inv.step taken)
  have turn := (inv.calls id call present).turn past
  refine ⟨turn, ?_⟩
  intro other found isFound different
  exact inv.others_before present (isOpen_of_isPast past) turn different isFound

/-- The second of two calls has looked first. -/
theorem one_call_past_gate_two : ∃ (state : Dispatch 3) (call : Call 3),
    Reaches step anyStep (connected ⟨2, 1, 7, 1, 1⟩) state ∧ state.calls[0]? = some call ∧
      call.batch.startLsn = state.sequencer.dispatchLsn := by
  have passed : (runGuarded step anyStep (connected ⟨2, 1, 7, 1, 1⟩ : Dispatch 3)
      [.reserveTxn 2, .reserveTxn 1, .start 0 ⟨7, 1, 3⟩, .start 1 ⟨8, 3, 4⟩, .look 1, .look 0]).any
      (fun state => state.calls[0]?.any (fun call => call.stage.isPast)) = true := by
    decide +kernel
  rcases exists_reaches_of_runGuarded passed with ⟨state, reached, found⟩
  rcases (Option.any_eq_true _ _).mp found with ⟨call, present, past⟩
  have isConnected : connect threeNew 2 7 = .ok ⟨2, 1, 7, 1, 1⟩ := rfl
  exact ⟨state, call, reached, present, (one_call_past_gate isConnected reached present past).1⟩

end Dispatch

end Compute
end ScaleKv
