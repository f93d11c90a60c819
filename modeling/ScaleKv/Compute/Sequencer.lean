import ScaleKv.Storage.AppendCalls
import Mathlib.Data.List.Sort
import Mathlib.Data.List.FinRange

namespace ScaleKv
namespace Compute

open Storage Std

/-!
# The sequencer of the compute node

`ComputeSequencer` numbers the page writes of one compute node.  A commit
reserves a range of log sequence numbers, waits until every range before it has
been dispatched, sends its batch to all storage nodes and counts the
acknowledgements.  Whatever the count says, the next range may go out then.

A storage node is seen through `append_txn_batch`: the end of its log, the
requests it remembers and the last image of every page.  Pages are of any type
here; `encode` gives their bytes.

Request ids start at a random number and wrap around.  LSNs count the records of
the log from 1 on, at most 256 for a reservation, so that they are not wrapped.
-/

/-- The counters of `ComputeSequencer`; the clients are those of the cluster. -/
structure Sequencer where
  quorum : Nat
  nextLsn : Nat
  requestId : Nat
  durableLsn : Nat
  dispatchLsn : Nat
deriving DecidableEq

/-- `sort_unstable_by(|a, b| b.cmp(a))`. -/
def descending (lsns : List Nat) : List Nat := lsns.insertionSort (fun left right => right ≤ left)

/-- What becomes of one address: no connection, or the answer to
`get_durable_lsn`. -/
abbrev Endpoint := String × Except String (Except Error Nat)

namespace Sequencer

/-- `ComputeSequencer::connect`; `seed` is the random number. -/
def connect (addrs : List Endpoint) (quorum seed : Nat) : Except Error Sequencer :=
  if addrs.isEmpty then .error (.invalidKeySize 0 1)
  else
    let required := min (max quorum 1) addrs.length
    let clients := addrs.filterMap (fun addr => addr.2.toOption)
    let errs := addrs.filterMap (fun addr =>
      match addr.2 with
      | .ok _ => none
      | .error message => some s!"{addr.1}: {message}")
    let joined := " | ".intercalate errs
    if clients.length < required then
      .error (.io .other
        s!"not enough reachable storage nodes: reachable={clients.length} required={required} (errors: {joined})")
    else do
      let lsns <- clients.mapM (fun answer => answer)
      let durable := ((descending lsns)[required - 1]?).getD 0
      return { quorum := required
               nextLsn := durable
               requestId := if seed = 0 then 1 else seed
               durableLsn := durable
               dispatchLsn := durable }

variable {sequencer : Sequencer}

/-- A connect that succeeds has asked every node it reached, a quorum of them. -/
theorem connect_eq_ok {addrs : List Endpoint} {quorum seed : Nat}
    (isConnected : connect addrs quorum seed = .ok sequencer) :
    ∃ lsns, (addrs.filterMap (fun addr => addr.2.toOption)).mapM (fun answer => answer) = .ok lsns ∧
      0 < sequencer.quorum ∧ sequencer.quorum ≤ lsns.length ∧
      sequencer.durableLsn = ((descending lsns)[sequencer.quorum - 1]?).getD 0 ∧
      sequencer.dispatchLsn = sequencer.nextLsn ∧ sequencer.durableLsn = sequencer.dispatchLsn := by
  unfold connect at isConnected
  split at isConnected
  · cases isConnected
  · next nonempty =>
    dsimp only at isConnected
    split at isConnected
    · cases isConnected
    · next enough =>
      rcases bind_eq_ok.mp isConnected with ⟨lsns, asked, done⟩
      cases done
      refine ⟨lsns, asked, ?_, ?_, rfl, rfl, rfl⟩
      · have some_ : 0 < addrs.length :=
          List.length_pos_iff.mpr (fun empty => nonempty (List.isEmpty_iff.mpr empty))
        show 0 < min (max quorum 1) addrs.length
        omega
      · rw [length_of_mapM asked]
        exact Nat.le_of_not_lt enough

/-- `allocate_request_id`. -/
def allocateRequestId (sequencer : Sequencer) : Nat × Sequencer :=
  (sequencer.requestId, { sequencer with requestId := (sequencer.requestId + 1) % 2 ^ 64 })

def maxWritesPerTxn : Nat := 256

/-- `reserve_txn_with_request_id`. -/
def reserveTxnWithRequestId (sequencer : Sequencer) (nWrites requestId : Nat) :
    Except Error (Nat × Nat) × Sequencer :=
  if nWrites = 0 then (.error (.io .invalidInput "txn batch must be non-empty"), sequencer)
  else if maxWritesPerTxn < nWrites then
    (.error (.io .invalidInput
      s!"txn batch too large: writes={nWrites} max={maxWritesPerTxn}"), sequencer)
  else if requestId = 0 then
    (.error (.io .invalidInput "request_id must be non-zero"), sequencer)
  else
    (.ok (sequencer.nextLsn, sequencer.nextLsn + nWrites),
      { sequencer with nextLsn := sequencer.nextLsn + nWrites })

theorem reserveTxnWithRequestId_cases (sequencer : Sequencer) (nWrites requestId : Nat) :
    ((nWrites = 0 ∨ maxWritesPerTxn < nWrites ∨ requestId = 0) ∧
      ∃ error, sequencer.reserveTxnWithRequestId nWrites requestId = (.error error, sequencer)) ∨
      0 < nWrites ∧ sequencer.reserveTxnWithRequestId nWrites requestId =
        (.ok (sequencer.nextLsn, sequencer.nextLsn + nWrites),
          { sequencer with nextLsn := sequencer.nextLsn + nWrites }) := by
  unfold reserveTxnWithRequestId
  split
  · next empty => exact .inl ⟨.inl empty, _, rfl⟩
  · next nonempty =>
    split
    · next large => exact .inl ⟨.inr (.inl large), _, rfl⟩
    · split
      · next anonymous => exact .inl ⟨.inr (.inr anonymous), _, rfl⟩
      · exact .inr ⟨Nat.pos_of_ne_zero nonempty, rfl⟩

/-- What one answer counts for: an acknowledged LSN or a line of the report. -/
def readAck (endLsn : Nat) : Except String (Nat × Nat) -> Except String Nat
  | .ok (commit, durable) =>
    if endLsn ≤ commit then .ok commit
    else if endLsn ≤ durable then .ok durable
    else .error s!"ack too small: commit={commit} durable={durable} need>={endLsn}"
  | .error message => .error s!"rpc err: {message}"

def acksOf (endLsn : Nat) (results : List (Except String (Nat × Nat))) : List Nat :=
  results.filterMap (fun result => (readAck endLsn result).toOption)

def errsOf (endLsn : Nat) (results : List (Except String (Nat × Nat))) : List String :=
  results.filterMap (fun result =>
    match readAck endLsn result with
    | .ok _ => none
    | .error line => some line)

/-- The report of a commit that missed the quorum; it quotes three errors. -/
def quorumMessage (acks quorum : Nat) (errs : List String) : String :=
  let counts := s!"quorum not reached: acks={acks} quorum={quorum}"
  if errs.isEmpty then counts
  else
    let quoted := " | ".intercalate (errs.take 3)
    let more := if 3 < errs.length then " | ..." else ""
    s!"{counts}; errors=[{quoted}{more}]"

/-- The end of `commit_reserved_txn_batch`, when all answers are there. -/
def finish (sequencer : Sequencer) (endLsn : Nat) (results : List (Except String (Nat × Nat))) :
    Except Error Nat × Sequencer :=
  let acks := acksOf endLsn results
  if acks.length < sequencer.quorum then
    (.error (.io .other (quorumMessage acks.length sequencer.quorum (errsOf endLsn results))),
      { sequencer with dispatchLsn := endLsn })
  else
    let quorumDurable := ((descending acks)[sequencer.quorum - 1]?).getD 0
    (.ok endLsn,
      { sequencer with
        durableLsn := max sequencer.durableLsn quorumDurable
        dispatchLsn := endLsn })

theorem finish_dispatchLsn (sequencer : Sequencer) (endLsn : Nat)
    (results : List (Except String (Nat × Nat))) :
    (sequencer.finish endLsn results).2.dispatchLsn = endLsn := by
  unfold finish
  dsimp only
  split <;> rfl

theorem finish_quorum (sequencer : Sequencer) (endLsn : Nat)
    (results : List (Except String (Nat × Nat))) :
    (sequencer.finish endLsn results).2.quorum = sequencer.quorum := by
  unfold finish
  dsimp only
  split <;> rfl

theorem finish_eq_ok {endLsn commitLsn : Nat} {results : List (Except String (Nat × Nat))} :
    (sequencer.finish endLsn results).1 = .ok commitLsn <->
      sequencer.quorum ≤ (acksOf endLsn results).length ∧ commitLsn = endLsn := by
  unfold finish
  dsimp only
  split
  · next _ =>
    simp only [reduceCtorEq, false_iff]
    omega
  · next _ =>
    simp only [Except.ok.injEq]
    omega

end Sequencer

/-! ## Storage nodes behind the sequencer -/

/-- A storage node between two calls. -/
structure Server (Image : Type) where
  durableLsn : Nat
  requestIndex : TreeMap Nat Nat
  pages : TreeMap PageId Image

section Servers

variable {Image : Type}

/-- Replay of a batch of page images. -/
def applyImages (pages : TreeMap PageId Image) (writes : List (PageId × Image)) :
    TreeMap PageId Image :=
  writes.foldl (fun current write => current.insert write.1 write.2) pages

namespace Server

def empty : Server Image := { durableLsn := 1, requestIndex := ∅, pages := ∅ }

/-- `append_txn_batch` of one node, from the request to the answer that the
client sees.  `refusal` is the error of a node that refuses for a reason of its
own and stores nothing; `transport` renders the errors of the node itself. -/
def appendTxnBatch (encode : Image -> PageImage) (transport : Error -> String)
    (server : Server Image) (requestId startLsn endLsn : Nat) (writes : List (PageId × Image))
    (refusal : Option String) : Except String (Nat × Nat) × Server Image :=
  match refusal with
  | some message => (.error message, server)
  | none =>
    match startTxnPhase server.requestIndex server.durableLsn requestId startLsn endLsn
      (writes.map (fun write => (write.1, encode write.2))) with
    | .validated =>
      (.ok (endLsn, endLsn),
        { durableLsn := endLsn
          requestIndex := if requestId ≠ 0 then server.requestIndex.insert requestId endLsn
            else server.requestIndex
          pages := applyImages server.pages writes })
    | .repeated commitLsn => (.ok (commitLsn, server.durableLsn), server)
    | .refused error => (.error (transport error), server)
    -- a call that has just started is in no other phase
    | _ => (.error "", server)

end Server

/-- The sequencer with the storage nodes it is connected to. -/
structure Cluster (nodes : Nat) (Image : Type) where
  sequencer : Sequencer
  servers : Fin nodes -> Server Image

namespace Cluster

variable {nodes : Nat}

/-- `ComputeSequencer::connect` to nodes that all answer. -/
def connect (servers : Fin nodes -> Server Image) (quorum seed : Nat) :
    Except Error (Cluster nodes Image) := do
  let sequencer <- Sequencer.connect
    ((List.finRange nodes).map (fun node => (s!"{node}", .ok (.ok (servers node).durableLsn))))
    quorum seed
  return { sequencer := sequencer, servers := servers }

/-- `commit_reserved_txn_batch`.  A range whose turn has not come waits, so the
call is not finished; `refusals` are the nodes that refuse this batch. -/
def commitReservedTxnBatch (encode : Image -> PageImage) (transport : Error -> String)
    (cluster : Cluster nodes Image) (requestId startLsn endLsn : Nat)
    (writes : List (PageId × Image)) (refusals : Fin nodes -> Option String) :
    Option (Except Error Nat × Cluster nodes Image) :=
  let current := cluster.sequencer.dispatchLsn
  if startLsn < current then
    some (.error (.io .invalidInput
      s!"stale reserved range: start_lsn={startLsn} dispatch_lsn={current}"), cluster)
  else if current < startLsn then none
  else
    let answer := fun node => (cluster.servers node).appendTxnBatch encode transport requestId
      startLsn endLsn writes (refusals node)
    let finished := cluster.sequencer.finish endLsn
      ((List.finRange nodes).map (fun node => (answer node).1))
    some (finished.1, { sequencer := finished.2, servers := fun node => (answer node).2 })

end Cluster

end Servers

end Compute
end ScaleKv
