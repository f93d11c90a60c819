import ScaleKv.Storage.AppendCalls
import ScaleKv.Storage.ReplayAgreement
import Mathlib.Data.List.Chain

namespace ScaleKv
namespace Storage

open Foundation OrderedMap List Std Option

/-!
# Acknowledged batches

Two calls that were validated against the same `durable_lsn` both get through:
the sender lock only puts them one behind the other.  The second one then
repeats LSNs of the first, moves `durable_lsn` backwards and is acknowledged
although replay has passed over its records.

An acknowledgement waits for the last LSN of the batch only.  A batch whose
last record goes straight to its page is therefore acknowledged while earlier
records may still wait in the buffers of their pages.

When no call is validated inside another one's window, and no record stays
behind in a buffer, the acknowledged batches follow each other without gap or
overlap, and all of their page records have been applied.
-/

namespace CallPhase

/-- Between the validation and the store of `durable_lsn`. -/
def pending : CallPhase -> Bool
  | .validated | .sent | .flushed => true
  | _ => false

/-- Between the send and the acknowledgement. -/
def engaged : CallPhase -> Bool
  | .sent | .flushed | .handed => true
  | _ => false

end CallPhase

namespace AppendNode

/-- No call stands between its validation and its store of `durable_lsn`. -/
def quiet (node : AppendNode) : Prop :=
  node.calls.toList.all (fun entry => !entry.2.phase.pending) = true

/-- The records apply without error, and if the last one is applied at once,
no page is left with waiting records. -/
def drains (node : AppendNode) (batch : WalBatch) : Prop :=
  (batch.records.foldlM redo node.logical).isOk = true ∧
    ((node.backlog.after batch.records).caughtUp = true ->
      (node.backlog.after batch.records).waiting.toList.all (fun entry => entry.2 = 0) = true)

/-- Calls are validated one at a time, and replay leaves nothing behind. -/
def disciplined (node : AppendNode) : AppendAction -> Prop
  | .appendTxnBatch .. => node.quiet
  | .appendWalBatch .. => node.quiet
  | .replay => ∀ batch ∈ node.channel.head?, node.drains batch
  | _ => True

instance disciplinedDecidable (node : AppendNode) (action : AppendAction) :
    Decidable (node.disciplined action) := by
  cases action <;> unfold disciplined quiet <;> try unfold drains
  all_goals infer_instance

/-- The acknowledged ranges are disjoint and follow each other, and the page
records behind them have been applied. -/
structure AcknowledgedInOrder (node : AppendNode) : Prop where
  disjoint : node.acknowledged.Pairwise (fun earlier later => ∀ lsn,
    ¬ ((earlier.startLsn ≤ lsn ∧ lsn < earlier.endLsn) ∧
      (later.startLsn ≤ lsn ∧ lsn < later.endLsn)))
  contiguous : node.acknowledged.IsChain (fun earlier later => earlier.endLsn = later.startLsn)
  applied : ∀ batch ∈ node.acknowledged, ∀ record ∈ batch.records,
    ¬ record.op.isTxn = true -> record ∈ node.live.replay.applied

/-! ## The invariant -/

/-- Batches that cover the LSNs from `first` up to `next`, each one valid
where the one before it ends. -/
inductive Covers (first : Nat) : List WalBatch -> Nat -> Prop
  | nil : Covers first [] first
  | snoc {batches : List WalBatch} {next : Nat} {batch : WalBatch} :
      Covers first batches next -> validateIncomingWalBatch next batch = .ok () ->
      Covers first (batches ++ [batch]) batch.endLsn

/-- Everything that was acknowledged lies below `lsn + 1` and was applied. -/
structure Settled (first lsn : Nat) (acknowledged : List WalBatch) (applied : List WalRecord) :
    Prop where
  covers : Covers first acknowledged (lsn + 1)
  applied : ∀ batch ∈ acknowledged, ∀ record ∈ batch.records,
    ¬ record.op.isTxn = true -> record ∈ applied

/-- The channel of the replay loop holds empty batches only. -/
def Drained (channel : List WalBatch) : Prop := ∀ batch ∈ channel, batch.records = []

/-- The call `id` appends `batch` and stands in `phase`. -/
def InPhase (node : AppendNode) (id : CallId) (batch : WalBatch) (phase : CallPhase) : Prop :=
  ∃ txn, node.calls[id]? = some ⟨txn, batch, phase⟩

/-- Where the node stands before the engaged call has reached the replay loop:
`lsn` is the last LSN, and replay has applied it. -/
structure Ready (first lsn : Nat) (acknowledged : List WalBatch) (backlog : Backlog)
    (logical : Pages) (live : LiveReplay) : Prop where
  settled : Settled first lsn acknowledged live.replay.applied
  holds : Holds backlog lsn logical live
  caughtUp : backlog.caughtUp = true

/-- The way of the one engaged call through the writer and the replay loop. -/
inductive Stage (first : Nat) (node : AppendNode) : Prop
  | idle (lsn : Nat) (sender : node.sender = none) (queue : node.queue = [])
      (group : node.group = []) (channel : Drained node.channel)
      (durable : node.durableLsn = lsn + 1)
      (ready : Ready first lsn node.acknowledged node.backlog node.logical node.live)
  | sent (lsn : Nat) (id : CallId) (batch : WalBatch) (sender : node.sender = some id)
      (queue : node.queue = [id]) (group : node.group = []) (channel : Drained node.channel)
      (durable : node.durableLsn = lsn + 1) (phase : node.InPhase id batch .sent)
      (ready : Ready first lsn node.acknowledged node.backlog node.logical node.live)
  | flushed (lsn : Nat) (id : CallId) (batch : WalBatch) (sender : node.sender = some id)
      (queue : node.queue = []) (group : node.group = [id]) (channel : Drained node.channel)
      (durable : node.durableLsn = lsn + 1) (phase : node.InPhase id batch .flushed)
      (ready : Ready first lsn node.acknowledged node.backlog node.logical node.live)
  | handed (lsn : Nat) (id : CallId) (batch : WalBatch) (before : List WalBatch)
      (sender : node.sender = some id) (queue : node.queue = []) (group : node.group = [])
      (channel : node.channel = before ++ [batch]) (drained : Drained before)
      (durable : node.durableLsn = batch.endLsn) (phase : node.InPhase id batch .handed)
      (valid : validateIncomingWalBatch (lsn + 1) batch = .ok ())
      (ready : Ready first lsn node.acknowledged node.backlog node.logical node.live)
  | replayed (lsn : Nat) (id : CallId) (batch : WalBatch) (sender : node.sender = some id)
      (queue : node.queue = []) (group : node.group = []) (channel : node.channel = [])
      (durable : node.durableLsn = batch.endLsn) (phase : node.InPhase id batch .handed)
      (valid : validateIncomingWalBatch (lsn + 1) batch = .ok ())
      (settled : Settled first lsn node.acknowledged node.live.replay.applied)
      (holds : Holds node.backlog (lsn + batch.records.length) node.logical node.live)
      (applied : node.backlog.caughtUp = true -> ∀ record ∈ batch.records,
        ¬ record.op.isTxn = true -> record ∈ node.live.replay.applied)

/-- Every pending call is still valid, there is at most one of them, and the
engaged call holds the sender. -/
structure Orderly (durableLsn : Nat) (sender : Option CallId)
    (calls : TreeMap CallId AppendCall) : Prop where
  valid : ∀ (id : CallId) (call : AppendCall), calls[id]? = some call ->
    call.phase.pending = true -> validateIncomingWalBatch durableLsn call.batch = .ok ()
  alone : ∀ (id other : CallId) (call otherCall : AppendCall), calls[id]? = some call ->
    calls[other]? = some otherCall -> call.phase.pending = true ->
    otherCall.phase.pending = true -> id = other
  engaged : ∀ (id : CallId) (call : AppendCall), calls[id]? = some call ->
    call.phase.engaged = true -> sender = some id

structure Inv (first : Nat) (node : AppendNode) : Prop where
  orderly : Orderly node.durableLsn node.sender node.calls
  stage : Stage first node

variable {first next : Nat} {batches : List WalBatch} {node : AppendNode}

section

variable (covers : Covers first batches next)

include covers

theorem Covers.endLsn_le :
    ∀ batch ∈ batches, batch.endLsn ≤ next := by
  induction covers with
  | nil => exact fun batch member => absurd member (not_mem_nil)
  | snoc _ valid ih =>
    rcases validateIncomingWalBatch_eq_ok.mp valid with ⟨_, _⟩
    intro other member
    rcases mem_append.mp member with earlier | last
    · have := ih other earlier
      omega
    · rw [mem_singleton.mp last]

theorem Covers.disjoint :
    batches.Pairwise (fun earlier later => ∀ lsn,
      ¬ ((earlier.startLsn ≤ lsn ∧ lsn < earlier.endLsn) ∧
        (later.startLsn ≤ lsn ∧ lsn < later.endLsn))) := by
  induction covers with
  | nil => exact List.Pairwise.nil
  | snoc before valid ih =>
    rcases validateIncomingWalBatch_eq_ok.mp valid with ⟨_, _⟩
    refine pairwise_append.mpr ⟨ih, pairwise_singleton _ _, ?_⟩
    intro earlier member later last lsn inside
    rw [mem_singleton.mp last] at inside
    have := before.endLsn_le earlier member
    omega

theorem Covers.contiguous :
    batches.IsChain (fun earlier later => earlier.endLsn = later.startLsn) ∧
      ∀ batch, batches.getLast? = some batch -> batch.endLsn = next := by
  induction covers with
  | nil => exact ⟨List.IsChain.nil, fun batch last => by cases last⟩
  | snoc _ valid ih =>
    rcases validateIncomingWalBatch_eq_ok.mp valid with ⟨start, _⟩
    refine ⟨isChain_append.mpr ⟨ih.1, isChain_singleton _, ?_⟩, ?_⟩
    · intro earlier last later isLater
      cases isLater
      rw [start]
      exact ih.2 earlier last
    · intro last isLast
      rw [List.getLast?_concat] at isLast
      cases isLast
      rfl

end

/-! ## The calls -/

section Calls

variable {durableLsn : Nat} {sender : Option CallId} {calls : TreeMap CallId AppendCall}
variable {id : CallId} {call old : AppendCall}

section

variable (orderly : Orderly durableLsn sender calls)

include orderly

theorem Orderly.alone_insert
    (alone : call.phase.pending = true -> ∀ (other : CallId) otherCall,
      calls[other]? = some otherCall -> otherCall.phase.pending = true -> id = other)
    (left right : CallId) (leftCall rightCall : AppendCall)
    (leftLookup : (calls.insert id call)[left]? = some leftCall)
    (rightLookup : (calls.insert id call)[right]? = some rightCall)
    (leftPending : leftCall.phase.pending = true) (rightPending : rightCall.phase.pending = true) :
    left = right := by
  rcases lookup_insert_cases leftLookup with ⟨isLeft, rfl⟩ | ⟨_, leftOld⟩ <;>
    rcases lookup_insert_cases rightLookup with ⟨isRight, rfl⟩ | ⟨_, rightOld⟩
  · exact isLeft.trans isRight.symm
  · exact isLeft.trans (alone leftPending right rightCall rightOld rightPending)
  · exact (isRight.trans (alone rightPending left leftCall leftOld leftPending)).symm
  · exact orderly.alone left right leftCall rightCall leftOld rightOld leftPending rightPending

theorem Orderly.begin (aside : call.phase.engaged = false)
    (admitted : call.phase.pending = true ->
      validateIncomingWalBatch durableLsn call.batch = .ok () ∧
      ∀ (other : CallId) otherCall, calls[other]? = some otherCall ->
        otherCall.phase.pending = false) :
    Orderly durableLsn sender (calls.insert id call) where
  valid := forall_insert (fun pending => (admitted pending).1) orderly.valid
  alone := by
    refine orderly.alone_insert ?_
    intro pending other otherCall found otherPending
    rw [(admitted pending).2 other otherCall found] at otherPending
    cases otherPending
  engaged := by
    refine forall_insert ?_ orderly.engaged
    intro engaged
    rw [aside] at engaged
    cases engaged

theorem Orderly.advance {released : Option CallId}
    (lookup : calls[id]? = some old) (batch : call.batch = old.batch)
    (pending : call.phase.pending = true -> old.phase.pending = true)
    (engaged : call.phase.engaged = true -> released = some id)
    (others : ∀ other, other ≠ id -> sender = some other -> released = some other) :
    Orderly durableLsn released (calls.insert id call) where
  valid := by
    refine forall_insert ?_ orderly.valid
    intro isPending
    rw [batch]
    exact orderly.valid id old lookup (pending isPending)
  alone := orderly.alone_insert (fun isPending other otherCall found =>
    orderly.alone id other old otherCall lookup found (pending isPending))
  engaged := by
    intro other otherCall found isEngaged
    rcases lookup_insert_cases found with ⟨rfl, rfl⟩ | ⟨different, found⟩
    · exact engaged isEngaged
    · exact others other different (orderly.engaged other otherCall found isEngaged)

theorem Orderly.store (stored : Nat)
    (lookup : calls[id]? = some old) (wasPending : old.phase.pending = true)
    (done : call.phase.pending = false) (owner : sender = some id) :
    Orderly stored sender (calls.insert id call) := by
  have none (other : CallId) (otherCall : AppendCall)
      (found : (calls.insert id call)[other]? = some otherCall) :
      otherCall.phase.pending = false := by
    rcases lookup_insert_cases found with ⟨_, rfl⟩ | ⟨different, found⟩
    · exact done
    · cases pending : otherCall.phase.pending with
      | false => rfl
      | true =>
        exact absurd (orderly.alone other id otherCall old found lookup pending wasPending)
          different
  refine ⟨?_, ?_, forall_insert (fun _ => owner) orderly.engaged⟩
  · intro other otherCall found pending
    rw [none other otherCall found] at pending
    cases pending
  · intro left _ leftCall _ leftLookup _ pending
    rw [none left leftCall leftLookup] at pending
    cases pending

end

end Calls

/-! ## One step -/

section Step

variable {first : Nat} {node next : AppendNode} {id : CallId} {call : AppendCall}

variable {batch : WalBatch} {rest acknowledged : List WalBatch} {lsn : Nat}

theorem InPhase.setCall {other : CallId} {phase : CallPhase}
    (inPhase : node.InPhase other batch phase) (different : id ≠ other) :
    (node.setCall id call).InPhase other batch phase := by
  rcases inPhase with ⟨txn, lookup⟩
  exact ⟨txn, (lookup_insert_of_ne node.calls call different).trans lookup⟩

theorem Stage.setCall (stage : Stage first node)
    (aside : ∀ batch phase, node.InPhase id batch phase -> phase.engaged = false) :
    Stage first (node.setCall id call) := by
  have different : ∀ other batch phase, phase.engaged = true ->
      node.InPhase other batch phase -> id ≠ other := by
    intro other batch phase engaged inPhase same
    subst same
    rw [aside batch phase inPhase] at engaged
    cases engaged
  cases stage with
  | idle lsn sender queue group channel durable ready =>
    exact .idle lsn sender queue group channel durable ready
  | sent lsn other batch sender queue group channel durable phase ready =>
    exact .sent lsn other batch sender queue group channel durable
      (phase.setCall (different other batch _ rfl phase)) ready
  | flushed lsn other batch sender queue group channel durable phase ready =>
    exact .flushed lsn other batch sender queue group channel durable
      (phase.setCall (different other batch _ rfl phase)) ready
  | handed lsn other batch before sender queue group channel drained durable phase valid ready =>
    exact .handed lsn other batch before sender queue group channel drained durable
      (phase.setCall (different other batch _ rfl phase)) valid ready
  | replayed lsn other batch sender queue group channel durable phase valid settled holds applied =>
    exact .replayed lsn other batch sender queue group channel durable
      (phase.setCall (different other batch _ rfl phase)) valid settled holds applied

theorem not_pending_of_quiet (quiet : node.quiet) (other : CallId) (otherCall : AppendCall)
    (lookup : node.calls[other]? = some otherCall) : otherCall.phase.pending = false := by
  have all := all_eq_true.mp quiet (other, otherCall)
    (TreeMap.mem_toList_iff_getElem?_eq_some.mpr lookup)
  simpa using all

theorem startPhase_spec (durableLsn : Nat) (batch : WalBatch) :
    (startPhase durableLsn batch).engaged = false ∧
      ((startPhase durableLsn batch).pending = true ->
        validateIncomingWalBatch durableLsn batch = .ok ()) := by
  unfold startPhase
  split
  · next valid => exact ⟨rfl, fun _ => valid⟩
  · exact ⟨rfl, nofun⟩

theorem startTxnPhase_spec (requestIndex : TreeMap Nat Nat)
    (durableLsn requestId startLsn endLsn : Nat) (writes : List (PageId × PageImage)) :
    (startTxnPhase requestIndex durableLsn requestId startLsn endLsn writes).engaged = false ∧
      ((startTxnPhase requestIndex durableLsn requestId startLsn endLsn writes).pending = true ->
        validateIncomingWalBatch durableLsn (txnBatch requestId startLsn endLsn writes) =
          .ok ()) := by
  unfold startTxnPhase
  split
  · exact ⟨rfl, nofun⟩
  · split
    · exact ⟨rfl, nofun⟩
    · split
      · exact ⟨rfl, nofun⟩
      · exact startPhase_spec durableLsn _

section

variable (inv : Inv first node)

include inv

theorem inv_begin (quiet : node.quiet)
    (absent : ¬ node.calls.contains id = true) (aside : call.phase.engaged = false)
    (valid : call.phase.pending = true ->
      validateIncomingWalBatch node.durableLsn call.batch = .ok ()) :
    Inv first (node.setCall id call) ∧ node.durableLsn ≤ (node.setCall id call).durableLsn := by
  have none : node.calls[id]? = none := by
    rw [TreeMap.contains_eq_isSome_getElem?] at absent
    simpa using absent
  refine ⟨⟨inv.orderly.begin aside (fun pending => ⟨valid pending, ?_⟩), ?_⟩, le_rfl⟩
  · exact not_pending_of_quiet quiet
  · refine inv.stage.setCall ?_
    rintro _ _ ⟨_, lookup⟩
    rw [none] at lookup
    cases lookup

theorem inv_refuseByLimit {segments bytes maxSegments maxBytes : Nat}
    (taken : node.step (.refuseByLimit id segments bytes maxSegments maxBytes) = some next) :
    Inv first next ∧ node.durableLsn ≤ next.durableLsn := by
  rcases bind_eq_some_iff.mp taken with ⟨_, lookup, refused⟩
  split at refused
  · cases refused
    refine ⟨⟨inv.orderly.advance lookup rfl nofun nofun (fun _ _ owner => owner),
      inv.stage.setCall ?_⟩, le_rfl⟩
    rintro _ _ ⟨_, found⟩
    rw [lookup] at found
    cases found
    rfl
  · cases refused

theorem inv_send (taken : node.step (.send id) = some next) :
    Inv first next ∧ node.durableLsn ≤ next.durableLsn := by
  rcases bind_eq_some_iff.mp taken with ⟨_, lookup, sent⟩
  split at sent
  · next txn batch =>
    split at sent
    · next free =>
      cases sent
      refine ⟨⟨inv.orderly.advance lookup rfl (fun _ => rfl) (fun _ => rfl) ?_, ?_⟩, le_rfl⟩
      · intro _ _ owner
        rw [free] at owner
        cases owner
      · cases inv.stage with
        | idle lsn _ queue group channel durable ready =>
          exact .sent lsn id batch rfl (by simp [queue]) group channel durable
            ⟨txn, TreeMap.getElem?_insert_self⟩ ready
        | sent _ _ _ sender | flushed _ _ _ sender | handed _ _ _ _ sender
        | replayed _ _ _ sender => rw [free] at sender; cases sender
    · cases sent
  · cases sent

omit inv in
theorem setPhase_eq {old : AppendCall} (lookup : node.calls[id]? = some old) (phase : CallPhase) :
    node.setPhase id phase = node.setCall id { old with phase := phase } := by
  unfold setPhase
  rw [lookup]

omit inv in
theorem InPhase.setCall_self (node : AppendNode) (id : CallId) (txn : Bool) (batch : WalBatch)
    (phase : CallPhase) : (node.setCall id ⟨txn, batch, phase⟩).InPhase id batch phase :=
  ⟨txn, TreeMap.getElem?_insert_self⟩

theorem inv_writeGroup {size : Nat} (taken : node.step (.writeGroup size) = some next) :
    Inv first next ∧ node.durableLsn ≤ next.durableLsn := by
  unfold step at taken
  dsimp only at taken
  split at taken
  · next enabled =>
    rcases enabled with ⟨_, waiting, positive⟩
    cases taken
    cases inv.stage with
    | sent lsn owner batch sender queue _ channel durable phase ready =>
      rcases phase with ⟨txn, lookup⟩
      have one : node.queue.take size = [owner] := by
        rw [queue]
        exact take_of_length_le (Nat.succ_le_of_lt positive)
      have rest : node.queue.drop size = [] := by
        rw [queue]
        exact drop_of_length_le (Nat.succ_le_of_lt positive)
      rw [one, rest, foldl_cons, foldl_nil, setPhase_eq lookup]
      refine ⟨⟨inv.orderly.advance lookup rfl (fun _ => rfl) (fun _ => sender)
        (fun _ _ holder => holder), ?_⟩, le_rfl⟩
      exact .flushed lsn owner batch sender rfl rfl channel durable
        (InPhase.setCall_self node owner txn batch .flushed) ready
    | idle _ _ queue | flushed _ _ _ _ queue | handed _ _ _ _ _ queue | replayed _ _ _ _ queue =>
      exact absurd queue waiting
  · cases taken

theorem inv_storeDurableLsn (taken : node.step .storeDurableLsn = some next) :
    Inv first next ∧ node.durableLsn ≤ next.durableLsn := by
  unfold step at taken
  dsimp only at taken
  split at taken
  · cases taken
  · next some =>
    cases taken
    cases inv.stage with
    | flushed lsn owner batch sender queue group channel durable phase ready =>
      rcases phase with ⟨txn, lookup⟩
      have valid : validateIncomingWalBatch (lsn + 1) batch = .ok () := by
        rw [← durable]
        exact inv.orderly.valid owner _ lookup rfl
      rcases validateIncomingWalBatch_eq_ok.mp valid with ⟨_, _⟩
      have batches : node.batchesOf node.group = [batch] := by
        rw [group]
        simp [batchesOf, lookup]
      rw [batches, group]
      simp only [foldl_cons, foldl_nil, Nat.zero_max, setPhase_eq lookup]
      refine ⟨⟨inv.orderly.store batch.endLsn lookup rfl rfl sender, ?_⟩, by omega⟩
      exact .handed lsn owner batch node.channel sender queue rfl rfl channel rfl
        (InPhase.setCall_self node owner txn batch .handed) valid ready
    | idle _ _ _ group | sent _ _ _ _ _ group | handed _ _ _ _ _ _ group
    | replayed _ _ _ _ _ group => exact absurd group some

end

theorem step_replay_empty (channel : node.channel = batch :: rest) (empty : batch.records = []) :
    node.step .replay = some { node with
      channel := rest
      requestIndex := noteRequest node.requestIndex batch } := by
  unfold step
  rw [channel]
  simp only [LiveReplay.replayBatch, empty, LiveReplay.replayRecords, redoLogical, Backlog.after,
    foldlM_nil, foldl_nil, ite_self, pure, Except.pure]

theorem step_replay_handed (channel : node.channel = batch :: rest)
    (valid : validateIncomingWalBatch (lsn + 1) batch = .ok ()) (drains : node.drains batch)
    (holds : Holds node.backlog lsn node.logical node.live)
    (caughtUp : node.backlog.caughtUp = true) :
    ∃ live logical, node.step .replay = some { node with
        channel := rest
        live := live
        requestIndex := noteRequest node.requestIndex batch
        logical := logical
        backlog := node.backlog.after batch.records } ∧
      Holds (node.backlog.after batch.records) (lsn + batch.records.length) logical live ∧
      node.live.Grows live ∧ ((node.backlog.after batch.records).caughtUp = true ->
        ∀ record ∈ batch.records, ¬ record.op.isTxn = true ->
          record ∈ live.replay.applied) := by
  rcases validateIncomingWalBatch_eq_ok.mp valid with ⟨start, _, numbered⟩
  rw [start] at numbered
  rcases drains with ⟨applies, empties⟩
  cases redone : batch.records.foldlM redo node.logical with
  | error _ =>
    rw [redone] at applies
    cases applies
  | ok logical =>
    rcases holds.records numbered redone with ⟨live, replayed, held, grows, took⟩
    have ran : node.live.replayBatch batch = .ok live := by
      rw [LiveReplay.replayBatch, holds.caughtUp.mp caughtUp, replayed]
    refine ⟨live, logical, ?_, held, grows, ?_⟩
    · unfold step
      rw [channel]
      simp only [ran, redoLogical, redone, caughtUp, if_true]
    · intro up record member page
      rcases took record member page with applied | waiting
      · exact applied
      · -- the last record left no buffer with bytes in it
        have zero : (live.bufferOf record.pageId).bytes = 0 := by
          rw [held.waiting, TreeMap.getD_eq_getD_getElem?]
          cases stored : (node.backlog.after batch.records).waiting[record.pageId]? with
          | none => rfl
          | some size =>
            have all := all_eq_true.mp (empties up) (record.pageId, size)
              (TreeMap.mem_toList_iff_getElem?_eq_some.mpr stored)
            simpa using all
        rw [held.empty record.pageId zero] at waiting
        cases waiting

theorem Settled.grows {live after : LiveReplay}
    (settled : Settled first lsn acknowledged live.replay.applied) (grows : live.Grows after) :
    Settled first lsn acknowledged after.replay.applied where
  covers := settled.covers
  applied := fun batch member record inside page =>
    grows.applied record (settled.applied batch member record inside page)

theorem Drained.tail (drained : Drained (batch :: rest)) : Drained rest :=
  fun other member => drained other (mem_cons_of_mem batch member)

theorem Drained.snoc {before : List WalBatch} (drained : Drained before)
    (empty : batch.records = []) : Drained (before ++ [batch]) :=
  forall_mem_append.mpr ⟨drained, forall_mem_singleton.mpr empty⟩

theorem inv_replay (inv : Inv first node)
    (drains : ∀ batch ∈ node.channel.head?, node.drains batch)
    (taken : node.step .replay = some next) :
    Inv first next ∧ node.durableLsn ≤ next.durableLsn := by
  have enabled : node.channel ≠ [] := by
    intro empty
    unfold step at taken
    rw [empty] at taken
    cases taken
  rcases exists_cons_of_ne_nil enabled with ⟨head, _, shape⟩
  cases inv.stage with
  | idle lsn sender queue group channel durable ready =>
    rw [shape] at channel
    rw [step_replay_empty shape (channel head mem_cons_self)] at taken
    cases taken
    exact ⟨⟨inv.orderly, .idle lsn sender queue group channel.tail durable ready⟩, le_rfl⟩
  | sent lsn id batch sender queue group channel durable phase ready =>
    rw [shape] at channel
    rw [step_replay_empty shape (channel head mem_cons_self)] at taken
    cases taken
    exact ⟨⟨inv.orderly, .sent lsn id batch sender queue group channel.tail durable phase ready⟩,
      le_rfl⟩
  | flushed lsn id batch sender queue group channel durable phase ready =>
    rw [shape] at channel
    rw [step_replay_empty shape (channel head mem_cons_self)] at taken
    cases taken
    exact ⟨⟨inv.orderly,
      .flushed lsn id batch sender queue group channel.tail durable phase ready⟩, le_rfl⟩
  | handed lsn id batch before sender queue group channel drained durable phase valid ready =>
    cases before with
    | nil =>
      rcases step_replay_handed channel valid (drains batch (by rw [channel]; rfl)) ready.holds
        ready.caughtUp with ⟨_, _, stepped, holds, grows, applied⟩
      rw [stepped] at taken
      cases taken
      exact ⟨⟨inv.orderly, .replayed lsn id batch sender queue group rfl durable phase valid
        (ready.settled.grows grows) holds applied⟩, le_rfl⟩
    | cons first others =>
      rw [step_replay_empty channel (drained first mem_cons_self)] at taken
      cases taken
      exact ⟨⟨inv.orderly, .handed lsn id batch others sender queue group rfl drained.tail
        durable phase valid ready⟩, le_rfl⟩
  | replayed _ _ _ _ _ _ channel => exact absurd channel enabled

theorem Settled.acknowledge {applied : List WalRecord}
    (settled : Settled first lsn acknowledged applied)
    (valid : validateIncomingWalBatch (lsn + 1) batch = .ok ())
    (own : ∀ record ∈ batch.records, ¬ record.op.isTxn = true -> record ∈ applied) :
    Settled first (lsn + batch.records.length) (acknowledged ++ [batch]) applied where
  covers := by
    rcases validateIncomingWalBatch_eq_ok.mp valid with ⟨_, _⟩
    have ends : lsn + batch.records.length + 1 = batch.endLsn := by omega
    rw [ends]
    exact .snoc settled.covers valid
  applied := by
    intro other member record inside page
    rcases mem_append.mp member with earlier | last
    · exact settled.applied other earlier record inside page
    · rw [mem_singleton.mp last] at inside
      exact own record inside page

theorem inv_acknowledge (inv : Inv first node) (taken : node.step (.acknowledge id) = some next) :
    Inv first next ∧ node.durableLsn ≤ next.durableLsn := by
  rcases bind_eq_some_iff.mp taken with ⟨_, lookup, rest⟩
  split at rest
  · next _ batch =>
    split at rest
    · next _ =>
      cases rest
      have owner := inv.orderly.engaged id _ lookup rfl
      have same : ∀ {other : CallId} {held : WalBatch} {phase : CallPhase},
          node.sender = some other -> node.InPhase other held phase ->
          held = batch ∧ phase = .handed := by
        intro other held phase sender inPhase
        rcases inPhase with ⟨_, found⟩
        rw [owner] at sender
        cases sender
        rw [lookup] at found
        cases found
        exact ⟨rfl, rfl⟩
      refine ⟨⟨inv.orderly.advance lookup rfl nofun nofun ?_, ?_⟩, le_rfl⟩
      · intro other different holder
        rw [owner] at holder
        cases holder
        exact absurd rfl different
      · cases inv.stage with
        | idle _ sender => rw [owner] at sender; cases sender
        | sent _ _ _ sender _ _ _ _ phase => cases (same sender phase).2
        | flushed _ _ _ sender _ _ _ _ phase => cases (same sender phase).2
        | handed lsn other held before sender queue group channel drained durable phase valid
            ready =>
            cases (same sender phase).1
            rcases validateIncomingWalBatch_eq_ok.mp valid with ⟨_, finish, _⟩
            have last := ready.holds.caughtUp.mp ready.caughtUp
            have empty : batch.records = [] := length_eq_zero_iff.mp (by omega)
            have settled := ready.settled.acknowledge valid (by simp [empty])
            have allDrained : Drained node.channel := by
              rw [channel]
              exact drained.snoc empty
            rw [empty, length_nil] at settled finish
            exact .idle lsn rfl queue group allDrained (durable.trans (by omega))
              { ready with settled := settled }
        | replayed lsn other held sender queue group channel durable phase valid settled holds
            applied =>
            cases (same sender phase).1
            rcases validateIncomingWalBatch_eq_ok.mp valid with ⟨_, _, _⟩
            have bound := holds.applied_le
            have caughtUp := holds.caughtUp.mpr (by omega)
            have allDrained : Drained node.channel := by simp [Drained, channel]
            exact .idle (lsn + batch.records.length) rfl queue group allDrained
              (durable.trans (by omega))
              ⟨settled.acknowledge valid (applied caughtUp), holds, caughtUp⟩
    · cases rest
  · cases rest

theorem inv_step (action : AppendAction) (inv : Inv first node)
    (admitted : node.disciplined action) (taken : node.step action = some next) :
    Inv first next ∧ node.durableLsn ≤ next.durableLsn := by
  cases action with
  | appendTxnBatch _ requestId startLsn endLsn writes =>
    unfold step at taken
    dsimp only at taken
    split at taken
    · cases taken
    · next absent =>
      cases taken
      rcases startTxnPhase_spec node.requestIndex node.durableLsn requestId startLsn endLsn
        writes with ⟨aside, valid⟩
      exact inv_begin inv admitted absent aside valid
  | appendWalBatch _ batch =>
    unfold step at taken
    dsimp only at taken
    split at taken
    · cases taken
    · next absent =>
      cases taken
      rcases startPhase_spec node.durableLsn batch with ⟨aside, valid⟩
      exact inv_begin inv admitted absent aside valid
  | refuseByLimit => exact inv_refuseByLimit inv taken
  | send => exact inv_send inv taken
  | writeGroup => exact inv_writeGroup inv taken
  | storeDurableLsn => exact inv_storeDurableLsn inv taken
  | replay => exact inv_replay inv admitted taken
  | acknowledge => exact inv_acknowledge inv taken

end Step

theorem inv_opened (replay : Replay) : Inv (replay.lastApplied + 1) (opened replay) where
  orderly :=
    { valid := by simp [opened]
      alone := by simp [opened]
      engaged := by simp [opened] }
  stage := .idle replay.lastApplied rfl rfl rfl (by simp [Drained, opened]) rfl
    { settled := ⟨.nil, by simp [opened]⟩
      holds := holds_start replay
      caughtUp := rfl }

theorem inv_of_reaches {replay : Replay} (reached : Reaches step disciplined (opened replay) node) :
    Inv (replay.lastApplied + 1) node :=
  reached.invariant (inv_opened replay)
    (fun _ action _ inv admitted taken => (inv_step action inv admitted taken).1)

theorem Inv.acknowledgedInOrder (inv : Inv first node) : node.AcknowledgedInOrder := by
  have settled : ∃ lsn, Settled first lsn node.acknowledged node.live.replay.applied := by
    cases inv.stage with
    | idle lsn _ _ _ _ _ ready | sent lsn _ _ _ _ _ _ _ _ ready
    | flushed lsn _ _ _ _ _ _ _ _ ready | handed lsn _ _ _ _ _ _ _ _ _ _ _ ready =>
      exact ⟨lsn, ready.settled⟩
    | replayed lsn _ _ _ _ _ _ _ _ _ settled => exact ⟨lsn, settled⟩
  rcases settled with ⟨_, settled⟩
  exact ⟨settled.covers.disjoint, settled.covers.contiguous.1, settled.applied⟩

/-- In a disciplined run the acknowledged batches are in order, and no step
moves `durable_lsn` backwards. -/
theorem acknowledgedInOrder_of_disciplined (replay : Replay) (node : AppendNode)
    (reached : Reaches step disciplined (opened replay) node) :
    node.AcknowledgedInOrder ∧ ∀ action next, node.disciplined action ->
      node.step action = some next -> node.durableLsn ≤ next.durableLsn :=
  have inv := inv_of_reaches reached
  ⟨inv.acknowledgedInOrder, fun action _ admitted taken => (inv_step action inv admitted taken).2⟩

/-- A batch of two images, a batch that is refused for its range meanwhile,
and a second batch. -/
theorem acknowledgedInOrder_of_disciplined_twoBatches :
    ∃ node, Reaches step disciplined (opened .blank) node ∧
      node.acknowledged.map WalBatch.startLsn = [1, 3] ∧ node.AcknowledgedInOrder := by
  refine exists_reaches_with
    [.appendTxnBatch 0 1 1 3 [(1, .filled 1), (2, .filled 2)], .send 0, .writeGroup 1,
      .storeDurableLsn, .appendTxnBatch 1 2 1 2 [(1, .filled 3)], .replay, .acknowledge 0,
      .appendTxnBatch 2 3 3 4 [(1, .filled 4)], .send 2, .writeGroup 1, .storeDurableLsn, .replay,
      .acknowledge 2]
    (fun node reached => (acknowledgedInOrder_of_disciplined .blank node reached).1) ?_
  decide +kernel

/-- Two calls are validated at LSN 1.  After the first one has covered the LSNs
1 and 2, the second one covers LSN 1 again, and `durable_lsn` falls from 3 to 2. -/
theorem not_acknowledgedInOrder :
    ¬ (∀ (replay : Replay) (node : AppendNode), Reaches step anyStep (opened replay) node ->
      (node.acknowledged.map WalBatch.requestId).Nodup -> node.AcknowledgedInOrder) := by
  intro safe
  have passed : (runGuarded step anyStep (opened .blank)
      [.appendTxnBatch 0 1 1 3 [(1, .filled 1), (2, .filled 2)],
        .appendTxnBatch 1 2 1 2 [(3, .filled 3)], .send 0, .writeGroup 1, .storeDurableLsn, .replay,
        .acknowledge 0, .send 1, .writeGroup 1, .storeDurableLsn, .replay, .acknowledge 1]).any
      (fun node => node.acknowledged.map WalBatch.requestId = [1, 2] ∧
        node.acknowledged.map WalBatch.endLsn = [3, 2] ∧
        node.acknowledged.map WalBatch.startLsn = [1, 1]) = true := by
    decide +kernel
  rcases exists_reaches_of_decide passed with ⟨node, reached, requests, ends, starts⟩
  have contiguous := (safe .blank node reached (by rw [requests]; decide)).contiguous
  rcases batches : node.acknowledged with _ | ⟨_, _ | ⟨_, _⟩⟩ <;>
    rw [batches] at ends starts contiguous
  · cases ends
  · simp at ends
  · have adjacent := (isChain_cons_cons.mp contiguous).1
    simp only [map_cons, List.cons.injEq] at ends starts
    omega

end AppendNode

end Storage
end ScaleKv
