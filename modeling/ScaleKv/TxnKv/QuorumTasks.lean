import ScaleKv.TxnKv.Codec
import ScaleKv.Foundation.Run

namespace ScaleKv
namespace TxnKv

open Foundation List Function Codec

/-!
# The tasks of a quorum write

`quorum_write` spawns one task per replica and returns as soon as a quorum of
them has succeeded; the others go on by themselves.  The commit lock orders the
calls but not the tasks, so a task of one call may end after tasks of later
calls on the same replica.  A task that fails hands its operation to the repair
worker.

The files of a replica hold the bytes of what was written to them last: the
arguments of `write_snapshot`, and the records since the last truncation.
-/

inductive QuorumOp
  | append (record : WalRecord)
  | snapshot (commitTs : Nat) (store : Store)
  | truncate

/-- The files of a replica. -/
structure Replica where
  snapshot : Option (Store × Nat)
  wal : List WalRecord

namespace QuorumOp

/-- `QuorumOp::apply`, where it succeeds. -/
def apply (op : QuorumOp) (replica : Replica) : Replica :=
  match op with
  | append record => { replica with wal := replica.wal ++ [record] }
  | snapshot commitTs store => { replica with snapshot := some (store, commitTs) }
  | truncate => { replica with wal := [] }

/-- `write_snapshot_file` may refuse the store. -/
def writable : QuorumOp -> Bool
  | snapshot commitTs store => (encodeSnapshot commitTs store).toOption.isSome
  | _ => true

end QuorumOp

namespace Replica

/-- What `load_snapshot` returns. -/
def loaded (replica : Replica) : Option (Store × Nat) :=
  replica.snapshot.map (fun written => (snapshotStore written.2 (snapshotEntries written.1), written.2))

/-- The snapshot file, as `write_snapshot_file` has written it. -/
def snapshotFile (replica : Replica) : Option Bytes :=
  replica.snapshot.bind (fun written => (encodeSnapshot written.2 written.1).toOption)

def walFile (replica : Replica) : Bytes := replica.wal.flatMap frame

/-- What a later open finds. -/
def files (replica : Replica) : ReplicaFiles := filesOf replica.snapshotFile replica.walFile

end Replica

/-- A spawned task that has not ended. -/
structure Task (replicas : Nat) where
  call : Nat
  replica : Fin replicas
  op : QuorumOp

/-- What the holder of the commit lock waits for. -/
inductive CallStage
  | idle
  | committing (record : WalRecord)
  | snapshotting
  | truncating

/-- `TxnManager` over `QuorumStorage`.  `calls` numbers the quorum writes, and
`successes` counts the results that the current one has received.  `acknowledged`
and `failed` list the records of the commits that have returned; no operation
reads them. -/
structure QuorumManager (replicas : Nat) where
  store : Store
  commitTs : Nat
  stage : CallStage
  calls : Nat
  successes : Nat
  tasks : List (Task replicas)
  repairs : List (Fin replicas × QuorumOp × Nat)
  replicas : Fin replicas -> Replica
  acknowledged : List WalRecord
  failed : List WalRecord

namespace QuorumManager

variable {replicas : Nat}

/-- A manager over replicas without files. -/
def fresh : QuorumManager replicas :=
  { store := ∅, commitTs := 0, stage := .idle, calls := 0, successes := 0, tasks := [], repairs := []
    replicas := fun _ => { snapshot := none, wal := [] }, acknowledged := [], failed := [] }

/-- The part of `quorum_write` before its loop over the results. -/
def spawn (manager : QuorumManager replicas) (op : QuorumOp) (stage : CallStage) : QuorumManager replicas :=
  { manager with
    stage := stage
    calls := manager.calls + 1
    successes := 0
    tasks := manager.tasks ++ (List.finRange replicas).map (fun replica => ⟨manager.calls + 1, replica, op⟩) }

/-- The record that `commit` appends, if it comes to that. -/
def recordOf (manager : QuorumManager replicas) (txn : Txn) : WalRecord :=
  ⟨manager.commitTs + 1, txn.writeSet.toList⟩

/-- The start of the quorum write of a commit. -/
def startAppend (manager : QuorumManager replicas) (txn : Txn) : QuorumManager replicas :=
  { manager with commitTs := manager.commitTs + 1 }.spawn (.append (manager.recordOf txn))
    (.committing (manager.recordOf txn))

/-- `commit` up to its quorum write. -/
def commit (manager : QuorumManager replicas) (txn : Txn) : Option (QuorumManager replicas) :=
  match manager.stage with
  | .idle =>
    if txn.readOnly || txn.writeSet.isEmpty then some manager
    else if txn.conflicts manager.store then some manager
    else
      match encodePayload txn.writeSet with
      | .error _ => some { manager with commitTs := manager.commitTs + 1 }
      | .ok () => some (manager.startAppend txn)
  | _ => none

/-- `checkpoint` up to its first quorum write. -/
def checkpoint (manager : QuorumManager replicas) : Option (QuorumManager replicas) :=
  match manager.stage with
  | .idle => some (manager.spawn (.snapshot manager.commitTs manager.store) .snapshotting)
  | _ => none

/-- The task at the given position ends.  The current call counts its success. -/
def finish (manager : QuorumManager replicas) (position : Nat) (succeeds : Bool) :
    Option (QuorumManager replicas) :=
  match manager.tasks[position]? with
  | none => none
  | some task =>
    if succeeds then
      if task.op.writable then some { manager with
        tasks := manager.tasks.eraseIdx position
        replicas := update manager.replicas task.replica
          (task.op.apply (manager.replicas task.replica))
        successes := if task.call = manager.calls then manager.successes + 1 else manager.successes }
      else none
    else some { manager with
      tasks := manager.tasks.eraseIdx position
      repairs := manager.repairs ++ [(task.replica, task.op, 1)] }

/-- Every task of the current call has sent its result. -/
def allEnded (manager : QuorumManager replicas) : Bool :=
  manager.tasks.all (fun task => task.call ≠ manager.calls)

/-- A commit publishes its versions and returns. -/
def acknowledge (manager : QuorumManager replicas) (record : WalRecord) : QuorumManager replicas :=
  { manager with
    store := pushVersions manager.store record.commitTs record.ops
    stage := .idle
    acknowledged := manager.acknowledged ++ [record] }

/-- The end of `quorum_write`, and what its caller does then. -/
def returns (quorum : Nat) (manager : QuorumManager replicas) : Option (QuorumManager replicas) :=
  if quorum ≤ manager.successes then
    match manager.stage with
    | .idle => none
    | .committing record => some (manager.acknowledge record)
    | .snapshotting => some (manager.spawn .truncate .truncating)
    | .truncating => some { manager with stage := .idle }
  else if manager.allEnded then
    match manager.stage with
    | .idle => none
    | .committing record => some { manager with stage := .idle, failed := manager.failed ++ [record] }
    | .snapshotting => some { manager with stage := .idle }
    | .truncating => some { manager with stage := .idle }
  else none

/-- An attempt of the repair worker. -/
def repair (manager : QuorumManager replicas) (succeeds : Bool) : Option (QuorumManager replicas) :=
  match manager.repairs with
  | [] => none
  | (replica, op, attempt) :: rest =>
    if succeeds then
      if op.writable then some { manager with
        replicas := update manager.replicas replica (op.apply (manager.replicas replica))
        repairs := rest }
      else none
    else some { manager with
      repairs := if repairMaxAttempts ≤ attempt then rest else (replica, op, attempt + 1) :: rest }

inductive Action
  | commit (txn : Txn)
  | checkpoint
  | finish (position : Nat) (succeeds : Bool)
  | returns
  | repair (succeeds : Bool)

def step (quorum : Nat) (manager : QuorumManager replicas) : Action -> Option (QuorumManager replicas)
  | .commit txn => manager.commit txn
  | .checkpoint => manager.checkpoint
  | .finish position succeeds => manager.finish position succeeds
  | .returns => manager.returns quorum
  | .repair succeeds => manager.repair succeeds

/-- What a later open finds. -/
def files (manager : QuorumManager replicas) : List ReplicaFiles :=
  (List.finRange replicas).map (fun replica => (manager.replicas replica).files)

/-! ## What one step can do -/

/-- An operation has been applied to a replica. -/
def written (manager : QuorumManager replicas) (replica : Fin replicas) (op : QuorumOp) :
    Fin replicas -> Replica :=
  update manager.replicas replica (op.apply (manager.replicas replica))

/-- What a commit that comes to its quorum write has passed. -/
structure Appends (manager : QuorumManager replicas) (txn : Txn) : Prop where
  idle : manager.stage = .idle
  writes : txn.writeSet.isEmpty = false
  encoded : encodePayload txn.writeSet = .ok ()

inductive Moves (quorum : Nat) (manager : QuorumManager replicas) :
    Action -> QuorumManager replicas -> Prop
  | passes {txn} : Moves quorum manager (.commit txn) manager
  | refuses {txn} : Moves quorum manager (.commit txn) { manager with commitTs := manager.commitTs + 1 }
  | commits {txn} : Appends manager txn ->
      Moves quorum manager (.commit txn) (manager.startAppend txn)
  | checkpoints : manager.stage = .idle ->
      Moves quorum manager .checkpoint (manager.spawn (.snapshot manager.commitTs manager.store) .snapshotting)
  | succeeds (before after : List (Task replicas)) (task : Task replicas) (successes : Nat) :
      manager.tasks = before ++ task :: after -> task.op.writable = true ->
      Moves quorum manager (.finish before.length true) { manager with
        tasks := before ++ after
        replicas := manager.written task.replica task.op
        successes := successes }
  | fails (before after : List (Task replicas)) (task : Task replicas) :
      manager.tasks = before ++ task :: after ->
      Moves quorum manager (.finish before.length false) { manager with
        tasks := before ++ after
        repairs := manager.repairs ++ [(task.replica, task.op, 1)] }
  | acknowledges {record} : manager.stage = .committing record -> quorum ≤ manager.successes ->
      Moves quorum manager .returns (manager.acknowledge record)
  | gives {record} : manager.stage = .committing record -> manager.successes < quorum ->
      Moves quorum manager .returns { manager with stage := .idle, failed := manager.failed ++ [record] }
  | truncates : manager.stage = .snapshotting -> quorum ≤ manager.successes ->
      Moves quorum manager .returns (manager.spawn .truncate .truncating)
  | ends : manager.stage = .truncating ∨ manager.stage = .snapshotting ->
      (manager.stage = .snapshotting -> manager.successes < quorum) ->
      Moves quorum manager .returns { manager with stage := .idle }
  | repairs (replica : Fin replicas) (op : QuorumOp) (attempt : Nat) (rest : List (Fin replicas × QuorumOp × Nat)) :
      manager.repairs = (replica, op, attempt) :: rest -> op.writable = true ->
      Moves quorum manager (.repair true) { manager with
        replicas := manager.written replica op
        repairs := rest }
  | delays (replica : Fin replicas) (op : QuorumOp) (attempt : Nat)
      (rest later : List (Fin replicas × QuorumOp × Nat)) :
      manager.repairs = (replica, op, attempt) :: rest ->
      later = rest ∨ later = (replica, op, attempt + 1) :: rest ->
      Moves quorum manager (.repair false) { manager with repairs := later }

variable {quorum : Nat} {manager next : QuorumManager replicas} {succeeds : Bool} {position : Nat}

theorem moves_of_commit {txn : Txn} (taken : manager.commit txn = some next) :
    Moves quorum manager (.commit txn) next := by
  unfold commit at taken
  split at taken
  · next idle =>
    split at taken
    · cases taken
      exact .passes
    · next writes =>
      split at taken
      · cases taken
        exact .passes
      · split at taken
        · cases taken
          exact .refuses
        · next encoded =>
          cases taken
          have nonempty : (txn.readOnly || txn.writeSet.isEmpty) = false := Bool.eq_false_iff.mpr writes
          exact .commits ⟨idle, (Bool.or_eq_false_iff.mp nonempty).2, encoded⟩
  · cases taken

theorem eq_append_cons_of_getElem? {Item : Type} {items : List Item} {item : Item}
    (found : items[position]? = some item) :
    items = items.take position ++ item :: items.drop (position + 1) ∧
      (items.take position).length = position ∧
      items.eraseIdx position = items.take position ++ items.drop (position + 1) := by
  rcases List.getElem?_eq_some_iff.mp found with ⟨inside, isItem⟩
  refine ⟨?_, length_take_of_le inside.le, eraseIdx_eq_take_drop_succ _ _⟩
  rw [← isItem, getElem_cons_drop, take_append_drop]

theorem mem_tasks_of_split {before after : List (Task replicas)} {task : Task replicas}
    (isSplit : manager.tasks = before ++ task :: after) :
    task ∈ manager.tasks ∧ ∀ other ∈ before ++ after, other ∈ manager.tasks := by
  rw [isSplit]
  refine ⟨mem_append_right _ mem_cons_self, ?_⟩
  exact fun other member => (List.Sublist.append_left (sublist_cons_self task after) before).subset member

/-- What a delayed repair leaves in the queue are the operations that were there. -/
theorem ops_of_delayed {replica : Fin replicas} {op : QuorumOp} {attempt : Nat}
    {rest later : List (Fin replicas × QuorumOp × Nat)} (queue : manager.repairs = (replica, op, attempt) :: rest)
    (isLater : later = rest ∨ later = (replica, op, attempt + 1) :: rest) {property : QuorumOp -> Prop}
    (before : ∀ entry ∈ manager.repairs, property entry.2.1) :
    ∀ entry ∈ later, property entry.2.1 := by
  rw [queue] at before
  intro entry member
  rcases isLater with rfl | rfl
  · exact before entry (mem_cons_of_mem _ member)
  · rcases mem_cons.mp member with rfl | inRest
    · exact before (replica, op, attempt) mem_cons_self
    · exact before entry (mem_cons_of_mem _ inRest)

theorem moves_of_finish (taken : manager.finish position succeeds = some next) :
    Moves quorum manager (.finish position succeeds) next := by
  unfold finish at taken
  split at taken
  · cases taken
  · next task found =>
    rcases eq_append_cons_of_getElem? found with ⟨isSplit, isPosition, erased⟩
    rw [erased] at taken
    cases succeeds with
    | true =>
      rw [if_pos rfl] at taken
      split at taken
      · next writable =>
        cases taken
        have moved := @Moves.succeeds replicas quorum manager _ _ _
          (if task.call = manager.calls then manager.successes + 1 else manager.successes) isSplit writable
        rw [isPosition] at moved
        exact moved
      · cases taken
    | false =>
      rw [if_neg Bool.false_ne_true] at taken
      cases taken
      have moved := @Moves.fails replicas quorum manager _ _ _ isSplit
      rw [isPosition] at moved
      exact moved

theorem moves_of_returns (taken : manager.returns quorum = some next) : Moves quorum manager .returns next := by
  unfold returns at taken
  split at taken
  · next enough =>
    split at taken
    · cases taken
    · next _ stage =>
      cases taken
      exact .acknowledges stage enough
    · next stage =>
      cases taken
      exact .truncates stage enough
    · next stage =>
      cases taken
      exact .ends (.inl stage) (fun other => by rw [stage] at other; cases other)
  · next few =>
    split at taken
    · split at taken
      · cases taken
      · next _ stage =>
        cases taken
        exact .gives stage (lt_of_not_ge few)
      · next stage =>
        cases taken
        exact .ends (.inr stage) (fun _ => lt_of_not_ge few)
      · next stage =>
        cases taken
        exact .ends (.inl stage) (fun _ => lt_of_not_ge few)
    · cases taken

theorem moves_of_repair (taken : manager.repair succeeds = some next) :
    Moves quorum manager (.repair succeeds) next := by
  unfold repair at taken
  split at taken
  · cases taken
  · next replica op attempt rest queue =>
    cases succeeds with
    | true =>
      rw [if_pos rfl] at taken
      split at taken
      · next writable =>
        cases taken
        exact .repairs replica op attempt rest queue writable
      · cases taken
    | false =>
      rw [if_neg Bool.false_ne_true] at taken
      cases taken
      refine .delays replica op attempt rest _ queue ?_
      split
      · exact .inl rfl
      · exact .inr rfl

theorem moves_of_step {action : Action} (taken : manager.step quorum action = some next) :
    Moves quorum manager action next := by
  cases action with
  | commit => exact moves_of_commit taken
  | checkpoint =>
    change manager.checkpoint = some next at taken
    unfold checkpoint at taken
    split at taken
    · next idle =>
      cases taken
      exact .checkpoints idle
    · cases taken
  | finish => exact moves_of_finish taken
  | returns => exact moves_of_returns taken
  | repair => exact moves_of_repair taken

end QuorumManager

end TxnKv
end ScaleKv
