import ScaleKv.TxnKv.QuorumTasks
import ScaleKv.TxnKv.QuorumOpen

namespace ScaleKv
namespace TxnKv

open Foundation List Codec Option

/-!
# The files that a run leaves on its replicas

A snapshot and a record carry their lengths and their timestamps in words of a
fixed width.  The writers check the number of operations and the lengths of the
values; the length of a payload and the timestamps are cut to their words.  Where
these fit, the files are read as what was written.
-/

namespace Replica

/-- What was written has passed the checks of the writers. -/
structure Encoded (replica : Replica) : Prop where
  snapshot : ∀ written, replica.snapshot = some written ->
    ∃ bytes, encodeSnapshot written.2 written.1 = .ok bytes
  count : ∀ record ∈ replica.wal, record.ops.length < 2 ^ 32
  ops : ∀ record ∈ replica.wal, ∀ op ∈ record.ops, opFits op

/-- The timestamps and the lengths of the payloads fit their words. -/
structure FitsWords (replica : Replica) : Prop where
  snapshot : ∀ written, replica.snapshot = some written -> written.2 < 2 ^ 64
  commitTs : ∀ record ∈ replica.wal, record.commitTs < 2 ^ 64
  payload : ∀ record ∈ replica.wal, (payloadOf record).length < 2 ^ 32

/-- So that witnesses can evaluate it. -/
instance fitsWordsDecidable (replica : Replica) : Decidable replica.FitsWords :=
  decidable_of_iff ((∀ written ∈ replica.snapshot, written.2 < 2 ^ 64) ∧
      ∀ record ∈ replica.wal, record.commitTs < 2 ^ 64 ∧ (payloadOf record).length < 2 ^ 32)
    ⟨fun fit => ⟨fit.1, fun record member => (fit.2 record member).1,
        fun record member => (fit.2 record member).2⟩,
      fun fit => ⟨fit.snapshot, fun record member => ⟨fit.commitTs record member, fit.payload record member⟩⟩⟩

theorem readable {replica : Replica} (encoded : replica.Encoded) (fits : replica.FitsWords) :
    Readable replica.files replica.loaded replica.wal := by
  refine ⟨rfl, ?_, ?_⟩
  · change loadSnapshotFile replica.snapshotFile = _
    unfold snapshotFile loaded
    cases isWritten : replica.snapshot with
    | none => rfl
    | some written =>
      rcases encoded.snapshot written isWritten with ⟨_, isBytes⟩
      rw [bind_some, isBytes]
      exact loadSnapshotFile_encodeSnapshot isBytes (fits.snapshot written isWritten)
  · refine congrArg (fun read => Except.ok read.1) (readWal_frames ?_)
    intro record member
    exact ⟨⟨fits.commitTs record member, encoded.count record member, encoded.ops record member⟩,
      fits.payload record member⟩

end Replica

namespace QuorumManager

variable {replicas : Nat} {quorum : Nat} {manager next : QuorumManager replicas}

/-! ## Files of runs are encoded -/

/-- The operation writes what the writers let through. -/
def opEncoded : QuorumOp -> Prop
  | .append record => record.ops.length < 2 ^ 32 ∧ ∀ op ∈ record.ops, opFits op
  | _ => True

structure AllEncoded (manager : QuorumManager replicas) : Prop where
  files : ∀ replica, (manager.replicas replica).Encoded
  tasks : ∀ task ∈ manager.tasks, opEncoded task.op
  repairs : ∀ entry ∈ manager.repairs, opEncoded entry.2.1

theorem allEncoded_fresh : AllEncoded (fresh : QuorumManager replicas) := by
  refine ⟨fun _ => ⟨?_, ?_, ?_⟩, ?_, ?_⟩
  · exact nofun
  · exact nofun
  · exact nofun
  · exact nofun
  · exact nofun

theorem AllEncoded.written (inv : AllEncoded manager) (replica : Fin replicas) {op : QuorumOp}
    (encoded : opEncoded op) (writable : op.writable = true) (other : Fin replicas) :
    (manager.written replica op other).Encoded := by
  unfold QuorumManager.written
  by_cases same : other = replica
  · subst same
    rw [Function.update_self]
    have before := inv.files other
    cases op with
    | append =>
      refine ⟨before.snapshot, ?_, ?_⟩
      · exact forall_mem_append.mpr ⟨before.count, forall_mem_singleton.mpr encoded.1⟩
      · exact forall_mem_append.mpr ⟨before.ops, forall_mem_singleton.mpr encoded.2⟩
    | snapshot commitTs store =>
      refine ⟨?_, before.count, before.ops⟩
      intro _ isFound
      cases isFound
      change (encodeSnapshot commitTs store).toOption.isSome = true at writable
      cases isBytes : encodeSnapshot commitTs store with
      | error =>
        rw [isBytes] at writable
        cases writable
      | ok bytes => exact ⟨bytes, rfl⟩
    | truncate =>
      refine ⟨before.snapshot, ?_, ?_⟩
      · exact nofun
      · exact nofun
  · rw [Function.update_of_ne same]
    exact inv.files other

theorem AllEncoded.spawns (inv : AllEncoded manager) (op : QuorumOp) (encoded : opEncoded op) (stage : CallStage)
    (commitTs : Nat) : AllEncoded ({ manager with commitTs := commitTs }.spawn op stage) := by
  refine ⟨inv.files, ?_, inv.repairs⟩
  intro task member
  rcases mem_append.mp member with old | isNew
  · exact inv.tasks task old
  · rcases mem_map.mp isNew with ⟨_, _, rfl⟩
    exact encoded

theorem AllEncoded.step {action : Action} (inv : AllEncoded manager)
    (taken : manager.step quorum action = some next) : AllEncoded next := by
  cases moves_of_step taken with
  | passes => exact inv
  | refuses | acknowledges | gives | ends => exact { inv with }
  | @commits txn appends =>
    exact inv.spawns (.append (manager.recordOf txn)) (opFits_of_encoded appends.encoded) _ _
  | checkpoints => exact inv.spawns (.snapshot manager.commitTs manager.store) trivial _ manager.commitTs
  | succeeds _ _ task _ isSplit writable =>
    rcases mem_tasks_of_split isSplit with ⟨here, smaller⟩
    exact ⟨inv.written task.replica (inv.tasks task here) writable,
      fun other member => inv.tasks other (smaller other member), inv.repairs⟩
  | fails _ _ task isSplit =>
    rcases mem_tasks_of_split isSplit with ⟨here, smaller⟩
    refine ⟨inv.files, fun other member => inv.tasks other (smaller other member), ?_⟩
    refine forall_mem_append.mpr ⟨inv.repairs, forall_mem_singleton.mpr ?_⟩
    exact inv.tasks task here
  | truncates => exact inv.spawns .truncate trivial _ manager.commitTs
  | repairs replica op attempt _ queue writable =>
    have here : (replica, op, attempt) ∈ manager.repairs := by
      rw [queue]
      exact mem_cons_self
    refine ⟨inv.written replica (inv.repairs _ here) writable, inv.tasks, ?_⟩
    intro entry member
    exact inv.repairs entry (by rw [queue]; exact mem_cons_of_mem _ member)
  | delays _ _ _ _ _ queue isLater =>
    exact ⟨inv.files, inv.tasks, ops_of_delayed queue isLater inv.repairs⟩

theorem allEncoded_of_reaches {guard : QuorumManager replicas -> Action -> Prop}
    (reached : Reaches (step quorum) guard fresh manager) : AllEncoded manager :=
  reached.invariant allEncoded_fresh (fun _ _ _ inv _ taken => inv.step taken)

end QuorumManager

end TxnKv
end ScaleKv
