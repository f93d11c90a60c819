import ScaleKv.TxnKv.Manager
import Mathlib.Data.List.FinRange
import Mathlib.Data.List.MinMax

namespace ScaleKv
namespace TxnKv

/-!
# Quorum storage and its recovery

`QuorumStorage` writes every log record to all replicas and reports success
once a quorum has it.  When it is opened again it replays every replica on its
own and keeps the one whose largest timestamp is largest, the first of them in
case of a tie.  Records of the other replicas are not merged.

Files are seen here through the results of reading them: an error or the decoded
contents.
-/

/-- One framed record of the log. -/
structure WalRecord where
  commitTs : Nat
  ops : List (Key × Option Value)
deriving DecidableEq

/-- What the file operations of one replica return when the storage is opened. -/
structure ReplicaFiles where
  opened : Except TxnError Unit
  snapshot : Except TxnError (Option (Store × Nat))
  wal : Except TxnError (List WalRecord)

/-- The loop body of `replay_wal_with_base`. -/
def replayRecord (baseTs : Nat) (recovered : Store × Nat) (record : WalRecord) : Store × Nat :=
  if baseTs < record.commitTs then
    (pushVersions recovered.1 record.commitTs record.ops,
      if recovered.2 < record.commitTs then record.commitTs else recovered.2)
  else recovered

def replayWalWithBase (wal : List WalRecord) (store : Store) (baseTs : Nat) : Store × Nat :=
  wal.foldl (replayRecord baseTs) (store, baseTs)

namespace QuorumStorage

/-- Keep the candidate with the larger timestamp, the earlier one in a tie. -/
def newer (best : Option (Store × Nat)) (candidate : Store × Nat) : Option (Store × Nat) :=
  match best with
  | none => some candidate
  | some kept => if kept.2 < candidate.2 then some candidate else some kept

/-- The variables that the loops over the replicas carry. -/
structure Progress where
  best : Option (Store × Nat)
  sawOk : Bool
  lastErr : Option TxnError

def Progress.start : Progress := { best := none, sawOk := false, lastErr := none }

/-- An unreadable snapshot is noted here and the loop goes on. -/
def loadSnapshotFrom (progress : Progress) (files : ReplicaFiles) : Progress :=
  match files.opened with
  | .error error => { progress with lastErr := some error }
  | .ok () =>
    match files.snapshot with
    | .error error => { progress with lastErr := some error }
    | .ok none => { progress with sawOk := true }
    | .ok (some found) => { progress with sawOk := true, best := newer progress.best found }

def loadSnapshot (quorum : Nat) (replicas : List ReplicaFiles) :
    Except TxnError (Option (Store × Nat)) :=
  let progress := replicas.foldl loadSnapshotFrom .start
  if progress.best.isSome then .ok progress.best
  else if progress.sawOk then .ok none
  else .error (progress.lastErr.getD (.quorumNotMet quorum 0))

/-- The same unreadable snapshot ends this loop with its error. -/
def replayWalFrom (progress : Progress) (files : ReplicaFiles) : Except TxnError Progress :=
  match files.opened with
  | .error error => .ok { progress with lastErr := some error }
  | .ok () => do
      let snapshot <- files.snapshot
      let base := snapshot.getD (∅, 0)
      match files.wal with
      | .error error => .ok { progress with lastErr := some error }
      | .ok wal => .ok { progress with best := newer progress.best (replayWalWithBase wal base.1 base.2) }

/-- `QuorumStorage::replay_wal`; its two arguments are not used. -/
def replayWal (quorum : Nat) (replicas : List ReplicaFiles) : Except TxnError (Store × Nat) := do
  let progress <- replicas.foldlM replayWalFrom .start
  match progress.best with
  | some recovered => .ok recovered
  | none => .error (progress.lastErr.getD (.quorumNotMet quorum 0))

end QuorumStorage

/-- `TxnManager::open_quorum`. -/
def openQuorum (quorum : Nat) (replicas : List ReplicaFiles) : Except TxnError State := do
  if quorum < 1 ∨ replicas.length < quorum then
    throw (.invalidQuorum quorum replicas.length)
  let _snapshot <- QuorumStorage.loadSnapshot quorum replicas
  let recovered <- QuorumStorage.replayWal quorum replicas
  return State.opened recovered.1 recovered.2

/-! ## Writing -/

/-- `REPAIR_MAX_ATTEMPTS`. -/
def repairMaxAttempts : Nat := 5

/-- The refusals of `encode_payload`. -/
def encodePayload (writeSet : WriteSet) : Except TxnError Unit :=
  if 2 ^ 32 - 1 < writeSet.size then .error (.corruptWal "too many ops")
  else
    match writeSet.toList.find? (fun write => write.2.any (fun value => valueSize < value.length)) with
    | some (_, some value) => .error (.invalidValueSize value.length valueSize)
    | _ => .ok ()

end TxnKv
end ScaleKv
