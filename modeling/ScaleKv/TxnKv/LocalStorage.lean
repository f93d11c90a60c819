import ScaleKv.TxnKv.QuorumOpen
import ScaleKv.Foundation.Run

namespace ScaleKv
namespace TxnKv

open Foundation List Codec

/-!
# The transaction manager over a single replica

With one replica a commit waits for its append, so the commits and checkpoints
come one after another.  Their file operations are steps of their own: the
append of a commit, the rename of a snapshot, the truncation of the log.  An
append that fails has written any front part of its record.  Nothing takes these
bytes back, and the repair worker appends the whole record again later.
-/

/-- What the holder of the commit lock has done so far: a commit has appended its
record, or a checkpoint has renamed its snapshot. -/
inductive FileStage
  | idle
  | appended (record : WalRecord)
  | snapshotted

/-- `TxnManager` with its files and the queue of its repair worker.  `returned`
lists the records of the commits that have returned `Ok`; no operation reads it. -/
structure LocalManager where
  store : Store
  commitTs : Nat
  stage : FileStage
  snapshot : Option Bytes
  wal : Bytes
  repairs : List (WalRecord × Nat)
  returned : List WalRecord

namespace LocalManager

/-- A manager over a replica without files. -/
def fresh : LocalManager :=
  { store := ∅, commitTs := 0, stage := .idle, snapshot := none, wal := [], repairs := [], returned := [] }

/-- The record that `commit` appends, if it comes to that. -/
def recordOf (manager : LocalManager) (txn : Txn) : WalRecord :=
  ⟨manager.commitTs + 1, txn.writeSet.toList⟩

/-- `commit` up to its append.  `append` says what becomes of the manager then. -/
def commitWith (manager : LocalManager) (txn : Txn) (append : WalRecord -> LocalManager) :
    Option LocalManager :=
  match manager.stage with
  | .idle =>
    if txn.readOnly || txn.writeSet.isEmpty then some manager
    else if txn.conflicts manager.store then some manager
    else
      match encodePayload txn.writeSet with
      | .error _ => some { manager with commitTs := manager.commitTs + 1 }
      | .ok () => some (append (manager.recordOf txn))
  | _ => none

/-- `commit` up to the end of an append that succeeds. -/
def commit (manager : LocalManager) (txn : Txn) : Option LocalManager :=
  manager.commitWith txn (fun record =>
    { manager with
      commitTs := manager.commitTs + 1
      wal := manager.wal ++ frame record
      stage := .appended record })

/-- `commit` with an append that fails after some bytes; it returns an error, and
the append is left to the repair worker. -/
def commitFails (manager : LocalManager) (txn : Txn) (written : Nat) : Option LocalManager :=
  manager.commitWith txn (fun record =>
    { manager with
      commitTs := manager.commitTs + 1
      wal := manager.wal ++ (frame record).take written
      repairs := manager.repairs ++ [(record, 1)] })

/-- A commit publishes its versions and returns. -/
def published (manager : LocalManager) (record : WalRecord) : LocalManager :=
  { manager with
    store := pushVersions manager.store record.commitTs record.ops
    stage := .idle
    returned := manager.returned ++ [record] }

/-- The end of `commit`. -/
def publish (manager : LocalManager) : Option LocalManager :=
  match manager.stage with
  | .appended record => some (manager.published record)
  | _ => none

/-- `checkpoint` up to the rename of its snapshot. -/
def writeSnapshot (manager : LocalManager) : Option LocalManager :=
  match manager.stage, encodeSnapshot manager.commitTs manager.store with
  | .idle, .ok bytes => some { manager with snapshot := some bytes, stage := .snapshotted }
  | _, _ => none

/-- The end of `checkpoint`. -/
def truncateWal (manager : LocalManager) : Option LocalManager :=
  match manager.stage with
  | .snapshotted => some { manager with wal := [], stage := .idle }
  | _ => none

/-- An attempt of the repair worker, which fails after some bytes or succeeds. -/
def repair (manager : LocalManager) (failsAfter : Option Nat) : Option LocalManager :=
  match manager.repairs with
  | [] => none
  | (record, attempt) :: rest =>
    match failsAfter with
    | none => some { manager with wal := manager.wal ++ frame record, repairs := rest }
    | some written => some { manager with
        wal := manager.wal ++ (frame record).take written
        repairs := if repairMaxAttempts ≤ attempt then rest else (record, attempt + 1) :: rest }

inductive Action
  | commit (txn : Txn)
  | commitFails (txn : Txn) (written : Nat)
  | publish
  | writeSnapshot
  | truncateWal
  | repair (failsAfter : Option Nat)

def step (manager : LocalManager) : Action -> Option LocalManager
  | .commit txn => manager.commit txn
  | .commitFails txn written => manager.commitFails txn written
  | .publish => manager.publish
  | .writeSnapshot => manager.writeSnapshot
  | .truncateWal => manager.truncateWal
  | .repair failsAfter => manager.repair failsAfter

/-- What a later open finds. -/
def files (manager : LocalManager) : List ReplicaFiles := [filesOf manager.snapshot manager.wal]

/-! ## What one step can do -/

/-- Nothing keeps the commit from its append. -/
def reachesAppend (manager : LocalManager) (txn : Txn) : Bool :=
  !(txn.readOnly || txn.writeSet.isEmpty) && !txn.conflicts manager.store &&
    (encodePayload txn.writeSet).toOption.isSome

/-- The commit has drawn its timestamp and is refused then. -/
def refusesPayload (manager : LocalManager) (txn : Txn) : Bool :=
  !(txn.readOnly || txn.writeSet.isEmpty) && !txn.conflicts manager.store &&
    (encodePayload txn.writeSet).toOption.isNone

/-- A commit that comes to its append. -/
structure Appends (manager : LocalManager) (txn : Txn) : Prop where
  idle : manager.stage = .idle
  reaches : manager.reachesAppend txn = true
  encoded : encodePayload txn.writeSet = .ok ()

/-- What a call that comes to no file operation does. -/
structure Passes (manager next : LocalManager) : Prop where
  store : next.store = manager.store
  stage : next.stage = manager.stage
  snapshot : next.snapshot = manager.snapshot
  wal : next.wal = manager.wal
  returned : next.returned = manager.returned

variable {manager next : LocalManager}

theorem commitWith_eq_some {txn : Txn} {append : WalRecord -> LocalManager}
    (taken : manager.commitWith txn append = some next) :
    Passes manager next ∧ (next = manager ∨ manager.refusesPayload txn = true) ∨
      Appends manager txn ∧ next = append (manager.recordOf txn) := by
  unfold commitWith at taken
  split at taken
  · next idle =>
    split at taken
    · cases taken
      exact .inl ⟨⟨rfl, rfl, rfl, rfl, rfl⟩, .inl rfl⟩
    · next writes =>
      split at taken
      · cases taken
        exact .inl ⟨⟨rfl, rfl, rfl, rfl, rfl⟩, .inl rfl⟩
      · next free =>
        split at taken
        · next _ refused =>
          cases taken
          refine .inl ⟨⟨rfl, rfl, rfl, rfl, rfl⟩, .inr ?_⟩
          unfold refusesPayload
          rw [Bool.eq_false_iff.mpr writes, Bool.eq_false_iff.mpr free, refused]
          rfl
        · next encoded =>
          cases taken
          refine .inr ⟨⟨idle, ?_, encoded⟩, rfl⟩
          unfold reachesAppend
          rw [Bool.eq_false_iff.mpr writes, Bool.eq_false_iff.mpr free, encoded]
          rfl
  · cases taken

/-- The record of a commit that comes to its append fits, up to the length of its
payload. -/
theorem Appends.fits {txn : Txn} (appends : Appends manager txn)
    (counter : manager.commitTs + 1 < 2 ^ 64) : Fits (manager.recordOf txn) := by
  rcases opFits_of_encoded appends.encoded with ⟨count, ops⟩
  exact ⟨counter, count, ops⟩

inductive Moves (manager : LocalManager) : Action -> LocalManager -> Prop
  | passes {action next} : Passes manager next -> (next = manager ∨ ∃ txn,
      manager.refusesPayload txn = true ∧
        (action = .commit txn ∨ ∃ written, action = .commitFails txn written)) ->
      Moves manager action next
  | appends {txn} : Appends manager txn ->
      Moves manager (.commit txn) { manager with
        commitTs := manager.commitTs + 1
        wal := manager.wal ++ frame (manager.recordOf txn)
        stage := .appended (manager.recordOf txn) }
  | tears {txn written} : Appends manager txn ->
      Moves manager (.commitFails txn written) { manager with
        commitTs := manager.commitTs + 1
        wal := manager.wal ++ (frame (manager.recordOf txn)).take written
        repairs := manager.repairs ++ [(manager.recordOf txn, 1)] }
  | publishes {record} : manager.stage = .appended record ->
      Moves manager .publish (manager.published record)
  | snapshots {bytes} : manager.stage = .idle ->
      encodeSnapshot manager.commitTs manager.store = .ok bytes ->
      Moves manager .writeSnapshot { manager with snapshot := some bytes, stage := .snapshotted }
  | truncates : manager.stage = .snapshotted ->
      Moves manager .truncateWal { manager with wal := [], stage := .idle }
  | repairs {failsAfter} (more : Bytes) (rest : List (WalRecord × Nat)) :
      Moves manager (.repair failsAfter) { manager with wal := manager.wal ++ more, repairs := rest }

theorem moves_of_step {action : Action} (taken : manager.step action = some next) :
    Moves manager action next := by
  cases action with
  | commit txn =>
    change manager.commit txn = some next at taken
    rcases commitWith_eq_some taken with ⟨passes, same | refused⟩ | ⟨appends, rfl⟩
    · exact .passes passes (.inl same)
    · exact .passes passes (.inr ⟨txn, refused, .inl rfl⟩)
    · exact .appends appends
  | commitFails txn written =>
    change manager.commitFails txn written = some next at taken
    rcases commitWith_eq_some taken with ⟨passes, same | refused⟩ | ⟨appends, rfl⟩
    · exact .passes passes (.inl same)
    · exact .passes passes (.inr ⟨txn, refused, .inr ⟨written, rfl⟩⟩)
    · exact .tears appends
  | publish =>
    change manager.publish = some next at taken
    unfold publish at taken
    split at taken
    · next _ isStage =>
      cases taken
      exact .publishes isStage
    · cases taken
  | writeSnapshot =>
    change manager.writeSnapshot = some next at taken
    unfold writeSnapshot at taken
    split at taken
    · next _ isIdle encoded =>
      cases taken
      exact .snapshots isIdle encoded
    · cases taken
  | truncateWal =>
    change manager.truncateWal = some next at taken
    unfold truncateWal at taken
    split at taken
    · next isStage =>
      cases taken
      exact .truncates isStage
    · cases taken
  | repair failsAfter =>
    change manager.repair failsAfter = some next at taken
    unfold repair at taken
    split at taken
    · cases taken
    · split at taken
      · cases taken
        exact .repairs _ _
      · cases taken
        exact .repairs _ _

/-! ## Appends that fail -/

/-- Every commit that has returned `Ok` is in the store that a later open finds. -/
def Recovers (manager : LocalManager) : Prop :=
  ∃ opened, openQuorum 1 manager.files = .ok opened ∧
    ∀ record ∈ manager.returned, ∀ op ∈ record.ops,
      (⟨record.commitTs, op.2⟩ : Version) ∈ versionsOf opened.store op.1

/-- The record fits the words of its header and payload. -/
def recordFits (manager : LocalManager) (txn : Txn) : Prop :=
  (payloadOf (manager.recordOf txn)).length < 2 ^ 32 ∧ manager.commitTs + 1 < 2 ^ 64

instance recordFitsDecidable (manager : LocalManager) (txn : Txn) : Decidable (manager.recordFits txn) :=
  inferInstanceAs (Decidable (_ ∧ _))

instance cleanDecidable (data : Bytes) : Decidable (Clean data) :=
  inferInstanceAs (Decidable ((readWal data).2 = data.length))

/-- A run of commits in which an append succeeds only behind complete records. -/
def appendsToCleanLog (manager : LocalManager) : Action -> Prop
  | .commit txn => manager.reachesAppend txn = true -> Clean manager.wal ∧ manager.recordFits txn
  | .writeSnapshot => False
  | .truncateWal => False
  | _ => True

instance appendsToCleanLogDecidable (manager : LocalManager) (action : Action) :
    Decidable (appendsToCleanLog manager action) := by
  unfold appendsToCleanLog
  induction action using Action.casesOn <;> infer_instance

/-- The log holds what has been returned, or is about to be. -/
structure Logged (manager : LocalManager) : Prop where
  snapshot : manager.snapshot = none
  stage : manager.stage ≠ .snapshotted
  appended : ∀ record, manager.stage = .appended record ->
    record ∈ (readWal manager.wal).1 ∧ 0 < record.commitTs
  returned : ∀ record ∈ manager.returned,
    record ∈ (readWal manager.wal).1 ∧ 0 < record.commitTs

theorem Logged.extends (inv : Logged manager) {more : Bytes}
    (wal : next.wal = manager.wal ++ more) (snapshot : next.snapshot = manager.snapshot)
    (stage : next.stage = manager.stage) (returned : next.returned = manager.returned) : Logged next := by
  have kept : ∀ record ∈ (readWal manager.wal).1, record ∈ (readWal next.wal).1 := by
    intro record member
    rw [wal]
    exact (readWal_front manager.wal more).subset member
  refine ⟨snapshot.trans inv.snapshot, ?_, ?_, ?_⟩
  · rw [stage]
    exact inv.stage
  · intro record isStage
    rw [stage] at isStage
    rcases inv.appended record isStage with ⟨member, positive⟩
    exact ⟨kept record member, positive⟩
  · intro record isReturned
    rw [returned] at isReturned
    rcases inv.returned record isReturned with ⟨member, positive⟩
    exact ⟨kept record member, positive⟩

theorem Logged.step {action : Action} (inv : Logged manager)
    (admitted : appendsToCleanLog manager action) (taken : manager.step action = some next) :
    Logged next := by
  cases moves_of_step taken with
  | passes passes =>
    exact @Logged.extends _ _ inv [] (passes.wal.trans (append_nil _).symm) passes.snapshot passes.stage
      passes.returned
  | appends appends =>
    rcases admitted appends.reaches with ⟨clean, short, counter⟩
    have logged := clean.readWal_frame (appends.fits counter) short
    refine ⟨inv.snapshot, nofun, ?_, ?_⟩
    · intro record isStage
      cases isStage
      refine ⟨?_, Nat.succ_pos _⟩
      rw [logged.1]
      exact mem_append_right _ (mem_singleton_self _)
    · intro record isReturned
      rcases inv.returned record isReturned with ⟨member, positive⟩
      refine ⟨?_, positive⟩
      rw [logged.1]
      exact mem_append_left _ member
  | tears => exact inv.extends rfl rfl rfl rfl
  | @publishes record isStage =>
    refine ⟨inv.snapshot, nofun, nofun, ?_⟩
    refine forall_mem_append.mpr ⟨inv.returned, forall_mem_singleton.mpr ?_⟩
    exact inv.appended record isStage
  | snapshots => exact admitted.elim
  | truncates => exact admitted.elim
  | repairs => exact inv.extends rfl rfl rfl rfl

/-- In every run of commits in which an append succeeds only behind complete
records, every commit that has returned `Ok` is found again, whatever appends and
repairs fail before and after it. -/
theorem recovers_of_clean_appends {manager : LocalManager}
    (reached : Reaches step appendsToCleanLog fresh manager) : Recovers manager := by
  have inv : Logged manager := by
    refine reached.invariant ?_ (fun _ _ _ inv admitted taken => inv.step admitted taken)
    refine ⟨rfl, nofun, nofun, ?_⟩
    nofun
  refine ⟨_, openQuorum_single ⟨rfl, congrArg loadSnapshotFile inv.snapshot, rfl⟩, ?_⟩
  intro record isReturned op member
  rcases inv.returned record isReturned with ⟨logged, positive⟩
  unfold openedWith State.opened
  rw [versionsOf_replay]
  apply mem_append_right
  refine mem_flatMap.mpr ⟨record, ?_, ?_⟩
  · exact mem_filter.mpr ⟨logged, decide_eq_true positive⟩
  · exact mem_filterMap.mpr ⟨op, member, if_pos rfl⟩

/-- The second commit fails before it has written anything and is repaired after
the third one. -/
def repairedLater : List Action :=
  [.commit (Txn.writing 0 (Key.ofNat 1) [1]), .publish, .commitFails (Txn.writing 1 (Key.ofNat 2) [2]) 0,
    .commit (Txn.writing 2 (Key.ofNat 3) [3]), .publish, .repair (some 0), .repair none]

theorem recovers_of_clean_appends_repaired :
    ∃ manager, Reaches step appendsToCleanLog fresh manager ∧ manager.returned.length = 2 ∧
      Recovers manager := by
  refine exists_reaches_with repairedLater (fun _ reached => recovers_of_clean_appends reached) ?_
  decide +kernel

/-- The first commit fails after five bytes, the second one succeeds. -/
def behindTornRecord : List Action :=
  [.commitFails (Txn.writing 0 (Key.ofNat 1) [1]) 5, .commit (Txn.writing 1 (Key.ofNat 2) [2]), .publish]

/-- A commit that has returned and is not in the store of a later open. -/
def losesCommit (manager : LocalManager) : Bool :=
  match openQuorum 1 manager.files with
  | .error _ => true
  | .ok opened => manager.returned.any (fun record => record.ops.any (fun op =>
    !(versionsOf opened.store op.1).contains ⟨record.commitTs, op.2⟩))

theorem not_recovers_of_losesCommit (loses : manager.losesCommit = true) : ¬Recovers manager := by
  rintro ⟨_, isOpened, present⟩
  unfold losesCommit at loses
  rw [isOpened] at loses
  rcases any_eq_true.mp loses with ⟨record, isReturned, loses⟩
  rcases any_eq_true.mp loses with ⟨op, member, missing⟩
  have found := contains_iff_mem.mpr (present record isReturned op member)
  rw [found] at missing
  cases missing

theorem torn_record_hides_commit :
    ∃ manager, Reaches step anyStep fresh manager ∧ ¬Recovers manager := by
  have passed : (runGuarded step anyStep fresh behindTornRecord).any losesCommit = true := by
    decide +kernel
  rcases exists_reaches_of_runGuarded passed with ⟨final, reached, loses⟩
  exact ⟨final, reached, not_recovers_of_losesCommit loses⟩

end LocalManager

end TxnKv
end ScaleKv
