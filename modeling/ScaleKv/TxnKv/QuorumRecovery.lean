import ScaleKv.TxnKv.FailedCommits

namespace ScaleKv
namespace TxnKv
namespace QuorumManager

open Foundation List

/-!
# What quorum recovery preserves

Recovery returns the store of a single replica.  Two majorities share a
replica, but that replica need not be the one that recovery prefers: the
newest record may sit on a replica that missed earlier ones.  Acknowledged
commits are therefore recovered exactly when the preferred replica happens to
say, for every key, what the latest acknowledged commit wrote.
-/

variable {replicas quorum : Nat} {manager : QuorumManager replicas}

/-- What the latest acknowledged commit on the key wrote, if there is one. -/
def latestAcknowledged (manager : QuorumManager replicas) (key : Key) : Option (Option Value) :=
  (manager.acknowledged.flatMap (versionsIn key)).getLast?.map Version.value

/-- Reopening succeeds, and a fresh read-only transaction reads for every key
the latest acknowledged write. -/
def RecoversAcknowledged (quorum : Nat) (manager : QuorumManager replicas) : Prop :=
  ∃ opened, openQuorum quorum manager.files = .ok opened ∧
    ∀ key value, manager.latestAcknowledged key = some value ->
      (opened.beginTx true).txn.get opened.store false key.bytes = .ok (key, value)

/-- The last record on each key with an acknowledged write says the same. -/
def TellsLatest (manager : QuorumManager replicas) (wal : List WalRecord) : Prop :=
  ∀ key value, manager.latestAcknowledged key = some value -> latestIn key wal = value

theorem Traced.get_opened (inv : Traced manager) (replica : Fin replicas) (key : Key) :
    ((openedWith none (manager.replicas replica).wal).beginTx true).txn.get
        (openedWith none (manager.replicas replica).wal).store false key.bytes =
      .ok (key, latestIn key (manager.replicas replica).wal) := by
  rw [← inv.readAtTs_opened, Txn.get, show parseKey key.bytes = .ok key from dif_pos key.length_eq]
  simp [Txn.ensureNotTimedOut, bind, Except.bind, pure, Except.pure, State.beginTx, Txn.read]

/-- After any run of commits whose records fit their words, whatever appends
fail, come late or are repaired, reopening gives back every acknowledged commit
exactly if the log of the first replica with the largest timestamp ends, for each
key with an acknowledged write, with a record that writes the same value. -/
theorem recoversAcknowledged_iff (positive : 0 < quorum) (enough : quorum ≤ replicas)
    (reached : Reaches (step quorum) commitsOnly fresh manager)
    (fits : ∀ replica, (manager.replicas replica).FitsWords) :
    RecoversAcknowledged quorum manager <->
      ∀ replica, Foremost (fun index => newestTs (manager.replicas index).wal) replica ->
        manager.TellsLatest (manager.replicas replica).wal := by
  have inv := traced_of_reaches reached
  have opens := fun replica => @Traced.openQuorum_eq _ _ _ inv (allEncoded_of_reaches reached) positive enough
    fits replica
  constructor
  · rintro ⟨_, isOpened, keeps⟩ replica foremost key value acknowledged
    cases (opens replica foremost).symm.trans isOpened
    have kept := keeps key value acknowledged
    rw [inv.get_opened] at kept
    cases kept
    rfl
  · intro tells
    rcases exists_foremost (fun index => newestTs (manager.replicas index).wal) (positive.trans_le enough) with
      ⟨replica, foremost⟩
    refine ⟨_, opens replica foremost, ?_⟩
    intro key value acknowledged
    rw [inv.get_opened, tells replica foremost key value acknowledged]

/-- A run of commits in which every replica appends the record of a commit before
the next one begins, or misses it for good. -/
def appendsInOrder (manager : QuorumManager replicas) : Action -> Prop
  | .checkpoint => False
  | .commit _ => manager.tasks.length = 0
  | .repair succeeds => succeeds = false
  | _ => True

instance appendsInOrderDecidable (manager : QuorumManager replicas) (action : Action) :
    Decidable (appendsInOrder manager action) := by
  unfold appendsInOrder
  split <;> infer_instance

/-- All three replicas have the first commit and two of them the second one. -/
def staggered : List Action :=
  [.commit (Txn.writing 0 (Key.ofNat 1) [1]), .finish 0 true, .finish 0 true, .finish 0 true, .returns,
    .commit (Txn.writing 1 (Key.ofNat 1) [2]), .finish 0 true, .finish 0 true, .finish 0 false, .returns]

theorem recoversAcknowledged_iff_staggered :
    ∃ manager : QuorumManager 3, Reaches (step 2) commitsOnly fresh manager ∧
      manager.acknowledged.length = 2 ∧ RecoversAcknowledged 2 manager := by
  have passed : (runGuarded (step 2) commitsOnly (fresh : QuorumManager 3) staggered).any
      (fun final => final.acknowledged.length = 2 ∧ (∀ replica, (final.replicas replica).FitsWords) ∧
        (final.replicas 0).wal = final.acknowledged ∧
        ∀ index, newestTs (final.replicas index).wal ≤ newestTs (final.replicas 0).wal) = true := by
    decide +kernel
  rcases exists_reaches_of_decide passed with ⟨final, reached, acknowledged, fits, complete, newest⟩
  refine ⟨final, reached, acknowledged, (recoversAcknowledged_iff (by decide) (by decide) reached fits).mpr ?_⟩
  intro replica foremost key _ isLatest
  have isFirst : replica = 0 := by
    by_contra other
    exact absurd (newest replica) (not_le.mpr (foremost.first 0 (Fin.pos_of_ne_zero other)))
  rcases Option.map_eq_some_iff.mp isLatest with ⟨_, last, rfl⟩
  rw [isFirst, complete, latestIn, latestOf, last]
  rfl

/-- Both commits reach two of three replicas, the first one replicas 1 and 2,
the second one replicas 0 and 1.  Recovery prefers replica 0. -/
def overlapping : List Action :=
  [.commit (Txn.writing 0 (Key.ofNat 1) [1]), .finish 0 false, .finish 0 true, .finish 0 true, .returns,
    .commit (Txn.writing 1 (Key.ofNat 2) [2]), .finish 0 true, .finish 0 true, .finish 0 false, .returns]

theorem not_recoversAcknowledged :
    ∃ manager : QuorumManager 3, Reaches (step 2) appendsInOrder fresh manager ∧
      manager.tasks.length = 0 ∧ ¬ RecoversAcknowledged 2 manager := by
  have passed : (runGuarded (step 2) appendsInOrder (fresh : QuorumManager 3) overlapping).any
      (fun final => final.tasks.length = 0 ∧ final.latestAcknowledged (Key.ofNat 1) = some (some [1]) ∧
        (openQuorum 2 final.files).toOption.all (fun opened =>
          ((opened.beginTx true).txn.get opened.store false (Key.ofNat 1).bytes).toOption =
            some (Key.ofNat 1, none)) = true) = true := by
    decide +kernel
  rcases exists_reaches_of_decide passed with ⟨final, reached, ended, acknowledged, lost⟩
  refine ⟨final, reached, ended, ?_⟩
  rintro ⟨_, isOpened, keeps⟩
  rw [isOpened] at lost
  have gone := of_decide_eq_true lost
  rw [keeps (Key.ofNat 1) (some [1]) acknowledged] at gone
  cases gone

end QuorumManager
end TxnKv
end ScaleKv
