import ScaleKv.TxnKv.ReplicaFiles

namespace ScaleKv
namespace TxnKv

open Foundation List Codec Option

/-!
# Opening with one damaged replica

The files of one replica may hold any bytes; those of the others are what the
commits and checkpoints have written.  Any log can be read, since the reader
stops at the first record that does not fit.  A snapshot that cannot be read is
passed over by the first loop of the open but ends the second one.  And where all
can be read, the open takes the replica with the largest timestamp, which may be
the damaged one, and which need not have the latest writes of the others.
-/

/-! ## The last write that some files tell -/

/-- The value that the snapshot and the records above it give a key. -/
def lastWrite (snapshot : Option (Store × Nat)) (wal : List WalRecord) (key : Key) : Option Value :=
  latestOf (versionsOf (snapshot.getD (∅, 0)).1 key ++
    (above (snapshot.getD (∅, 0)).2 wal).flatMap (versionsIn key))

theorem versionsOf_pushVersions_commitTs (commitTs : Nat) (ops : List (Key × Option Value)) (key : Key) :
    ∀ version ∈ versionsOf (pushVersions ∅ commitTs ops) key, version.commitTs = commitTs := by
  intro version member
  have versions := versionsOf_push ∅ ⟨commitTs, ops⟩ key
  rw [versionsOf_empty, nil_append] at versions
  rw [versions] at member
  exact versionsIn_commitTs member

variable {snapshot : Option (Store × Nat)}

/-- Any snapshot that is loaded gives all its versions its own timestamp. -/
theorem loadSnapshotFile_versions {file : Option Bytes}
    (loads : loadSnapshotFile file = .ok snapshot) (key : Key) (version : Version)
    (member : version ∈ versionsOf (snapshot.getD (∅, 0)).1 key) :
    version.commitTs = (snapshot.getD (∅, 0)).2 := by
  cases file with
  | none =>
    cases loads
    rw [show (getD none (∅, 0) : Store × Nat).1 = ∅ from rfl, versionsOf_empty] at member
    cases member
  | some data =>
    unfold loadSnapshotFile at loads
    dsimp only at loads
    split at loads
    · cases loads
    · cases decoded : runWhole (.corruptWal "snapshot length mismatch") readSnapshot data with
      | error =>
        rw [decoded] at loads
        cases loads
      | ok found =>
        rw [decoded] at loads
        cases loads
        exact versionsOf_pushVersions_commitTs found.1 _ key version member

theorem readAtTs_openedWith (wal : List WalRecord) {key : Key}
    (level : ∀ version ∈ versionsOf (snapshot.getD (∅, 0)).1 key,
      version.commitTs = (snapshot.getD (∅, 0)).2) :
    readAtTs (openedWith snapshot wal).store key (openedWith snapshot wal).commitTs = lastWrite snapshot wal key := by
  rcases replay_counter wal (snapshot.getD (∅, 0)).1 (snapshot.getD (∅, 0)).2 with ⟨aboveBase, aboveRecords, _⟩
  have versions : versionsOf (openedWith snapshot wal).store key = versionsOf (snapshot.getD (∅, 0)).1 key ++
      (above (snapshot.getD (∅, 0)).2 wal).flatMap (versionsIn key) := versionsOf_replay _ _ _ key
  rw [readAtTs_eq_latestOf, versions, lastWrite]
  intro version member
  rw [versions] at member
  rcases mem_append.mp member with old | isNew
  · rw [level version old]
    exact aboveBase
  · rcases mem_flatMap.mp isNew with ⟨record, inside, isVersion⟩
    rw [versionsIn_commitTs isVersion]
    exact aboveRecords record (mem_of_mem_filter inside)

namespace QuorumManager

variable {replicas : Nat} {quorum : Nat} {manager next : QuorumManager replicas}

/-! ## One replica is damaged -/

/-- The replica that is damaged, and what its files hold now. -/
structure Damage (replicas : Nat) where
  replica : Fin replicas
  snapshot : Option Bytes
  wal : Bytes

/-- What an open finds. -/
def damagedFiles (manager : QuorumManager replicas) (damage : Damage replicas) (replica : Fin replicas) :
    ReplicaFiles :=
  if replica = damage.replica then filesOf damage.snapshot damage.wal
  else filesOf (manager.replicas replica).snapshotFile (manager.replicas replica).walFile

/-- The version of the key is in the log or in the store of the snapshot. -/
def FoundOn (replica : Replica) (key : Key) (version : Version) : Prop :=
  (∃ written, replica.snapshot = some written ∧ version ∈ versionsOf written.1 key) ∨
    ∃ record ∈ replica.wal, version ∈ versionsIn key record

/-- The latest write of the key on the intact replicas. -/
structure LatestFound (manager : QuorumManager replicas) (damage : Damage replicas) (key : Key)
    (version : Version) : Prop where
  found : ∃ replica, replica ≠ damage.replica ∧ FoundOn (manager.replicas replica) key version
  newest : ∀ replica other, replica ≠ damage.replica -> FoundOn (manager.replicas replica) key other ->
    other.commitTs ≤ version.commitTs

/-- The open succeeds, and a fresh transaction reads for every key the latest
write found on the intact replicas. -/
def OpensWithLatest (quorum : Nat) (manager : QuorumManager replicas) (damage : Damage replicas) : Prop :=
  ∃ opened, openQuorum quorum ((List.finRange replicas).map (manager.damagedFiles damage)) = .ok opened ∧
    ∀ key version, LatestFound manager damage key version ->
      readAtTs opened.store key opened.commitTs = version.value

/-- The snapshot that is loaded from a replica, where the damaged one has this. -/
def loadedFrom (manager : QuorumManager replicas) (damage : Damage replicas) (damaged : Option (Store × Nat))
    (replica : Fin replicas) : Option (Store × Nat) :=
  if replica = damage.replica then damaged else (manager.replicas replica).loaded

/-- The log that is read from a replica. -/
def walFrom (manager : QuorumManager replicas) (damage : Damage replicas) (replica : Fin replicas) :
    List WalRecord :=
  if replica = damage.replica then (readWal damage.wal).1 else (manager.replicas replica).wal

/-- Of the replicas with the largest timestamp, the first has the latest writes
that the intact ones have. -/
def ForemostTells (manager : QuorumManager replicas) (damage : Damage replicas)
    (damaged : Option (Store × Nat)) : Prop :=
  ∀ replica, Foremost (fun index =>
      (recoveredFrom (manager.loadedFrom damage damaged index) (manager.walFrom damage index)).2) replica ->
    ∀ key version, LatestFound manager damage key version ->
      lastWrite (manager.loadedFrom damage damaged replica) (manager.walFrom damage replica) key = version.value

variable {damage : Damage replicas} {damaged : Option (Store × Nat)}

theorem AllEncoded.readable (inv : AllEncoded manager)
    (fits : ∀ replica, replica ≠ damage.replica -> (manager.replicas replica).FitsWords)
    (loads : loadSnapshotFile damage.snapshot = .ok damaged) (replica : Fin replicas) :
    Readable (manager.damagedFiles damage replica) (manager.loadedFrom damage damaged replica)
      (manager.walFrom damage replica) := by
  unfold damagedFiles loadedFrom walFrom
  by_cases same : replica = damage.replica
  · rw [if_pos same, if_pos same, if_pos same]
    exact ⟨rfl, loads, rfl⟩
  · rw [if_neg same, if_neg same, if_neg same]
    exact Replica.readable (inv.files replica) (fits replica same)

theorem loadedFrom_level (manager : QuorumManager replicas)
    (loads : loadSnapshotFile damage.snapshot = .ok damaged) (replica : Fin replicas) (key : Key)
    (version : Version)
    (member : version ∈ versionsOf ((manager.loadedFrom damage damaged replica).getD (∅, 0)).1 key) :
    version.commitTs = ((manager.loadedFrom damage damaged replica).getD (∅, 0)).2 := by
  unfold loadedFrom at member ⊢
  by_cases same : replica = damage.replica
  · rw [if_pos same] at member ⊢
    exact loadSnapshotFile_versions loads key version member
  · rw [if_neg same] at member ⊢
    unfold Replica.loaded at member ⊢
    cases isWritten : (manager.replicas replica).snapshot with
    | none =>
      rw [isWritten, map_none,
        show (getD none (∅, 0) : Store × Nat).1 = ∅ from rfl, versionsOf_empty] at member
      cases member
    | some written =>
      rw [isWritten] at member
      exact versionsOf_pushVersions_commitTs written.2 _ key version member

/-- After every run, an open over the files with one damaged replica does what is
asked of it exactly if the damaged snapshot can be read and the first replica with
the largest timestamp has the latest writes of the intact ones. -/
theorem opensWithLatest_iff (positive : 0 < quorum) (enough : quorum ≤ replicas)
    (reached : Reaches (step quorum) anyStep fresh manager) (damage : Damage replicas)
    (fits : ∀ replica, replica ≠ damage.replica -> (manager.replicas replica).FitsWords) :
    OpensWithLatest quorum manager damage <->
      ∃ damaged, loadSnapshotFile damage.snapshot = .ok damaged ∧ manager.ForemostTells damage damaged := by
  have inv := allEncoded_of_reaches reached
  have opens : ∀ damaged, loadSnapshotFile damage.snapshot = .ok damaged -> ∀ replica,
      Foremost (fun index =>
        (recoveredFrom (manager.loadedFrom damage damaged index) (manager.walFrom damage index)).2) replica ->
      openQuorum quorum ((List.finRange replicas).map (manager.damagedFiles damage)) =
        .ok (openedWith (manager.loadedFrom damage damaged replica) (manager.walFrom damage replica)) :=
    fun damaged loads replica foremost =>
      openQuorum_readable (inv.readable fits loads) positive enough foremost
  constructor
  · rintro ⟨opened, isOpened, latest⟩
    cases loads : loadSnapshotFile damage.snapshot with
    | error =>
      -- The second loop returns this error.
      have member : manager.damagedFiles damage damage.replica ∈
          (List.finRange replicas).map (manager.damagedFiles damage) :=
        mem_map.mpr ⟨damage.replica, mem_finRange _, rfl⟩
      have isDamaged : manager.damagedFiles damage damage.replica = filesOf damage.snapshot damage.wal := if_pos rfl
      rw [isDamaged] at member
      exact absurd isOpened (openQuorum_unreadable member rfl loads opened)
    | ok damaged =>
      refine ⟨damaged, rfl, ?_⟩
      intro replica foremost key version isLatest
      have same := Except.ok.inj ((opens damaged loads replica foremost).symm.trans isOpened)
      rw [← readAtTs_openedWith _ (manager.loadedFrom_level loads replica key), same]
      exact latest key version isLatest
  · rintro ⟨damaged, loads, tells⟩
    rcases exists_foremost (fun index =>
        (recoveredFrom (manager.loadedFrom damage damaged index) (manager.walFrom damage index)).2)
      (positive.trans_le enough) with ⟨replica, foremost⟩
    refine ⟨_, opens damaged loads replica foremost, ?_⟩
    intro key version isLatest
    rw [readAtTs_openedWith _ (manager.loadedFrom_level loads replica key)]
    exact tells replica foremost key version isLatest

/-- One commit on two replicas. -/
def oneCommit : List Action :=
  [.commit (Txn.writing 0 (Key.ofNat 1) [1]), .finish 0 true, .finish 0 true, .returns]

def oneRecord : WalRecord := ⟨1, [(Key.ofNat 1, some [1])]⟩

/-- The second replica has lost its log to other bytes. -/
theorem opensWithLatest_of_damaged_log :
    ∃ manager : QuorumManager 2, Reaches (step 1) anyStep fresh manager ∧ manager.acknowledged.length = 1 ∧
      OpensWithLatest 1 manager ⟨1, none, [7, 7, 7]⟩ := by
  have passed : (runGuarded (step 1) anyStep (fresh : QuorumManager 2) oneCommit).any
      (fun final => final.acknowledged.length = 1 ∧ (final.replicas 0).snapshot.isNone = true ∧
        (final.replicas 0).wal = [oneRecord]) = true := by
    decide +kernel
  rcases exists_reaches_of_decide passed with ⟨final, reached, acknowledged, noSnapshot, log⟩
  rw [isNone_iff_eq_none] at noSnapshot
  have intact : ∀ replica : Fin 2, replica ≠ 1 -> replica = 0 := by decide
  have fits : (final.replicas 0).FitsWords := by
    refine ⟨?_, ?_, ?_⟩
    · rw [noSnapshot]
      exact nofun
    · rw [log]
      exact fun record member => by rw [mem_singleton.mp member]; decide
    · rw [log]
      exact fun record member => by rw [mem_singleton.mp member]; decide
  refine ⟨final, reached, acknowledged, (opensWithLatest_iff (by decide) (by decide) reached _
    (fun replica other => by rw [intact replica other]; exact fits)).mpr ⟨none, rfl, ?_⟩⟩
  have counters : ∀ replica, (recoveredFrom (final.loadedFrom ⟨1, none, [7, 7, 7]⟩ none replica)
      (final.walFrom ⟨1, none, [7, 7, 7]⟩ replica)).2 = if replica = 0 then 1 else 0 := by
    intro replica
    unfold loadedFrom walFrom Replica.loaded
    by_cases other : replica = 1
    · subst other
      rfl
    · rw [if_neg other, if_neg other, intact replica other, noSnapshot, log]
      rfl
  intro replica foremost key version isLatest
  have isFirst : replica = 0 := by
    by_contra other
    have before := foremost.first 0 (Fin.pos_of_ne_zero other)
    rw [counters, counters, if_pos rfl, if_neg other] at before
    cases before
  rcases isLatest.found with ⟨holder, other, found⟩
  rw [intact holder other] at found
  subst isFirst
  unfold lastWrite loadedFrom walFrom Replica.loaded
  rw [if_neg (by decide), if_neg (by decide), noSnapshot, log]
  rcases found with ⟨_, isWritten, _⟩ | ⟨_, member, isVersion⟩
  · rw [noSnapshot] at isWritten
    cases isWritten
  · rw [log] at member
    rw [mem_singleton.mp member] at isVersion
    by_cases isKey : Key.ofNat 1 = key
    · subst isKey
      have isOnly : version = ⟨1, some [1]⟩ := mem_singleton.mp isVersion
      rw [isOnly]
      decide +kernel
    · rcases key_mem_of_versionsIn isVersion with ⟨_, inside, same⟩
      rw [mem_singleton.mp inside] at same
      exact absurd same isKey

/-- The second replica has three bytes in the place of its snapshot. -/
theorem damaged_snapshot_stops_open :
    ∃ manager : QuorumManager 2, Reaches (step 1) anyStep fresh manager ∧ manager.acknowledged.length = 1 ∧
      ¬OpensWithLatest 1 manager ⟨1, some [7, 7, 7], []⟩ := by
  have passed : (runGuarded (step 1) anyStep (fresh : QuorumManager 2) oneCommit).any
      (fun final => final.acknowledged.length = 1 ∧ (openQuorum 1 ((List.finRange 2).map
          (final.damagedFiles ⟨1, some [7, 7, 7], []⟩))).toOption.isNone = true) = true := by
    decide +kernel
  rcases exists_reaches_of_decide passed with ⟨final, reached, acknowledged, stops⟩
  refine ⟨final, reached, acknowledged, ?_⟩
  rintro ⟨_, isOpened, _⟩
  rw [isOpened] at stops
  cases stops

end QuorumManager

end TxnKv
end ScaleKv
