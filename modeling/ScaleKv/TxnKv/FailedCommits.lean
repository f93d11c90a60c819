import ScaleKv.TxnKv.ReplicaFiles

namespace ScaleKv
namespace TxnKv

open Foundation List

/-!
# Commits that fail

A commit fails when too few appends succeed.  The record stays on the replicas
that have appended it, and the repair worker goes on to append it on the others.
The store in memory never sees it.  A later open takes the log of one replica, so
the failed commit comes back exactly when that log has its record, and the
recovered values are those in memory exactly when that log ends, for every key,
with the latest acknowledged write.
-/

/-- The value that the last of the records on the key gives it. -/
def latestIn (key : Key) (records : List WalRecord) : Option Value :=
  latestOf (records.flatMap (versionsIn key))

/-- The largest timestamp of a log. -/
def newestTs (wal : List WalRecord) : Nat := (wal.map WalRecord.commitTs).max?.getD 0

theorem recoveredFrom_none_counter (wal : List WalRecord) : (recoveredFrom none wal).2 = newestTs wal := by
  rcases replay_counter wal ∅ 0 with ⟨_, covers, shape⟩
  change (replayWalWithBase wal ∅ 0).2 = _
  generalize (replayWalWithBase wal ∅ 0).2 = counter at covers shape
  unfold newestTs
  rcases shape with isZero | ⟨record, member, isTs⟩
  · cases largest : (wal.map WalRecord.commitTs).max? with
    | none => exact isZero
    | some =>
      rcases mem_map.mp (List.max?_mem largest) with ⟨record, member, _⟩
      have below := covers record member
      rw [Option.getD_some]
      omega
  · have largest : (wal.map WalRecord.commitTs).max? = some counter := by
      refine List.max?_eq_some_iff.mpr ⟨mem_map.mpr ⟨record, member, isTs.symm⟩, ?_⟩
      intro commitTs inside
      rcases mem_map.mp inside with ⟨other, otherMember, rfl⟩
      exact covers other otherMember
    rw [largest, Option.getD_some]

/-- Without a snapshot, and with timestamps that are not zero, a replay gives the
versions of the whole log. -/
theorem versionsOf_openedWith_none {wal : List WalRecord}
    (positive : ∀ record ∈ wal, 0 < record.commitTs) (key : Key) :
    versionsOf (openedWith none wal).store key = wal.flatMap (versionsIn key) := by
  have whole : above 0 wal = wal := by
    unfold above
    rw [filter_eq_self]
    exact fun record member => decide_eq_true (positive record member)
  have versions := versionsOf_replay wal ∅ 0 key
  rw [whole, versionsOf_empty, nil_append] at versions
  exact versions

namespace QuorumManager

variable {replicas : Nat} {quorum : Nat} {manager next : QuorumManager replicas}

/-! ## Where the records are -/

/-- The record has been handed to the replicas. -/
def IsDelivered (manager : QuorumManager replicas) (record : WalRecord) : Prop :=
  record ∈ manager.acknowledged ∨ record ∈ manager.failed ∨ manager.stage = .committing record

def commitsOnly (_manager : QuorumManager replicas) : Action -> Prop
  | .checkpoint => False
  | _ => True

instance commitsOnlyDecidable (manager : QuorumManager replicas) (action : Action) :
    Decidable (commitsOnly manager action) := by
  unfold commitsOnly
  split <;> infer_instance

/-- Every record on its way was delivered, and the store has the acknowledged ones. -/
structure Traced (manager : QuorumManager replicas) : Prop where
  stage : manager.stage = .idle ∨ ∃ record, manager.stage = .committing record
  snapshots : ∀ replica, (manager.replicas replica).snapshot = none
  tasks : ∀ task ∈ manager.tasks,
    ∃ record, task.op = .append record ∧ manager.IsDelivered record
  repairs : ∀ entry ∈ manager.repairs,
    ∃ record, entry.2.1 = .append record ∧ manager.IsDelivered record
  wals : ∀ replica record, record ∈ (manager.replicas replica).wal -> manager.IsDelivered record
  same : ∀ left right, manager.IsDelivered left -> manager.IsDelivered right ->
    left.commitTs = right.commitTs -> left = right
  bounded : ∀ record, manager.IsDelivered record ->
    0 < record.commitTs ∧ record.commitTs ≤ manager.commitTs
  writes : ∀ record, manager.IsDelivered record -> record.ops ≠ []
  store : ∀ key, versionsOf manager.store key = manager.acknowledged.flatMap (versionsIn key)

theorem traced_fresh : Traced (fresh : QuorumManager replicas) := by
  have none_ : ∀ record, ¬(fresh : QuorumManager replicas).IsDelivered record := by
    rintro record (impossible | impossible | impossible) <;> cases impossible
  refine ⟨.inl rfl, fun _ => rfl, ?_, ?_, ?_, fun left _ delivered => absurd delivered (none_ left),
    fun record delivered => absurd delivered (none_ record),
    fun record delivered => absurd delivered (none_ record), versionsOf_empty⟩
  · exact nofun
  · exact nofun
  · exact nofun

section

variable (inv : Traced manager) {record : WalRecord}

include inv

theorem Traced.written (replica : Fin replicas) {op : QuorumOp}
    (isAppend : op = .append record) (delivered : manager.IsDelivered record) (other : Fin replicas) :
    (manager.written replica op other).snapshot = none ∧
      ∀ found ∈ (manager.written replica op other).wal, manager.IsDelivered found := by
  subst isAppend
  unfold QuorumManager.written
  by_cases same : other = replica
  · subst same
    rw [Function.update_self]
    refine ⟨inv.snapshots other, ?_⟩
    exact forall_mem_append.mpr ⟨inv.wals other, forall_mem_singleton.mpr delivered⟩
  · rw [Function.update_of_ne same]
    exact ⟨inv.snapshots other, inv.wals other⟩

theorem Traced.commits {txn : Txn} (appends : Appends manager txn) :
    Traced (manager.startAppend txn) := by
  generalize isAfter : manager.startAppend txn = after
  have delivered : ∀ record, after.IsDelivered record <->
      manager.IsDelivered record ∨ record = manager.recordOf txn := by
    subst isAfter
    intro record
    constructor
    · rintro (old | old | isStage)
      · exact .inl (.inl old)
      · exact .inl (.inr (.inl old))
      · cases isStage
        exact .inr rfl
    · rintro ((old | old | isStage) | rfl)
      · exact .inl old
      · exact .inr (.inl old)
      · rw [appends.idle] at isStage
        cases isStage
      · exact .inr (.inr rfl)
  have counter : after.commitTs = manager.commitTs + 1 := by rw [← isAfter]; rfl
  have older : ∀ record, manager.IsDelivered record -> after.IsDelivered record :=
    fun record old => (delivered record).mpr (.inl old)
  refine ⟨?_, ?_, ?_, ?_, ?_, ?_, ?_, ?_, ?_⟩
  · exact .inr ⟨manager.recordOf txn, by rw [← isAfter]; rfl⟩
  · rw [← isAfter]
    exact inv.snapshots
  · intro task member
    rw [← isAfter] at member
    rcases mem_append.mp member with old | isNew
    · rcases inv.tasks task old with ⟨record, isOp, isDelivered⟩
      exact ⟨record, isOp, older record isDelivered⟩
    · rcases mem_map.mp isNew with ⟨_, _, rfl⟩
      exact ⟨manager.recordOf txn, rfl, (delivered _).mpr (.inr rfl)⟩
  · intro entry member
    rw [← isAfter] at member
    rcases inv.repairs entry member with ⟨record, isOp, isDelivered⟩
    exact ⟨record, isOp, older record isDelivered⟩
  · intro replica record member
    rw [← isAfter] at member
    exact older record (inv.wals replica record member)
  · intro left right isLeft isRight sameTs
    rcases (delivered left).mp isLeft with oldLeft | rfl
    · rcases (delivered right).mp isRight with oldRight | rfl
      · exact inv.same left right oldLeft oldRight sameTs
      · have below := (inv.bounded left oldLeft).2
        rw [show (manager.recordOf txn).commitTs = manager.commitTs + 1 from rfl] at sameTs
        omega
    · rcases (delivered right).mp isRight with oldRight | rfl
      · have below := (inv.bounded right oldRight).2
        rw [show (manager.recordOf txn).commitTs = manager.commitTs + 1 from rfl] at sameTs
        omega
      · rfl
  · intro record isDelivered
    rw [counter]
    rcases (delivered record).mp isDelivered with old | rfl
    · have below := inv.bounded record old
      omega
    · exact ⟨Nat.succ_pos _, le_rfl⟩
  · intro record isDelivered
    rcases (delivered record).mp isDelivered with old | rfl
    · exact inv.writes record old
    · intro empty
      have nonempty := appends.writes
      rw [← Std.TreeMap.isEmpty_toList, show txn.writeSet.toList = [] from empty] at nonempty
      cases nonempty
  · rw [← isAfter]
    exact inv.store

theorem Traced.settles
    (committing : manager.stage = .committing record) {store : Store} {acknowledged failed : List WalRecord}
    (moved : acknowledged = manager.acknowledged ++ [record] ∧ failed = manager.failed ∨
      acknowledged = manager.acknowledged ∧ failed = manager.failed ++ [record])
    (versions : ∀ key, versionsOf store key = acknowledged.flatMap (versionsIn key)) :
    Traced { manager with store := store, stage := .idle, acknowledged := acknowledged, failed := failed } := by
  generalize isAfter : { manager with
    store := store, stage := .idle, acknowledged := acknowledged, failed := failed } = after
  have delivered : ∀ other, after.IsDelivered other <-> manager.IsDelivered other := by
    subst isAfter
    intro other
    unfold IsDelivered
    rw [committing]
    rcases moved with ⟨rfl, rfl⟩ | ⟨rfl, rfl⟩
    · simp only [mem_append, mem_singleton, CallStage.committing.injEq, reduceCtorEq, or_false]
      tauto
    · simp only [mem_append, mem_singleton, CallStage.committing.injEq, reduceCtorEq, or_false]
      tauto
  have same := fun other => propext (delivered other)
  refine ⟨?_, ?_, ?_, ?_, ?_, ?_, ?_, ?_, ?_⟩
  · rw [← isAfter]
    exact .inl rfl
  · rw [← isAfter]
    exact inv.snapshots
  · simp only [same]
    rw [← isAfter]
    exact inv.tasks
  · simp only [same]
    rw [← isAfter]
    exact inv.repairs
  · simp only [same]
    rw [← isAfter]
    exact inv.wals
  · simp only [same]
    exact inv.same
  · simp only [same]
    rw [← isAfter]
    exact inv.bounded
  · simp only [same]
    exact inv.writes
  · rw [← isAfter]
    exact versions

theorem Traced.step {action : Action} (admitted : commitsOnly manager action)
    (taken : manager.step quorum action = some next) : Traced next := by
  cases moves_of_step taken with
  | passes => exact inv
  | refuses =>
    refine { inv with bounded := ?_ }
    intro record delivered
    have below := inv.bounded record delivered
    exact ⟨below.1, Nat.le_succ_of_le below.2⟩
  | commits appends => exact inv.commits appends
  | checkpoints => exact admitted.elim
  | succeeds _ _ task _ isSplit =>
    rcases mem_tasks_of_split isSplit with ⟨here, smaller⟩
    rcases inv.tasks task here with ⟨_, isOp, delivered⟩
    have files := inv.written task.replica isOp delivered
    exact ⟨inv.stage, fun replica => (files replica).1, fun other member => inv.tasks other (smaller other member),
      inv.repairs, fun replica => (files replica).2, inv.same, inv.bounded, inv.writes, inv.store⟩
  | fails _ _ task isSplit =>
    rcases mem_tasks_of_split isSplit with ⟨here, smaller⟩
    refine ⟨inv.stage, inv.snapshots, fun other member => inv.tasks other (smaller other member), ?_, inv.wals,
      inv.same, inv.bounded, inv.writes, inv.store⟩
    refine forall_mem_append.mpr ⟨inv.repairs, forall_mem_singleton.mpr ?_⟩
    exact inv.tasks task here
  | acknowledges committing =>
    refine inv.settles committing (.inl ⟨rfl, rfl⟩) ?_
    intro _
    rw [versionsOf_push, inv.store, flatMap_append, flatMap_cons, flatMap_nil, append_nil]
  | gives committing => exact inv.settles committing (.inr ⟨rfl, rfl⟩) inv.store
  | truncates snapshotting =>
    rcases inv.stage with other | ⟨record, other⟩ <;> rw [snapshotting] at other <;> cases other
  | ends stage =>
    rcases inv.stage with other | ⟨record, other⟩ <;> rcases stage with stage | stage <;>
      rw [stage] at other <;> cases other
  | repairs replica op attempt _ queue =>
    rcases inv.repairs (replica, op, attempt) (by rw [queue]; exact mem_cons_self) with
      ⟨record, isOp, delivered⟩
    have files := inv.written replica isOp delivered
    refine ⟨inv.stage, fun other => (files other).1, inv.tasks, ?_, fun other => (files other).2, inv.same,
      inv.bounded, inv.writes, inv.store⟩
    intro entry member
    exact inv.repairs entry (by rw [queue]; exact mem_cons_of_mem _ member)
  | delays _ _ _ _ _ queue isLater =>
    have delayed := @ops_of_delayed _ _ _ _ _ _ _ queue isLater
      (fun found => ∃ record, found = .append record ∧ manager.IsDelivered record) inv.repairs
    exact { inv with repairs := delayed }

end

/-! ## What a later open finds -/

/-- A later open succeeds, the recovered store has no version of a failed commit,
and a fresh transaction reads for every key what it would have read before. -/
def StaysFailed (quorum : Nat) (manager : QuorumManager replicas) : Prop :=
  ∃ opened, openQuorum quorum manager.files = .ok opened ∧
    (∀ record ∈ manager.failed, ∀ op ∈ record.ops,
      (⟨record.commitTs, op.2⟩ : Version) ∉ versionsOf opened.store op.1) ∧
    ∀ key, readAtTs opened.store key opened.commitTs = readAtTs manager.store key manager.commitTs

/-- The log has no record of a failed commit and ends, for every key, with the
latest acknowledged write. -/
def TellsAcknowledged (manager : QuorumManager replicas) (wal : List WalRecord) : Prop :=
  (∀ record ∈ manager.failed, record ∉ wal) ∧
    ∀ key, latestIn key wal = latestIn key manager.acknowledged

section Opened

variable (inv : Traced manager)

include inv

theorem Traced.versionsOf_opened (replica : Fin replicas) (key : Key) :
    versionsOf (openedWith none (manager.replicas replica).wal).store key =
      (manager.replicas replica).wal.flatMap (versionsIn key) := by
  refine versionsOf_openedWith_none ?_ key
  exact fun record member => (inv.bounded record (inv.wals replica record member)).1

theorem Traced.readAtTs_opened (replica : Fin replicas) (key : Key) :
    readAtTs (openedWith none (manager.replicas replica).wal).store key
        (openedWith none (manager.replicas replica).wal).commitTs =
      latestIn key (manager.replicas replica).wal := by
  have versions := inv.versionsOf_opened replica key
  rw [readAtTs_eq_latestOf, versions, latestIn]
  intro _ member
  rw [versions] at member
  rcases mem_flatMap.mp member with ⟨record, inside, isVersion⟩
  rw [versionsIn_commitTs isVersion]
  exact (replay_counter (manager.replicas replica).wal ∅ 0).2.1 record inside

theorem Traced.readAtTs_store (key : Key) :
    readAtTs manager.store key manager.commitTs = latestIn key manager.acknowledged := by
  rw [readAtTs_eq_latestOf, inv.store, latestIn]
  intro _ member
  rw [inv.store] at member
  rcases mem_flatMap.mp member with ⟨record, inside, isVersion⟩
  rw [versionsIn_commitTs isVersion]
  exact (inv.bounded record (.inl inside)).2

/-- A failed commit is back in the store exactly if the log has its record. -/
theorem Traced.forgotten_iff (replica : Fin replicas) :
    (∀ record ∈ manager.failed, ∀ op ∈ record.ops,
      (⟨record.commitTs, op.2⟩ : Version) ∉
        versionsOf (openedWith none (manager.replicas replica).wal).store op.1) <->
      ∀ record ∈ manager.failed, record ∉ (manager.replicas replica).wal := by
  simp only [inv.versionsOf_opened]
  constructor
  · intro absent record isFailed inWal
    rcases exists_mem_of_ne_nil _ (inv.writes record (.inr (.inl isFailed))) with ⟨op, member⟩
    exact absent record isFailed op member
      (mem_flatMap.mpr ⟨record, inWal, mem_filterMap.mpr ⟨op, member, if_pos rfl⟩⟩)
  · intro absent record isFailed op member found
    rcases mem_flatMap.mp found with ⟨other, inWal, isVersion⟩
    have sameTs : record.commitTs = other.commitTs := versionsIn_commitTs isVersion
    have sameRecord := inv.same record other (.inr (.inl isFailed)) (inv.wals replica other inWal) sameTs
    rw [← sameRecord] at inWal
    exact absent record isFailed inWal

theorem Traced.openQuorum_eq (encoded : AllEncoded manager) (positive : 0 < quorum)
    (enough : quorum ≤ replicas) (fits : ∀ replica, (manager.replicas replica).FitsWords)
    {replica : Fin replicas}
    (foremost : Foremost (fun index => newestTs (manager.replicas index).wal) replica) :
    openQuorum quorum manager.files = .ok (openedWith none (manager.replicas replica).wal) := by
  have readable : ∀ index, Readable (manager.replicas index).files none (manager.replicas index).wal := by
    intro index
    have read := Replica.readable (encoded.files index) (fits index)
    rw [Replica.loaded, inv.snapshots index] at read
    exact read
  refine openQuorum_readable readable positive enough ?_
  simp only [recoveredFrom_none_counter]
  exact foremost

end Opened

theorem traced_of_reaches (reached : Reaches (step quorum) commitsOnly fresh manager) : Traced manager :=
  reached.invariant traced_fresh (fun _ _ _ inv admitted taken => inv.step admitted taken)

/-- After every run of commits whose records fit their words, a later open forgets
the failed commits and agrees with the store in memory exactly if the log of the
first replica with the largest timestamp tells the acknowledged commits. -/
theorem staysFailed_iff (positive : 0 < quorum) (enough : quorum ≤ replicas)
    (reached : Reaches (step quorum) commitsOnly fresh manager)
    (fits : ∀ replica, (manager.replicas replica).FitsWords) :
    StaysFailed quorum manager <->
      ∀ replica, Foremost (fun index => newestTs (manager.replicas index).wal) replica ->
        TellsAcknowledged manager (manager.replicas replica).wal := by
  have inv := traced_of_reaches reached
  have opens := fun replica => @Traced.openQuorum_eq _ _ _ inv (allEncoded_of_reaches reached) positive enough
    fits replica
  constructor
  · rintro ⟨_, isOpened, absent, agrees⟩ replica foremost
    cases (opens replica foremost).symm.trans isOpened
    refine ⟨(inv.forgotten_iff replica).mp absent, ?_⟩
    intro key
    rw [← inv.readAtTs_opened, ← inv.readAtTs_store]
    exact agrees key
  · intro tells
    rcases exists_foremost (fun index => newestTs (manager.replicas index).wal) (positive.trans_le enough) with
      ⟨replica, foremost⟩
    rcases tells replica foremost with ⟨absent, agrees⟩
    refine ⟨_, opens replica foremost, (inv.forgotten_iff replica).mpr absent, ?_⟩
    intro key
    rw [inv.readAtTs_opened, inv.readAtTs_store]
    exact agrees key

/-- The first commit misses one replica, where it is repaired later.  The second
one reaches no replica and fails. -/
def failsEverywhere : List Action :=
  [.commit (Txn.writing 0 (Key.ofNat 1) [1]), .finish 0 true, .finish 0 true, .finish 0 false, .returns,
    .commit (Txn.writing 1 (Key.ofNat 1) [2]), .finish 0 false, .finish 0 false, .finish 0 false, .returns,
    .repair false, .repair true]

theorem staysFailed_of_failsEverywhere :
    ∃ manager : QuorumManager 3, Reaches (step 2) commitsOnly fresh manager ∧
      manager.failed.length = 1 ∧ StaysFailed 2 manager := by
  have passed : (runGuarded (step 2) commitsOnly (fresh : QuorumManager 3) failsEverywhere).any
      (fun final => final.failed.length = 1 ∧ (∀ replica, (final.replicas replica).FitsWords) ∧
        (final.replicas 0).wal = final.acknowledged ∧
        (∀ record ∈ final.failed, record ∉ (final.replicas 0).wal) ∧
        ∀ index, newestTs (final.replicas index).wal ≤ newestTs (final.replicas 0).wal) = true := by
    decide +kernel
  rcases exists_reaches_of_decide passed with ⟨final, reached, oneFailed, fits, complete, absent, newest⟩
  refine ⟨final, reached, oneFailed, (staysFailed_iff (by decide) (by decide) reached fits).mpr ?_⟩
  intro replica foremost
  have isFirst : replica = 0 := by
    by_contra other
    exact absurd (newest replica) (not_le.mpr (foremost.first 0 (Fin.pos_of_ne_zero other)))
  rw [isFirst]
  exact ⟨absent, fun key => by rw [complete]⟩

/-- The commit reaches one replica of three. -/
def failsOnTwo : List Action :=
  [.commit (Txn.writing 0 (Key.ofNat 1) [1]), .finish 0 true, .finish 0 false, .finish 0 false, .returns]

/-- A later open has a version of a failed commit. -/
def resurfaces (quorum : Nat) (manager : QuorumManager replicas) : Bool :=
  match openQuorum quorum manager.files with
  | .error _ => true
  | .ok opened => manager.failed.any (fun record => record.ops.any (fun op =>
    (versionsOf opened.store op.1).contains ⟨record.commitTs, op.2⟩))

theorem not_staysFailed_of_resurfaces (found : manager.resurfaces quorum = true) : ¬StaysFailed quorum manager := by
  rintro ⟨_, isOpened, absent, _⟩
  unfold resurfaces at found
  rw [isOpened] at found
  rcases any_eq_true.mp found with ⟨record, isFailed, found⟩
  rcases any_eq_true.mp found with ⟨op, member, found⟩
  exact absent record isFailed op member (contains_iff_mem.mp found)

theorem failed_commit_resurfaces :
    ∃ manager : QuorumManager 3, Reaches (step 2) commitsOnly fresh manager ∧ ¬StaysFailed 2 manager := by
  have passed : (runGuarded (step 2) commitsOnly (fresh : QuorumManager 3) failsOnTwo).any (resurfaces 2) = true := by
    decide +kernel
  rcases exists_reaches_of_runGuarded passed with ⟨final, reached, found⟩
  exact ⟨final, reached, not_staysFailed_of_resurfaces found⟩

end QuorumManager

end TxnKv
end ScaleKv
