import ScaleKv.TxnKv.ReplicaFiles
import Mathlib.Data.Fintype.Card

namespace ScaleKv
namespace TxnKv

open Foundation QuorumOp List Codec

/-!
# The order of the tasks on one replica

Nothing keeps the tasks of two calls in order on the replica they share.  Three
inversions do harm: of two appends on one key, of a truncation and an append
that was spawned after it, and of two snapshots.  Where none of them happens, the
log of every replica is in commit order for each key, and no replica misses an
acknowledged commit once its tasks have ended.

The invariant is about one replica and the operations that are pending there.
`base` is the snapshot that was spawned last; on each replica it is either
pending or written.
-/

/-- Two records write a common key. -/
def shares (left right : WalRecord) : Bool :=
  left.ops.any (fun op => right.ops.any (fun other => op.1 = other.1))

variable {left right record : WalRecord} {store : Store}

theorem shares_iff :
    shares left right = true <->
      ∃ op other, op ∈ left.ops ∧ other ∈ right.ops ∧ op.1 = other.1 := by
  constructor
  · intro common
    rcases any_eq_true.mp common with ⟨op, inLeft, found⟩
    rcases any_eq_true.mp found with ⟨other, inRight, same⟩
    exact ⟨op, other, inLeft, inRight, of_decide_eq_true same⟩
  · rintro ⟨op, other, inLeft, inRight, same⟩
    exact any_eq_true.mpr ⟨op, inLeft, any_eq_true.mpr ⟨other, inRight, decide_eq_true same⟩⟩

theorem shares_symm (common : shares left right = true) : shares right left = true := by
  rcases shares_iff.mp common with ⟨op, other, inLeft, inRight, same⟩
  exact shares_iff.mpr ⟨other, op, inRight, inLeft, same.symm⟩

/-- The later operation has to wait for the earlier one. -/
def blocks : QuorumOp -> QuorumOp -> Bool
  | .append earlier, .append later => shares earlier later
  | .truncate, .append _ => true
  | .snapshot _ _, .snapshot _ _ => true
  | _, _ => false

/-- The store has the versions that the record pushes. -/
def Holds (store : Store) (record : WalRecord) : Prop :=
  ∀ op ∈ record.ops, (⟨record.commitTs, op.2⟩ : Version) ∈ versionsOf store op.1

theorem holds_push (store : Store) (record : WalRecord) :
    Holds (pushVersions store record.commitTs record.ops) record := by
  intro op member
  rw [versionsOf_push]
  exact mem_append_right _ (mem_filterMap.mpr ⟨op, member, if_pos rfl⟩)

theorem Holds.push (holds : Holds store record) (other : WalRecord) :
    Holds (pushVersions store other.commitTs other.ops) record := by
  intro op member
  rw [versionsOf_push]
  exact mem_append_left _ (holds op member)

/-- The snapshot was written from a store that has the record. -/
def Covered (base : Option (Store × Nat)) (record : WalRecord) : Prop :=
  ∃ written, base = some written ∧ Holds written.1 record

/-- The snapshot or the log, as it is read, contains the commit. -/
def Replica.Contains (replica : Replica) (record : WalRecord) : Prop :=
  record ∈ (readWal replica.walFile).1 ∨ Covered replica.snapshot record

def QuorumOp.snapshotOf : QuorumOp -> Option (Store × Nat)
  | .snapshot commitTs store => some (store, commitTs)
  | _ => none

/-! ## One replica -/

/-- The replica, with its pending operations in the order in which they were
spawned, after the records `issued`. -/
structure Line (base : Option (Store × Nat)) (issued : List WalRecord) (replica : Replica)
    (pending : List QuorumOp) : Prop where
  known : ∀ record ∈ replica.wal, record ∈ issued
  pendingKnown : ∀ record, .append record ∈ pending -> record ∈ issued
  sorted : replica.wal.Pairwise (fun earlier later => shares earlier later = true ->
    earlier.commitTs < later.commitTs)
  ahead : ∀ earlier later, earlier ∈ replica.wal -> .append later ∈ pending ->
    shares earlier later = true -> earlier.commitTs < later.commitTs
  queued : pending.Pairwise (fun left right => ∀ earlier later, left = .append earlier ->
    right = .append later -> earlier.commitTs < later.commitTs)
  top : ((pending.filterMap snapshotOf).getLast?).or replica.snapshot = base
  truncates : .truncate ∈ pending -> ∀ record ∈ replica.wal, Covered base record
  truncatesLater : pending.Pairwise (fun left right => ∀ record, left = .append record ->
    right = .truncate -> Covered base record)
  covered : ∀ record ∈ issued,
    record ∈ replica.wal ∨ .append record ∈ pending ∨ Covered base record

section Line

variable {base : Option (Store × Nat)} {issued : List WalRecord} {replica : Replica}
variable {pending before after : List QuorumOp}

variable {record : WalRecord} {op : QuorumOp}

theorem Line.runsAppend (line : Line base issued replica (before ++ .append record :: after))
    (free : ∀ earlier ∈ before, blocks earlier (.append record) = false) :
    Line base issued ((append record).apply replica) (before ++ after) := by
  have queued := pairwise_append.mp line.queued
  have truncatesLater := pairwise_append.mp line.truncatesLater
  have inPending : ∀ {op}, op ∈ before ++ after -> op ∈ before ++ .append record :: after := by
    intro op member
    rcases mem_append.mp member with inBefore | inAfter
    · exact mem_append_left _ inBefore
    · exact mem_append_right _ (mem_cons_of_mem _ inAfter)
  have here : append record ∈ before ++ .append record :: after :=
    mem_append_right _ mem_cons_self
  refine ⟨?_, ?_, ?_, ?_, ?_, ?_, ?_, ?_, ?_⟩
  · refine forall_mem_append.mpr ⟨line.known, forall_mem_singleton.mpr ?_⟩
    exact line.pendingKnown record here
  · exact fun other member => line.pendingKnown other (inPending member)
  · refine pairwise_append.mpr ⟨line.sorted, pairwise_singleton _ _, ?_⟩
    intro earlier member later isLast common
    rw [mem_singleton.mp isLast] at common ⊢
    exact line.ahead earlier record member here common
  · intro earlier later inWal member common
    rcases mem_append.mp inWal with old | isNew
    · exact line.ahead earlier later old (inPending member) common
    · rw [mem_singleton.mp isNew] at common ⊢
      rcases mem_append.mp member with inBefore | inAfter
      · -- An earlier append on a common key would have been waited for.
        have waits := free _ inBefore
        rw [show blocks (.append later) (.append record) = shares later record from rfl,
          shares_symm common] at waits
        cases waits
      · exact rel_of_pairwise_cons queued.2.1 inAfter record later rfl rfl
  · refine pairwise_append.mpr ⟨queued.1, List.Pairwise.of_cons queued.2.1, ?_⟩
    intro left inBefore right inAfter
    exact queued.2.2 left inBefore right (mem_cons_of_mem _ inAfter)
  · have top := line.top
    rw [filterMap_append, filterMap_cons_none rfl, ← filterMap_append] at top
    exact top
  · intro member other inWal
    rcases mem_append.mp inWal with old | isNew
    · exact line.truncates (inPending member) other old
    · rw [mem_singleton.mp isNew]
      rcases mem_append.mp member with inBefore | inAfter
      · cases free _ inBefore
      · exact rel_of_pairwise_cons truncatesLater.2.1 inAfter record rfl rfl
  · refine pairwise_append.mpr ⟨truncatesLater.1, List.Pairwise.of_cons truncatesLater.2.1, ?_⟩
    intro left inBefore right inAfter
    exact truncatesLater.2.2 left inBefore right (mem_cons_of_mem _ inAfter)
  · intro other member
    rcases line.covered other member with inWal | isPending | isCovered
    · exact .inl (mem_append_left _ inWal)
    · rcases mem_append.mp isPending with inBefore | inRest
      · exact .inr (.inl (mem_append_left _ inBefore))
      · rcases mem_cons.mp inRest with same | inAfter
        · cases same
          exact .inl (mem_append_right _ (mem_singleton_self _))
        · exact .inr (.inl (mem_append_right _ inAfter))
    · exact .inr (.inr isCovered)

theorem Line.leaves (line : Line base issued replica (before ++ op :: after))
    (other : ∀ record, op ≠ .append record) {next : Replica}
    (kept : ∀ record ∈ next.wal, record ∈ replica.wal)
    (sublist : next.wal.Sublist replica.wal)
    (top : (((before ++ after).filterMap snapshotOf).getLast?).or next.snapshot = base)
    (lost : ∀ record ∈ replica.wal, record ∈ next.wal ∨ Covered base record) :
    Line base issued next (before ++ after) := by
  have smaller : (before ++ after).Sublist (before ++ op :: after) :=
    List.Sublist.append_left (sublist_cons_self op after) before
  refine ⟨?_, ?_, line.sorted.sublist sublist, ?_, line.queued.sublist smaller, top, ?_,
    line.truncatesLater.sublist smaller, ?_⟩
  · exact fun record member => line.known record (kept record member)
  · exact fun record member => line.pendingKnown record (smaller.subset member)
  · exact fun earlier later inWal member => line.ahead earlier later (kept earlier inWal) (smaller.subset member)
  · exact fun member record inWal => line.truncates (smaller.subset member) record (kept record inWal)
  · intro record member
    rcases line.covered record member with inWal | isPending | isCovered
    · rcases lost record inWal with stays | isCovered
      · exact .inl stays
      · exact .inr (.inr isCovered)
    · refine .inr (.inl ?_)
      rcases mem_append.mp isPending with inBefore | inRest
      · exact mem_append_left _ inBefore
      · rcases mem_cons.mp inRest with same | inAfter
        · exact absurd same.symm (other record)
        · exact mem_append_right _ inAfter
    · exact .inr (.inr isCovered)

theorem Line.runs (line : Line base issued replica (before ++ op :: after))
    (free : ∀ earlier ∈ before, blocks earlier op = false) :
    Line base issued (op.apply replica) (before ++ after) := by
  cases op with
  | append => exact line.runsAppend free
  | snapshot commitTs store =>
    refine line.leaves nofun (fun _ member => member)
      (List.Sublist.refl _) ?_ (fun _ member => .inl member)
    have noneBefore : before.filterMap snapshotOf = [] := by
      rw [filterMap_eq_nil_iff]
      intro earlier member
      cases earlier with
      | append => rfl
      | snapshot => cases free _ member
      | truncate => rfl
    have top := line.top
    rw [filterMap_append, noneBefore, nil_append,
      filterMap_cons_some (show snapshotOf (.snapshot commitTs store) = some (store, commitTs) from rfl),
      List.getLast?_cons] at top
    rw [filterMap_append, noneBefore, nil_append]
    cases last : (after.filterMap snapshotOf).getLast? with
    | none =>
      rw [last] at top
      exact top
    | some =>
      rw [last] at top
      exact top
  | truncate =>
    have pending : truncate ∈ before ++ .truncate :: after :=
      mem_append_right _ mem_cons_self
    refine line.leaves nofun (fun _ member => by cases member)
      (nil_sublist _) ?_ (fun record member => .inr (line.truncates pending record member))
    have top := line.top
    rw [filterMap_append, filterMap_cons_none rfl, ← filterMap_append] at top
    exact top

section

variable (line : Line base issued replica pending)

include line

theorem Line.spawnsAppend
    (newest : ∀ other ∈ issued, other.commitTs < record.commitTs) :
    Line base (issued ++ [record]) replica (pending ++ [.append record]) := by
  have last : ∀ {op}, op ∈ [append record] -> op = .append record := mem_singleton.mp
  refine ⟨?_, ?_, line.sorted, ?_, ?_, ?_, ?_, ?_, ?_⟩
  · exact fun other member => mem_append_left _ (line.known other member)
  · intro other member
    rcases mem_append.mp member with old | isNew
    · exact mem_append_left _ (line.pendingKnown other old)
    · cases last isNew
      exact mem_append_right _ (mem_singleton_self _)
  · intro earlier later inWal member common
    rcases mem_append.mp member with old | isNew
    · exact line.ahead earlier later inWal old common
    · cases last isNew
      exact newest earlier (line.known earlier inWal)
  · refine pairwise_append.mpr ⟨line.queued, pairwise_singleton _ _, ?_⟩
    intro _ member _ isNew earlier later isLeft isRight
    rw [last isNew] at isRight
    cases isRight
    rw [isLeft] at member
    exact newest earlier (line.pendingKnown earlier member)
  · rw [filterMap_append, show [append record].filterMap snapshotOf = [] from rfl, append_nil]
    exact line.top
  · intro member
    rcases mem_append.mp member with old | isNew
    · exact line.truncates old
    · cases last isNew
  · refine pairwise_append.mpr ⟨line.truncatesLater, pairwise_singleton _ _, ?_⟩
    intro _ _ _ isNew other _ isTruncate
    rw [last isNew] at isTruncate
    cases isTruncate
  · intro other member
    rcases mem_append.mp member with old | isNew
    · rcases line.covered other old with inWal | isPending | isCovered
      · exact .inl inWal
      · exact .inr (.inl (mem_append_left _ isPending))
      · exact .inr (.inr isCovered)
    · rw [mem_singleton.mp isNew]
      exact .inr (.inl (mem_append_right _ (mem_singleton_self _)))

theorem Line.spawnsTask {covering : Option (Store × Nat)}
    (noAppend : ∀ record, op ≠ .append record)
    (top : (((pending ++ [op]).filterMap snapshotOf).getLast?).or replica.snapshot = covering)
    (complete : ∀ record ∈ issued, Covered covering record) :
    Line covering issued replica (pending ++ [op]) := by
  have older : ∀ {record}, .append record ∈ pending ++ [op] -> .append record ∈ pending := by
    intro record member
    rcases mem_append.mp member with old | isNew
    · exact old
    · exact absurd (mem_singleton.mp isNew).symm (noAppend record)
  refine ⟨line.known, fun record member => line.pendingKnown record (older member), line.sorted,
    fun earlier later inWal member => line.ahead earlier later inWal (older member), ?_, top,
    fun _ record inWal => complete record (line.known record inWal), ?_,
    fun record member => .inr (.inr (complete record member))⟩
  · refine pairwise_append.mpr ⟨line.queued, pairwise_singleton _ _, ?_⟩
    intro left _ _ isNew _ later _ isAppend
    exact absurd ((mem_singleton.mp isNew).symm.trans isAppend) (noAppend later)
  · rw [pairwise_iff_forall_sublist]
    intro left _ both record isLeft _
    have member : left ∈ pending ++ [op] := both.subset mem_cons_self
    rw [isLeft] at member
    exact complete record (line.pendingKnown record (older member))

theorem Line.spawnsSnapshot {commitTs : Nat}
    (complete : ∀ record ∈ issued, Holds store record) :
    Line (some (store, commitTs)) issued replica (pending ++ [.snapshot commitTs store]) := by
  refine line.spawnsTask nofun ?_ (fun record member => ⟨_, rfl, complete record member⟩)
  rw [filterMap_append, List.getLast?_append]
  rfl

theorem Line.spawnsTruncate (complete : ∀ record ∈ issued, Covered base record) :
    Line base issued replica (pending ++ [.truncate]) := by
  refine line.spawnsTask nofun ?_ complete
  rw [filterMap_append, show [truncate].filterMap snapshotOf = [] from rfl, append_nil]
  exact line.top

end

end Line

/-! ## Replaying one replica -/

theorem pairwise_versionsIn (distinct : record.ops.Pairwise (fun left right => left.1 ≠ right.1))
    (key : Key) :
    (versionsIn key record).Pairwise (fun earlier later => earlier.commitTs < later.commitTs) := by
  unfold versionsIn
  rw [pairwise_filterMap]
  refine distinct.imp ?_
  intro left right different earlier isEarlier later isLater
  split at isEarlier
  · next isKey =>
    split at isLater
    · next isKeyToo => exact absurd (isKey.trans isKeyToo.symm) different
    · cases isLater
  · cases isEarlier

theorem Replica.loaded_versions (replica : Replica) (key : Key) :
    (versionsOf (replica.loaded.getD (∅, 0)).1 key).Pairwise
        (fun earlier later => earlier.commitTs < later.commitTs) ∧
      ∀ version ∈ versionsOf (replica.loaded.getD (∅, 0)).1 key,
        version.commitTs = (replica.loaded.getD (∅, 0)).2 := by
  unfold Replica.loaded
  cases replica.snapshot with
  | none =>
    rw [show ((Option.map _ none).getD (∅, 0) : Store × Nat).1 = ∅ from rfl, versionsOf_empty]
    exact ⟨List.Pairwise.nil, nofun⟩
  | some written =>
    rw [Option.map_some, Option.getD_some]
    rw [versionsOf_snapshotStore]
    cases latestOf (versionsOf written.1 key) with
    | none => exact ⟨List.Pairwise.nil, nofun⟩
    | some =>
      refine ⟨pairwise_singleton _ _, ?_⟩
      intro version member
      rw [mem_singleton.mp member]

theorem Line.increasing {base : Option (Store × Nat)} {issued : List WalRecord} {replica : Replica}
    {pending : List QuorumOp} (line : Line base issued replica pending)
    (distinct : ∀ record ∈ issued, record.ops.Pairwise (fun left right => left.1 ≠ right.1))
    (key : Key) :
    (versionsOf (openedWith replica.loaded replica.wal).store key).Pairwise
      (fun earlier later => earlier.commitTs < later.commitTs) := by
  rcases replica.loaded_versions key with ⟨baseSorted, baseTs⟩
  have versions := versionsOf_replay replica.wal (replica.loaded.getD (∅, 0)).1 (replica.loaded.getD (∅, 0)).2 key
  rw [show versionsOf (openedWith replica.loaded replica.wal).store key = _ from versions]
  refine pairwise_append.mpr ⟨baseSorted, pairwise_flatMap.mpr ⟨?_, ?_⟩, ?_⟩
  · intro record member
    exact pairwise_versionsIn (distinct record (line.known record (mem_of_mem_filter member))) key
  · refine (line.sorted.filter _).imp ?_
    intro earlier later ordered left inEarlier right inLater
    rcases key_mem_of_versionsIn inEarlier with ⟨op, opInside, isKey⟩
    rcases key_mem_of_versionsIn inLater with ⟨other, otherInside, isKeyToo⟩
    rw [versionsIn_commitTs inEarlier, versionsIn_commitTs inLater]
    exact ordered (shares_iff.mpr ⟨op, other, opInside, otherInside, isKey.trans isKeyToo.symm⟩)
  · intro left inBase right inLog
    rcases mem_flatMap.mp inLog with ⟨_, inside, isVersion⟩
    rw [baseTs left inBase, versionsIn_commitTs isVersion]
    exact of_decide_eq_true (mem_filter.mp inside).2

namespace QuorumManager

variable {replicas : Nat} {quorum : Nat} {manager next : QuorumManager replicas}

/-! ## All replicas -/

/-- The operations that are pending on a replica. -/
def opsOf (tasks : List (Task replicas)) (replica : Fin replicas) : List QuorumOp :=
  (tasks.filter (fun task => task.replica = replica)).map Task.op

theorem opsOf_append (left right : List (Task replicas)) (replica : Fin replicas) :
    opsOf (left ++ right) replica = opsOf left replica ++ opsOf right replica := by
  unfold opsOf
  rw [filter_append, map_append]

theorem opsOf_cons_same (task : Task replicas) (rest : List (Task replicas)) :
    opsOf (task :: rest) task.replica = task.op :: opsOf rest task.replica := by
  unfold opsOf
  rw [filter_cons_of_pos (by simp), map_cons]

variable {task : Task replicas} {base : Option (Store × Nat)}

theorem opsOf_cons_other {replica : Fin replicas} (other : task.replica ≠ replica)
    (rest : List (Task replicas)) : opsOf (task :: rest) replica = opsOf rest replica := by
  unfold opsOf
  rw [filter_cons_of_neg (by simpa using other)]

theorem opsOf_spawn (manager : QuorumManager replicas) (op : QuorumOp) (stage : CallStage)
    (replica : Fin replicas) :
    opsOf (manager.spawn op stage).tasks replica = opsOf manager.tasks replica ++ [op] := by
  have one : (List.finRange replicas).filter (fun index => index = replica) = [replica] := by
    rw [filter_eq, count_eq_one_of_mem (nodup_finRange replicas) (mem_finRange replica),
      replicate_one]
  have spawned : opsOf ((List.finRange replicas).map
      (fun index => (⟨manager.calls + 1, index, op⟩ : Task replicas))) replica = [op] := by
    unfold opsOf
    rw [filter_map, show ((fun task : Task replicas => decide (task.replica = replica)) ∘
      fun index => ⟨manager.calls + 1, index, op⟩) = (fun index => decide (index = replica)) from rfl, one]
    rfl
  unfold spawn
  rw [opsOf_append, spawned]

/-- The records that have been handed to the replicas. -/
def issued (manager : QuorumManager replicas) : List WalRecord :=
  match manager.stage with
  | .committing record => manager.acknowledged ++ [record]
  | _ => manager.acknowledged

theorem issued_of_stage (stage : manager.stage = .committing record) :
    manager.issued = manager.acknowledged ++ [record] := by
  unfold issued
  rw [stage]

theorem issued_of_not_committing (stage : ∀ record, manager.stage ≠ .committing record) :
    manager.issued = manager.acknowledged := by
  unfold issued
  split
  · next record isStage => exact absurd isStage (stage record)
  · rfl

/-- What holds in runs whose tasks keep the order. -/
structure InLine (manager : QuorumManager replicas) (base : Option (Store × Nat)) : Prop where
  lines : ∀ replica, Line base manager.issued (manager.replicas replica) (opsOf manager.tasks replica)
  distinct : ∀ record ∈ manager.issued, record.ops.Pairwise (fun left right => left.1 ≠ right.1)
  bounded : ∀ record ∈ manager.issued, record.commitTs ≤ manager.commitTs
  published : ∀ record ∈ manager.acknowledged, Holds manager.store record
  snapshotting : manager.stage = .snapshotting -> ∀ record ∈ manager.acknowledged,
    Covered base record

theorem line_nothing : Line none [] { snapshot := none, wal := [] } [] where
  known := nofun
  pendingKnown := nofun
  sorted := List.Pairwise.nil
  ahead := nofun
  queued := List.Pairwise.nil
  top := rfl
  truncates := nofun
  truncatesLater := List.Pairwise.nil
  covered := nofun

theorem inLine_fresh : InLine (fresh : QuorumManager replicas) none where
  lines := fun _ => line_nothing
  distinct := nofun
  bounded := nofun
  published := nofun
  snapshotting := nofun

/-- A run of commits and checkpoints that return `Ok`, in which no task fails. -/
def allSucceed (quorum : Nat) (manager : QuorumManager replicas) : Action -> Prop
  | .finish _ succeeds => succeeds = true
  | .returns => quorum ≤ manager.successes
  | .repair _ => False
  | _ => True

instance allSucceedDecidable (quorum : Nat) (manager : QuorumManager replicas) (action : Action) :
    Decidable (allSucceed quorum manager action) := by
  unfold allSucceed
  induction action using Action.casesOn <;> infer_instance

/-- A task that was spawned earlier for the same replica has to end before. -/
def waits (manager : QuorumManager replicas) (position : Nat) : Bool :=
  match manager.tasks[position]? with
  | none => false
  | some task => (manager.tasks.take position).any (fun earlier =>
    earlier.replica = task.replica && blocks earlier.op task.op)

/-- Such a run in which every task waits for the earlier ones that block it. -/
def inOrder (quorum : Nat) (manager : QuorumManager replicas) (action : Action) : Prop :=
  allSucceed quorum manager action ∧
    match action with
    | .finish position _ => manager.waits position = false
    | _ => True

instance inOrderDecidable (quorum : Nat) (manager : QuorumManager replicas) (action : Action) :
    Decidable (inOrder quorum manager action) := by
  unfold inOrder
  induction action using Action.casesOn <;> infer_instance

theorem not_blocks_of_waits {before after : List (Task replicas)}
    (isSplit : manager.tasks = before ++ task :: after) (free : manager.waits before.length = false) :
    ∀ earlier ∈ opsOf before task.replica, blocks earlier task.op = false := by
  intro earlier member
  rcases mem_map.mp member with ⟨other, inside, rfl⟩
  rcases mem_filter.mp inside with ⟨inBefore, same⟩
  unfold waits at free
  rw [isSplit, List.getElem?_append_right le_rfl, Nat.sub_self, List.getElem?_cons_zero] at free
  rw [take_left, any_eq_false] at free
  have unblocked := free other inBefore
  rw [same, Bool.true_and] at unblocked
  exact Bool.eq_false_iff.mpr unblocked

section

variable (inv : InLine manager base)

include inv

theorem InLine.finishes {before after : List (Task replicas)} (isSplit : manager.tasks = before ++ task :: after)
    (free : manager.waits before.length = false) (successes : Nat) :
    InLine { manager with
      tasks := before ++ after
      replicas := manager.written task.replica task.op
      successes := successes } base := by
  refine { inv with lines := ?_ }
  intro replica
  have line := inv.lines replica
  rw [isSplit, opsOf_append] at line
  dsimp only
  rw [opsOf_append]
  by_cases same : task.replica = replica
  · subst same
    rw [opsOf_cons_same] at line
    rw [written, Function.update_self]
    exact line.runs (not_blocks_of_waits isSplit free)
  · rw [opsOf_cons_other same] at line
    rw [written, Function.update_of_ne (Ne.symm same)]
    exact line

theorem InLine.commits {txn : Txn} (idle : manager.stage = .idle) :
    InLine (manager.startAppend txn) base := by
  have before : manager.issued = manager.acknowledged :=
    issued_of_not_committing (fun _ other => by rw [idle] at other; cases other)
  have after : (manager.startAppend txn).issued = manager.issued ++ [manager.recordOf txn] := by
    rw [before]
    rfl
  refine ⟨?_, ?_, ?_, inv.published, nofun⟩
  · intro replica
    rw [after, startAppend, opsOf_spawn]
    exact (inv.lines replica).spawnsAppend (fun other member => Nat.lt_succ_of_le (inv.bounded other member))
  · intro record member
    rw [after] at member
    rcases mem_append.mp member with old | isNew
    · exact inv.distinct record old
    · rw [mem_singleton.mp isNew]
      exact OrderedMap.toList_distinct txn.writeSet
  · intro record member
    rw [after] at member
    rcases mem_append.mp member with old | isNew
    · exact Nat.le_succ_of_le (inv.bounded record old)
    · rw [mem_singleton.mp isNew]
      exact le_rfl

theorem InLine.checkpoints (idle : manager.stage = .idle) :
    InLine (manager.spawn (.snapshot manager.commitTs manager.store) .snapshotting)
      (some (manager.store, manager.commitTs)) := by
  have before : manager.issued = manager.acknowledged :=
    issued_of_not_committing (fun _ other => by rw [idle] at other; cases other)
  have after : (manager.spawn (.snapshot manager.commitTs manager.store) .snapshotting).issued =
      manager.issued := before.symm
  refine ⟨?_, ?_, ?_, inv.published, fun _ record member => ⟨_, rfl, inv.published record member⟩⟩
  · intro replica
    rw [after, opsOf_spawn]
    refine (inv.lines replica).spawnsSnapshot ?_
    rw [before]
    exact inv.published
  · rw [after]
    exact inv.distinct
  · rw [after]
    exact inv.bounded

theorem InLine.truncates (snapshotting : manager.stage = .snapshotting) :
    InLine (manager.spawn .truncate .truncating) base := by
  have before : manager.issued = manager.acknowledged :=
    issued_of_not_committing (fun _ other => by rw [snapshotting] at other; cases other)
  have after : (manager.spawn .truncate .truncating).issued = manager.issued := before.symm
  refine ⟨?_, ?_, ?_, inv.published, nofun⟩
  · intro replica
    rw [after, opsOf_spawn]
    refine (inv.lines replica).spawnsTruncate ?_
    rw [before]
    exact inv.snapshotting snapshotting
  · rw [after]
    exact inv.distinct
  · rw [after]
    exact inv.bounded

theorem InLine.acknowledges (committing : manager.stage = .committing record) :
    InLine (manager.acknowledge record) base := by
  have same : (manager.acknowledge record).issued = manager.issued := (issued_of_stage committing).symm
  refine ⟨?_, ?_, ?_, ?_, nofun⟩
  · exact fun replica => same ▸ inv.lines replica
  · exact same ▸ inv.distinct
  · exact same ▸ inv.bounded
  · refine forall_mem_append.mpr
      ⟨fun other old => (inv.published other old).push record, forall_mem_singleton.mpr ?_⟩
    exact holds_push _ _

theorem InLine.step {action : Action}
    (admitted : inOrder quorum manager action) (taken : manager.step quorum action = some next) :
    ∃ after, InLine next after := by
  cases moves_of_step taken with
  | passes => exact ⟨base, inv⟩
  | refuses =>
    exact ⟨base, inv.lines, inv.distinct, fun record member => Nat.le_succ_of_le (inv.bounded record member),
      inv.published, inv.snapshotting⟩
  | commits appends => exact ⟨base, inv.commits appends.idle⟩
  | checkpoints idle => exact ⟨_, inv.checkpoints idle⟩
  | succeeds _ _ _ successes isSplit => exact ⟨base, inv.finishes isSplit admitted.2 successes⟩
  | fails => cases admitted.1
  | acknowledges committing => exact ⟨base, inv.acknowledges committing⟩
  | gives _ few => exact absurd admitted.1 (not_le.mpr few)
  | truncates snapshotting => exact ⟨base, inv.truncates snapshotting⟩
  | ends stage =>
    have same : manager.issued = manager.acknowledged := by
      refine issued_of_not_committing (fun _ other => ?_)
      rcases stage with stage | stage <;> rw [stage] at other <;> cases other
    exact ⟨base, fun replica => same ▸ inv.lines replica, same ▸ inv.distinct, same ▸ inv.bounded, inv.published,
      nofun⟩
  | repairs => exact admitted.1.elim
  | delays => exact admitted.1.elim

end

/-- Opening any one replica alone gives for every key versions in commit order,
and a quorum of replicas contains each acknowledged commit. -/
structure KeepsOrder (quorum : Nat) (manager : QuorumManager replicas) : Prop where
  increasing : ∀ replica, ∃ opened, openQuorum 1 [(manager.replicas replica).files] = .ok opened ∧
    ∀ key, (versionsOf opened.store key).Pairwise
      (fun earlier later => earlier.commitTs < later.commitTs)
  contained : ∀ record ∈ manager.acknowledged,
    ∃ holders : Finset (Fin replicas), quorum ≤ holders.card ∧
      ∀ replica ∈ holders, (manager.replicas replica).Contains record

theorem InLine.keepsOrder (inv : InLine manager base) (enough : quorum ≤ replicas)
    (ended : manager.tasks = [])
    (readable : ∀ replica, Readable (manager.replicas replica).files (manager.replicas replica).loaded
      (manager.replicas replica).wal) : KeepsOrder quorum manager := by
  refine ⟨fun replica => ⟨_, openQuorum_single (readable replica),
    fun key => (inv.lines replica).increasing inv.distinct key⟩, ?_⟩
  intro record member
  refine ⟨Finset.univ, ?_, ?_⟩
  · rw [Finset.card_univ, Fintype.card_fin]
    exact enough
  · intro replica _
    have line := inv.lines replica
    rw [ended] at line
    have isIssued : record ∈ manager.issued := by
      unfold issued
      split
      · exact mem_append_left _ member
      · exact member
    rcases line.covered record isIssued with inWal | isPending | isCovered
    · have read : (readWal (manager.replicas replica).walFile).1 = (manager.replicas replica).wal :=
        Except.ok.inj (readable replica).read
      rw [← read] at inWal
      exact .inl inWal
    · cases isPending
    · have written : (manager.replicas replica).snapshot = base := line.top
      rw [← written] at isCovered
      exact .inr isCovered

/-- The records and snapshots fit their words, and on every replica a task waits
for the earlier ones that block it. -/
theorem keepsOrder_of_inOrder (enough : quorum ≤ replicas)
    (reached : Reaches (step quorum) (inOrder quorum) fresh manager) (ended : manager.tasks = [])
    (fits : ∀ replica, (manager.replicas replica).FitsWords) :
    KeepsOrder quorum manager := by
  have inv : ∃ base, InLine manager base := by
    refine @Reaches.invariant _ _ _ _ _ _ (fun state => ∃ base, InLine state base)
      ⟨none, inLine_fresh⟩ ?_ reached
    intro _ _ _ lined admitted taken
    rcases lined with ⟨_, inv⟩
    exact inv.step admitted taken
  rcases inv with ⟨_, inv⟩
  have encoded := allEncoded_of_reaches reached
  exact inv.keepsOrder enough ended (fun replica => Replica.readable (encoded.files replica) (fits replica))

/-- Two commits on one key and a checkpoint.  On the second replica the tasks come
after those of the next call, the appends and the snapshot in their order. -/
def stragglersInOrder : List Action :=
  [.commit (Txn.writing 0 (Key.ofNat 1) [1]), .finish 0 true, .returns,
    .commit (Txn.writing 1 (Key.ofNat 1) [2]), .finish 1 true, .returns,
    .checkpoint, .finish 2 true, .returns, .finish 0 true, .finish 0 true,
    .finish 1 true, .returns, .finish 1 true, .finish 0 true,
    .commit (Txn.writing 2 (Key.ofNat 1) [3]), .finish 0 true, .finish 0 true, .returns]

theorem keepsOrder_of_stragglersInOrder :
    ∃ manager : QuorumManager 2, Reaches (step 1) (inOrder 1) fresh manager ∧
      (manager.tasks.length = 0 ∧ manager.acknowledged.length = 3) ∧ KeepsOrder 1 manager := by
  have passed : (runGuarded (step 1) (inOrder 1) (fresh : QuorumManager 2) stragglersInOrder).any
      (fun final => (final.tasks.length = 0 ∧ final.acknowledged.length = 3) ∧
        ∀ replica, (final.replicas replica).FitsWords) = true := by
    decide +kernel
  rcases exists_reaches_of_decide passed with ⟨final, reached, ended, fits⟩
  exact ⟨final, reached, ended,
    keepsOrder_of_inOrder (by decide) reached (eq_nil_of_length_eq_zero ended.1) fits⟩

/-- The first append on the second replica comes after the second one there. -/
def appendsInverted : List Action :=
  [.commit (Txn.writing 0 (Key.ofNat 1) [1]), .finish 0 true, .returns,
    .commit (Txn.writing 1 (Key.ofNat 1) [2]), .finish 1 true, .returns, .finish 1 true, .finish 0 true]

theorem straggling_append_inverts_versions :
    ∃ manager : QuorumManager 2, Reaches (step 1) (allSucceed 1) fresh manager ∧
      manager.tasks.length = 0 ∧ ¬KeepsOrder 1 manager := by
  have passed : (runGuarded (step 1) (allSucceed 1) (fresh : QuorumManager 2) appendsInverted).any
      (fun final => final.tasks.length = 0 ∧ (openQuorum 1 [(final.replicas 1).files]).toOption.all (fun opened =>
        (versionsOf opened.store (Key.ofNat 1)).map Version.commitTs = [2, 1]) = true) = true := by
    decide +kernel
  rcases exists_reaches_of_decide passed with ⟨final, reached, ended, inverted⟩
  refine ⟨final, reached, ended, ?_⟩
  intro keeps
  rcases keeps.increasing 1 with ⟨opened, isOpened, increasing⟩
  rw [isOpened] at inverted
  have sorted := pairwise_map.mpr (increasing (Key.ofNat 1))
  rw [of_decide_eq_true inverted] at sorted
  exact absurd sorted (by decide)

end QuorumManager

end TxnKv
end ScaleKv
