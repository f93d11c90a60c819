import ScaleKv.TxnKv.Manager
import ScaleKv.Foundation.Run

namespace ScaleKv
namespace TxnKv

open Foundation OrderedMap List Option

/-!
# Snapshot isolation of the transaction manager

The read timestamp of a transaction is the value of the very counter that a
commit advances before it appends to the log and publishes.  A transaction
that begins between these two points therefore claims to see a commit whose
versions are still missing: a later get of the same key finds them, and the
conflict check does not count them as concurrent.

Away from that window the manager does give snapshot isolation.  The
invariant behind this says, for every transaction, that the store is its
starting store followed by versions younger than its read timestamp.
-/

/-- The timestamp of a commit that has drawn one and has not published yet. -/
def Phase.pendingTs : Phase -> Option Nat
  | .allocated commitTs => some commitTs
  | .appended commitTs => some commitTs
  | _ => none

def Phase.holdsLock : Phase -> Bool
  | .checked => true
  | .allocated _ => true
  | .appended _ => true
  | _ => false

/-- Some commit stands between drawing its timestamp and publishing.  Only the
holder of the commit lock can. -/
def State.midCommit (state : State) : Bool :=
  match state.lock with
  | none => false
  | some id =>
    match state.txns[id]? with
    | some record => record.phase.pendingTs.isSome
    | none => false

/-- No transaction begins while a commit is half way, and a read-only
transaction does not write.  The second clause is needed because `put` and
`delete` do not look at the flag while `commit` drops the write set of a
read-only transaction and still answers `Ok`. -/
def disciplined (state : State) : Action -> Prop
  | .begin _ _ => state.midCommit = false
  | .put id _ _ _ => ∀ record ∈ state.txns[id]?, record.txn.readOnly = false
  | .delete id _ _ => ∀ record ∈ state.txns[id]?, record.txn.readOnly = false
  | _ => True

instance disciplinedDecidable (state : State) (action : Action) :
    Decidable (disciplined state action) := by
  cases action <;> unfold disciplined <;> infer_instance

/-- The value that the last completed commit gave to a key. -/
def latestPublished (store : Store) (key : Key) : Option Value :=
  (versionsOf store key).getLast?.bind Version.value

/-- What snapshot isolation lets a transaction read: its own write, else the
value published last when it began. -/
def Record.expected (record : Record) (key : Key) : Option Value :=
  record.txn.writeSet[key]?.getD (latestPublished record.storeAtBegin key)

/-- Every get returned the value that the snapshot prescribes.  Since the list
of results starts afresh when the key is written, two gets of a key without a
write in between returned the same value. -/
def RepeatableReads (state : State) : Prop :=
  ∀ (id : TxnId) (record : Record), state.txns[id]? = some record ->
    ∀ seen ∈ record.reads, seen.2 = record.expected seen.1

/-- Of two transactions that wrote the same key and committed, one had been
published when the other began. -/
def FirstCommitterWins (state : State) : Prop :=
  ∀ (first second : TxnId) (firstRecord secondRecord : Record) (firstTs secondTs : Nat)
    (key : Key),
    first ≠ second ->
    state.txns[first]? = some firstRecord -> state.txns[second]? = some secondRecord ->
    firstRecord.phase = .committed firstTs -> secondRecord.phase = .committed secondTs ->
    key ∈ firstRecord.txn.writeSet -> key ∈ secondRecord.txn.writeSet ->
    first ∈ secondRecord.publishedAtBegin ∨ second ∈ firstRecord.publishedAtBegin

def SnapshotIsolation (state : State) : Prop :=
  RepeatableReads state ∧ FirstCommitterWins state

/-! ## The invariant of disciplined runs -/

/-- What holds of one transaction.  `extended` is the heart: the store is the
one it started from, with younger versions behind it. -/
structure RecordInv (state : State) (record : Record) : Prop where
  readTs_le : record.txn.readTs ≤ state.commitTs
  extended : ∀ key, ∃ later,
    versionsOf state.store key = versionsOf record.storeAtBegin key ++ later ∧
      ∀ version ∈ later, record.txn.readTs < version.commitTs
  atBegin : ∀ key version, version ∈ versionsOf record.storeAtBegin key ->
    version.commitTs ≤ record.txn.readTs
  unseen : ∀ (other : TxnId) (otherRecord : Record) (commitTs : Nat), state.txns[other]? = some otherRecord ->
    other ∈ state.published -> otherRecord.phase = .committed commitTs ->
    other ∉ record.publishedAtBegin -> record.txn.readTs < commitTs
  reads : ∀ seen ∈ record.reads, seen.2 = record.expected seen.1
  clean : record.phase.holdsLock = true -> ∀ key ∈ record.txn.writeSet,
    ∀ version ∈ versionsOf state.store key, version.commitTs ≤ record.txn.readTs
  readOnly_empty : record.txn.readOnly = true -> record.txn.writeSet.isEmpty = true

structure Inv (state : State) : Prop where
  records : ∀ (id : TxnId) (record : Record), state.txns[id]? = some record -> RecordInv state record
  stored_le : ∀ key version, version ∈ versionsOf state.store key ->
    version.commitTs ≤ state.commitTs
  lockHolder : ∀ (id : TxnId) (record : Record), state.txns[id]? = some record ->
    record.phase.holdsLock = true -> state.lock = some id
  pending : ∀ (id : TxnId) (record : Record) (commitTs : Nat), state.txns[id]? = some record ->
    record.phase.pendingTs = some commitTs ->
    commitTs = state.commitTs ∧
      (∀ key version, version ∈ versionsOf state.store key -> version.commitTs < commitTs) ∧
      ∀ (other : TxnId) (otherRecord : Record), state.txns[other]? = some otherRecord ->
        otherRecord.txn.readTs < commitTs
  published_stored : ∀ id ∈ state.published, ∃ (record : Record) (commitTs : Nat),
    state.txns[id]? = some record ∧ record.phase = .committed commitTs ∧
      ∀ key value, record.txn.writeSet[key]? = some value ->
        (⟨commitTs, value⟩ : Version) ∈ versionsOf state.store key
  committed_published : ∀ (id : TxnId) (record : Record) (commitTs : Nat), state.txns[id]? = some record ->
    record.phase = .committed commitTs -> record.txn.writeSet.isEmpty = false ->
    id ∈ state.published
  firstCommitter : FirstCommitterWins state

theorem Phase.holdsLock_of_pendingTs {phase : Phase} {commitTs : Nat}
    (pending : phase.pendingTs = some commitTs) : phase.holdsLock = true := by
  cases phase <;> first | rfl | cases pending

theorem inv_opened (store : Store) (maxTs : Nat)
    (bounded : ∀ key version, version ∈ versionsOf store key -> version.commitTs ≤ maxTs) :
    Inv (State.opened store maxTs) where
  records := by intro id record lookup; simp [State.opened] at lookup
  stored_le := bounded
  lockHolder := by intro id record lookup; simp [State.opened] at lookup
  pending := by intro id record commitTs lookup; simp [State.opened] at lookup
  published_stored := by intro id member; simp [State.opened] at member
  committed_published := by intro id record commitTs lookup; simp [State.opened] at lookup
  firstCommitter := by
    intro _ _ _ _ _ _ _ _ lookup
    simp [State.opened] at lookup

namespace Inv

variable {state : State} {id : TxnId} {record new : Record} {lock : Option TxnId}
  {otherRecord : Record}

section

variable (inv : Inv state)

include inv

theorem not_published (lookup : state.txns[id]? = some record)
    (running : ∀ commitTs, record.phase ≠ .committed commitTs) : id ∉ state.published := by
  intro member
  obtain ⟨_, commitTs, stored, phase, _⟩ := inv.published_stored id member
  rw [lookup] at stored
  cases stored
  exact running commitTs phase

theorem not_pending (quiet : state.midCommit = false) (lookup : state.txns[id]? = some record) :
    record.phase.pendingTs = none := by
  cases pending : record.phase.pendingTs with
  | none => rfl
  | some =>
    have held := inv.lockHolder id record lookup (Phase.holdsLock_of_pendingTs pending)
    simp [State.midCommit, held, lookup, pending] at quiet

section

variable (lookup : state.txns[id]? = some record)

include lookup

theorem readAtTs_eq (key : Key) :
    readAtTs state.store key record.txn.readTs = latestPublished record.storeAtBegin key := by
  have local_ := inv.records id record lookup
  obtain ⟨later, split, younger⟩ := local_.extended key
  have skipped : later.reverse.find? (fun version => decide (version.commitTs ≤ record.txn.readTs)) = none := by
    rw [List.find?_eq_none]
    intro version member
    have := younger version (mem_reverse.mp member)
    simpa using this
  unfold readAtTs visibleVersion latestPublished
  rw [split, reverse_append, List.find?_append, skipped, none_or]
  cases last : (versionsOf record.storeAtBegin key).getLast? with
  | none =>
    rw [List.getLast?_eq_none_iff] at last
    simp [last]
  | some version =>
    have head : (versionsOf record.storeAtBegin key).reverse.head? = some version := by
      rw [List.head?_reverse, last]
    have member : version ∈ versionsOf record.storeAtBegin key := mem_of_getLast? last
    obtain ⟨_, shape⟩ := List.head?_eq_some_iff.mp head
    rw [shape, List.find?_cons_of_pos (by simpa using local_.atBegin key version member)]

/-- A successful conflict check means that nobody has published one of the
keys since the transaction began. -/
theorem no_conflict (passed : record.txn.conflicts state.store = false) (key : Key)
    (written : key ∈ record.txn.writeSet) (version : Version)
    (member : version ∈ versionsOf state.store key) : version.commitTs ≤ record.txn.readTs := by
  have local_ := inv.records id record lookup
  obtain ⟨later, split, younger⟩ := local_.extended key
  have checked : (versionsOf state.store key).getLast?.any
      (fun last => decide (record.txn.readTs < last.commitTs)) = false := by
    simpa using any_eq_false.mp passed key (Std.TreeMap.mem_keys.mpr written)
  have nothing : later = [] := by
    by_contra nonempty
    have last : (versionsOf state.store key).getLast? = later.getLast? := by
      rw [split, List.getLast?_append_of_ne_nil _ nonempty]
    have inside := younger _ (getLast_mem nonempty)
    rw [last, List.getLast?_eq_some_getLast nonempty] at checked
    rw [any_some, decide_eq_false_iff_not] at checked
    exact checked inside
  rw [split, nothing, append_nil] at member
  exact local_.atBegin key version member

theorem unique_holder {other : TxnId} (holds : record.phase.holdsLock = true)
    (otherLookup : state.txns[other]? = some otherRecord)
    (otherHolds : otherRecord.phase.holdsLock = true) : other = id := by
  have locked := inv.lockHolder id record lookup holds
  rw [inv.lockHolder other otherRecord otherLookup otherHolds, some_inj] at locked
  exact locked

end

/-- A commit keeps the property if its transaction has seen all that wrote one
of its keys and committed. -/
theorem firstCommitterWins_insert {next : State} (txns : next.txns = state.txns.insert id new)
    (seen : ∀ other record result key, new.phase = .committed result ->
      key ∈ new.txn.writeSet -> state.txns[other]? = some record ->
      ∀ otherTs, record.phase = .committed otherTs -> key ∈ record.txn.writeSet ->
        other ∈ new.publishedAtBegin) : FirstCommitterWins next := by
  intro _ _ _ _ _ _ key different firstFound secondFound firstPhase secondPhase firstWrites
    secondWrites
  rw [txns] at firstFound secondFound
  rcases lookup_insert_cases firstFound with ⟨firstSame, rfl⟩ | ⟨_, firstOld⟩
  · rcases lookup_insert_cases secondFound with ⟨secondSame, _⟩ | ⟨_, secondOld⟩
    · exact absurd (firstSame.trans secondSame.symm) different
    · exact .inr (seen _ _ _ key firstPhase firstWrites secondOld _ secondPhase secondWrites)
  · rcases lookup_insert_cases secondFound with ⟨_, rfl⟩ | ⟨_, secondOld⟩
    · exact .inl (seen _ _ _ key secondPhase secondWrites firstOld _ firstPhase firstWrites)
    · exact inv.firstCommitter _ _ _ _ _ _ key different firstOld secondOld firstPhase secondPhase
        firstWrites secondWrites

section

variable (newLock : new.phase.holdsLock = true -> lock = some id)
  (otherLock : ∀ other, other ≠ id -> state.lock = some other -> lock = some other)
  (newCommitted : ∀ result, new.phase = .committed result -> new.txn.writeSet.isEmpty = true)

include newLock otherLock newCommitted

/-- Write the record of a transaction that is not published.  Store and
publications stay, the counter may grow and the lock may be taken; what the
update says about pending timestamps is left to the caller. -/
theorem update {commitTs : Nat} (unpublished : id ∉ state.published)
    (grows : state.commitTs ≤ commitTs) (newInv : RecordInv { state with commitTs := commitTs } new)
    (pending : ∀ (other : TxnId) (otherRecord : Record) (pendingTs : Nat),
      (state.txns.insert id new)[other]? = some otherRecord ->
      otherRecord.phase.pendingTs = some pendingTs ->
      pendingTs = commitTs ∧
        (∀ key version, version ∈ versionsOf state.store key -> version.commitTs < pendingTs) ∧
        ∀ (reader : TxnId) (readerRecord : Record),
          (state.txns.insert id new)[reader]? = some readerRecord ->
          readerRecord.txn.readTs < pendingTs) :
    Inv { state.setRecord id new with commitTs := commitTs, lock := lock } := by
  -- Only published transactions matter to a record, and this one is not among them.
  have carry : ∀ record, RecordInv { state with commitTs := commitTs } record ->
      RecordInv { state.setRecord id new with commitTs := commitTs, lock := lock } record := by
    intro record recordInv
    refine { recordInv with unseen := ?_ }
    intro other otherRecord result found member phase notSeen
    rcases lookup_insert_cases found with ⟨same, _⟩ | ⟨_, found⟩
    · exact absurd (same ▸ member) unpublished
    · exact recordInv.unseen other otherRecord result found member phase notSeen
  refine ⟨forall_insert (carry new newInv) ?_, ?_, ?_, pending, ?_, ?_, ?_⟩
  · intro other otherRecord found
    have before := inv.records other otherRecord found
    exact carry otherRecord { before with readTs_le := le_trans before.readTs_le grows }
  · intro key version member
    exact le_trans (inv.stored_le key version member) grows
  · intro other otherRecord found holds
    rcases lookup_insert_cases found with ⟨same, equal⟩ | ⟨different, found⟩
    · rw [same]
      exact newLock (equal ▸ holds)
    · exact otherLock other different (inv.lockHolder other otherRecord found holds)
  · intro other member
    obtain ⟨record, result, found, phase, stored⟩ := inv.published_stored other member
    have different : id ≠ other := by
      rintro rfl
      exact unpublished member
    refine ⟨record, result, ?_, phase, stored⟩
    change (state.txns.insert id new)[other]? = some record
    rw [lookup_insert_of_ne _ _ different]
    exact found
  · intro other otherRecord result found phase nonempty
    rcases lookup_insert_cases found with ⟨_, rfl⟩ | ⟨_, found⟩
    · rw [newCommitted result phase] at nonempty
      cases nonempty
    · exact inv.committed_published other otherRecord result found phase nonempty
  · refine inv.firstCommitterWins_insert rfl ?_
    intro _ _ result key phase writes
    exact absurd writes (Std.TreeMap.isEmpty_iff_forall_not_mem.mp (newCommitted result phase) key)

/-- Replace the record of a running transaction by a later one of the same
transaction, which draws no timestamp. -/
theorem replace {old : Record} (lookup : state.txns[id]? = some old)
    (running : ∀ result, old.phase ≠ .committed result)
    (sameReadTs : new.txn.readTs = old.txn.readTs) (newInv : RecordInv state new)
    (newPending : ∀ pendingTs, new.phase.pendingTs = some pendingTs ->
      old.phase.pendingTs = some pendingTs) : Inv { state.setRecord id new with lock := lock } := by
  refine inv.update newLock otherLock newCommitted (inv.not_published lookup running) le_rfl newInv ?_
  intro other otherRecord pendingTs found pending
  have held : ∃ stored : Record, state.txns[other]? = some stored ∧
      stored.phase.pendingTs = some pendingTs := by
    rcases lookup_insert_cases found with ⟨same, equal⟩ | ⟨_, found⟩
    · exact ⟨old, same ▸ lookup, newPending pendingTs (equal ▸ pending)⟩
    · exact ⟨otherRecord, found, pending⟩
  obtain ⟨stored, storedLookup, storedPending⟩ := held
  obtain ⟨equal, above, readers⟩ := inv.pending other stored pendingTs storedLookup storedPending
  refine ⟨equal, above, ?_⟩
  refine forall_insert ?_ readers
  rw [sameReadTs]
  exact readers id old lookup

end

theorem begins (quiet : state.midCommit = false) (fresh : state.txns[id]? = none) (readOnly : Bool) :
    Inv (state.setRecord id (state.beginTx readOnly)) := by
  have unpublished : id ∉ state.published := by
    intro member
    obtain ⟨_, _, found, _⟩ := inv.published_stored id member
    rw [fresh] at found
    cases found
  have newInv : RecordInv state (state.beginTx readOnly) :=
    { readTs_le := le_rfl
      extended := fun key => ⟨[], (append_nil _).symm, by simp⟩
      atBegin := inv.stored_le
      unseen := fun _ _ _ _ member _ notSeen => absurd member notSeen
      reads := by simp [State.beginTx]
      clean := by simp [State.beginTx, Phase.holdsLock]
      readOnly_empty := by simp [State.beginTx] }
  refine inv.update ?_ (fun _ _ locked => locked) ?_ unpublished le_rfl newInv ?_
  · nofun
  · nofun
  intro _ _ _ found pending
  rcases lookup_insert_cases found with ⟨_, rfl⟩ | ⟨_, found⟩
  · cases pending
  · rw [inv.not_pending quiet found] at pending
    cases pending

/-- Drawing a timestamp.  The holder of the lock is the only one to do so. -/
theorem allocates (lookup : state.txns[id]? = some record) (phase : record.phase = .checked) :
    Inv { state.setRecord id { record with phase := .allocated (state.commitTs + 1) } with
      commitTs := state.commitTs + 1 } := by
  have holds : record.phase.holdsLock = true := by rw [phase]; rfl
  have unpublished := inv.not_published lookup (fun result => by rw [phase]; simp)
  have own := inv.records id record lookup
  refine inv.update (fun _ => inv.lockHolder id record lookup holds) (fun _ _ locked => locked) ?_
    unpublished (Nat.le_succ _)
    { own with
      readTs_le := Nat.le_succ_of_le own.readTs_le
      clean := fun _ => own.clean holds } ?_
  · nofun
  intro _ _ _ found pending
  rcases lookup_insert_cases found with ⟨_, rfl⟩ | ⟨different, found⟩
  · cases pending
    refine ⟨rfl, fun key version member => Nat.lt_succ_of_le (inv.stored_le key version member), ?_⟩
    exact forall_insert (Nat.lt_succ_of_le own.readTs_le)
      (fun reader readerRecord readerFound => Nat.lt_succ_of_le (inv.records reader readerRecord readerFound).readTs_le)
  · exact absurd (inv.unique_holder lookup holds found (Phase.holdsLock_of_pendingTs pending))
      different

end

/-! ### Publication -/

section Publication

variable {id : TxnId} {record : Record} {commitTs : Nat}

private theorem commitTs_of_mem_added {written : Option (Option Value)} {version : Version}
    (member : version ∈ (written.map (fun value => (⟨commitTs, value⟩ : Version))).toList) :
    version.commitTs = commitTs := by
  rw [mem_toList, map_eq_some_iff] at member
  obtain ⟨_, _, equal⟩ := member
  rw [← equal]

theorem publish_releases (inv : Inv state) (lookup : state.txns[id]? = some record)
    (holds : record.phase.holdsLock = true) {other : TxnId}
    (found : (state.publish id record commitTs).txns[other]? = some otherRecord) :
    otherRecord.phase.holdsLock = false := by
  rcases lookup_insert_cases found with ⟨_, rfl⟩ | ⟨different, found⟩
  · rfl
  · by_contra otherHolds
    exact different (inv.unique_holder lookup holds found (by simpa using otherHolds))

/-- A transaction that reads below the timestamp of the commit does not notice
the publication. -/
theorem recordInv_publish {old : Record} (oldInv : RecordInv state old)
    (sameTxn : new.txn = old.txn) (sameReads : new.reads = old.reads)
    (sameStore : new.storeAtBegin = old.storeAtBegin)
    (samePublished : new.publishedAtBegin = old.publishedAtBegin)
    (below : old.txn.readTs < commitTs) (idle : new.phase.holdsLock = false) :
    RecordInv (state.publish id record commitTs) new where
  readTs_le := sameTxn ▸ oldInv.readTs_le
  extended := by
    intro key
    obtain ⟨later, split, younger⟩ := oldInv.extended key
    refine ⟨later ++ (record.txn.writeSet[key]?.map
      (fun value => (⟨commitTs, value⟩ : Version))).toList, ?_, ?_⟩
    · change versionsOf (publishWrites state.store commitTs record.txn.writeSet) key = _
      rw [versionsOf_publishWrites, split, sameStore, append_assoc]
    · intro version member
      rw [sameTxn]
      rcases mem_append.mp member with member | member
      · exact younger version member
      · rw [commitTs_of_mem_added member]
        exact below
  atBegin := by
    rw [sameTxn, sameStore]
    exact oldInv.atBegin
  unseen := by
    intro other otherRecord result found member otherPhase notSeen
    rw [sameTxn]
    rcases lookup_insert_cases found with ⟨_, rfl⟩ | ⟨different, found⟩
    · cases otherPhase
      exact below
    · exact oldInv.unseen other otherRecord result found
        (mem_of_ne_of_mem different member) otherPhase (samePublished ▸ notSeen)
  reads := by
    intro seen member
    rw [oldInv.reads seen (sameReads ▸ member)]
    unfold Record.expected
    rw [sameTxn, sameStore]
  clean := by
    intro holding
    rw [idle] at holding
    cases holding
  readOnly_empty := sameTxn ▸ oldInv.readOnly_empty

variable (inv : Inv state) (lookup : state.txns[id]? = some record)

include inv lookup

/-- The conflict check is what makes first-committer-wins true: a published
transaction that shares a key with the holder of the lock was published when
the holder began. -/
theorem seen_of_shared_key (holds : record.phase.holdsLock = true) {other : TxnId} {result : Nat} {key : Key}
    (found : state.txns[other]? = some otherRecord) (phase : otherRecord.phase = .committed result)
    (otherWrites : key ∈ otherRecord.txn.writeSet) (writes : key ∈ record.txn.writeSet) :
    other ∈ record.publishedAtBegin := by
  have own := inv.records id record lookup
  have nonempty : otherRecord.txn.writeSet.isEmpty = false := by
    by_contra empty
    exact Std.TreeMap.isEmpty_iff_forall_not_mem.mp (by simpa using empty) key otherWrites
  have member := inv.committed_published other otherRecord result found phase nonempty
  obtain ⟨_, _, publishedFound, publishedPhase, stored⟩ :=
    inv.published_stored other member
  rw [found] at publishedFound
  cases publishedFound
  rw [phase] at publishedPhase
  cases publishedPhase
  have version := stored key _ (Std.TreeMap.getElem?_eq_some_getElem otherWrites)
  by_contra notSeen
  exact absurd (own.clean holds key writes _ version)
    (not_le.mpr (own.unseen other otherRecord result found member phase notSeen))

/-- Publication.  Every transaction that has begun reads below the timestamp
of the commit, so the new versions stay invisible to all of them. -/
theorem publishes (phase : record.phase = .appended commitTs) :
    Inv (state.publish id record commitTs) := by
  have holds : record.phase.holdsLock = true := by rw [phase]; rfl
  obtain ⟨counter, _, readers⟩ := inv.pending id record commitTs lookup (by rw [phase]; rfl)
  have released : ∀ {other : TxnId} {otherRecord : Record},
      (state.publish id record commitTs).txns[other]? = some otherRecord ->
      otherRecord.phase.holdsLock = false := inv.publish_releases lookup holds
  refine ⟨?_, ?_, ?_, ?_, ?_, ?_, inv.firstCommitterWins_insert rfl
    (fun _ _ _ _ _ writes found _ phase otherWrites =>
      inv.seen_of_shared_key lookup holds found phase otherWrites writes)⟩
  · intro other otherRecord found
    have idle := released found
    rcases lookup_insert_cases found with ⟨_, rfl⟩ | ⟨_, found⟩
    · exact recordInv_publish (inv.records id record lookup) rfl rfl rfl rfl
        (readers id record lookup) idle
    · exact recordInv_publish (inv.records other otherRecord found) rfl rfl rfl rfl
        (readers other otherRecord found) idle
  · intro key version member
    change version ∈ versionsOf (publishWrites state.store commitTs record.txn.writeSet) key at member
    rw [versionsOf_publishWrites] at member
    rcases mem_append.mp member with member | member
    · exact inv.stored_le key version member
    · exact le_of_eq ((commitTs_of_mem_added member).trans counter)
  · intro other otherRecord found otherHolds
    rw [released found] at otherHolds
    cases otherHolds
  · intro other otherRecord _ found pending
    have otherHolds := Phase.holdsLock_of_pendingTs pending
    rw [released found] at otherHolds
    cases otherHolds
  · intro other member
    change ∃ (published : Record) (result : Nat),
      (state.txns.insert id { record with phase := .committed commitTs })[other]? =
        some published ∧ published.phase = .committed result ∧
        ∀ key value, published.txn.writeSet[key]? = some value ->
          (⟨result, value⟩ : Version) ∈
            versionsOf (publishWrites state.store commitTs record.txn.writeSet) key
    by_cases same : other = id
    · refine ⟨_, commitTs, by rw [lookup_insert, if_pos same.symm], rfl, ?_⟩
      intro key value written
      rw [versionsOf_publishWrites, written]
      simp
    · obtain ⟨published, result, found, otherPhase, stored⟩ :=
        inv.published_stored other (mem_of_ne_of_mem same member)
      refine ⟨published, result, ?_, otherPhase, ?_⟩
      · rw [lookup_insert_of_ne _ _ (Ne.symm same)]
        exact found
      · intro key value written
        rw [versionsOf_publishWrites]
        exact mem_append_left _ (stored key value written)
  · intro other otherRecord result found otherPhase nonempty
    rcases lookup_insert_cases found with ⟨same, _⟩ | ⟨_, found⟩
    · rw [same]
      exact mem_cons_self
    · exact mem_cons_of_mem _
        (inv.committed_published other otherRecord result found otherPhase nonempty)

end Publication

end Inv

/-! ## Disciplined runs -/

variable {state : State} {id : TxnId} {record : Record}

theorem activeRecord_eq_some :
    state.activeRecord id = some record <->
      state.txns[id]? = some record ∧ record.phase = .active := by
  unfold State.activeRecord
  cases state.txns[id]? with
  | none => simp
  | some stored =>
    by_cases phase : stored.phase = .active
    · simp only [phase, if_true, some_inj]
      exact ⟨fun same => ⟨same, same ▸ phase⟩, fun both => both.1⟩
    · simp only [phase, if_false, some_inj]
      constructor
      · nofun
      · rintro ⟨same, active⟩
        exact absurd (same ▸ active) phase

theorem Inv.replace_active (inv : Inv state) {old new : Record}
    (lookup : state.txns[id]? = some old) (active : old.phase = .active)
    (sameReadTs : new.txn.readTs = old.txn.readTs) (newInv : RecordInv state new)
    (free : new.phase.holdsLock = false)
    (newCommitted : ∀ result, new.phase = .committed result ->
      new.txn.writeSet.isEmpty = true) : Inv (state.setRecord id new) := by
  refine inv.replace ?_ (fun _ _ locked => locked) newCommitted lookup
    (fun result => by rw [active]; simp) sameReadTs newInv ?_
  · intro holds
    rw [free] at holds
    cases holds
  · intro _ pending
    rw [Phase.holdsLock_of_pendingTs pending] at free
    cases free

theorem parsed_of_ok {Outcome : Type} {timedOut : Bool} {key : Bytes} {rest : Key -> Except TxnError Outcome}
    {outcome : Outcome}
    (result : (do Txn.ensureNotTimedOut timedOut; let key <- parseKey key; rest key) = .ok outcome) :
    ∃ parsedKey, rest parsedKey = .ok outcome := by
  rcases bind_eq_ok.mp result with ⟨_, _, result⟩
  rcases bind_eq_ok.mp result with ⟨parsedKey, _, returned⟩
  exact ⟨parsedKey, returned⟩

theorem Inv.recordInv_observe (inv : Inv state) (lookup : state.txns[id]? = some record)
    (timedOut : Bool) (key : Bytes) :
    RecordInv state (record.observe (record.txn.get state.store timedOut key)) := by
  have own := inv.records id record lookup
  cases result : record.txn.get state.store timedOut key with
  | error => exact own
  | ok seen =>
    have value : seen.2 = record.expected seen.1 := by
      rcases parsed_of_ok result with ⟨_, returned⟩
      cases returned
      unfold Txn.read Record.expected
      rw [inv.readAtTs_eq lookup]
    refine { own with reads := ?_ }
    exact forall_mem_cons.mpr ⟨value, own.reads⟩

/-- What a successful put or delete leaves behind. -/
def Wrote (txn : Txn) (result : Except TxnError (Key × Txn)) : Prop :=
  ∀ key written, result = .ok (key, written) ->
    ∃ value, written = { txn with writeSet := txn.writeSet.insert key value }

theorem wrote_put (txn : Txn) (timedOut : Bool) (key value : Bytes) :
    Wrote txn (txn.put timedOut key value) := by
  intro _ _ result
  rcases parsed_of_ok result with ⟨_, returned⟩
  split at returned
  · cases returned
  · cases returned
    exact ⟨some value, rfl⟩

theorem wrote_delete (txn : Txn) (timedOut : Bool) (key : Bytes) :
    Wrote txn (txn.delete timedOut key) := by
  intro _ _ result
  rcases parsed_of_ok result with ⟨_, returned⟩
  cases returned
  exact ⟨none, rfl⟩

theorem Inv.wrote (inv : Inv state) (lookup : state.txns[id]? = some record)
    (active : record.phase = .active) (writable : record.txn.readOnly = false)
    {result : Except TxnError (Key × Txn)} (shape : Wrote record.txn result) :
    Inv (state.setRecord id (record.wrote result)) := by
  have own := inv.records id record lookup
  cases result with
  | error =>
    refine inv.replace_active lookup active rfl own ?_ ?_
    · simp [Record.wrote, active, Phase.holdsLock]
    · intro _ phase
      simp [Record.wrote, active] at phase
  | ok written =>
    obtain ⟨key, txn⟩ := written
    obtain ⟨_, rfl⟩ := shape key txn rfl
    refine inv.replace_active lookup active rfl ?_ ?_ ?_
    · refine { own with reads := ?_, clean := ?_, readOnly_empty := ?_ }
      · intro seen member
        obtain ⟨member, different⟩ := mem_filter.mp member
        rw [decide_eq_true_eq] at different
        rw [own.reads seen member]
        simp only [Record.expected, Record.wrote]
        rw [lookup_insert_of_ne _ _ (Ne.symm different)]
      · intro holds
        simp [Record.wrote, active, Phase.holdsLock] at holds
      · intro readOnly
        simp [Record.wrote, writable] at readOnly
    · simp [Record.wrote, active, Phase.holdsLock]
    · intro _ phase
      simp [Record.wrote, active] at phase

theorem Inv.commits (inv : Inv state) {phase : Phase} (lookup : state.txns[id]? = some record)
    (active : record.phase = .active) (free : phase.holdsLock = false)
    (newCommitted : ∀ result, phase = .committed result ->
      record.txn.writeSet.isEmpty = true) :
    Inv (state.setRecord id { record with phase := phase }) := by
  refine inv.replace_active lookup active rfl ?_ free newCommitted
  refine { inv.records id record lookup with clean := ?_ }
  intro holds
  rw [free] at holds
  cases holds

theorem inv_step {next : State} {action : Action} (inv : Inv state)
    (admitted : disciplined state action) (taken : step state action = some next) : Inv next := by
  cases action with
  | begin _ readOnly =>
    simp only [step] at taken
    split at taken
    · cases taken
    · next fresh =>
      cases taken
      refine inv.begins admitted ?_ readOnly
      rw [Std.TreeMap.getElem?_eq_none]
      simpa using fresh
  | get _ timedOut key =>
    rcases bind_eq_some_iff.mp taken with ⟨record, found, ⟨⟩⟩
    obtain ⟨lookup, active⟩ := activeRecord_eq_some.mp found
    have unchanged : ∀ result : Except TxnError (Key × Option Value),
        (record.observe result).phase = .active := by
      intro result
      cases result <;> exact active
    refine inv.replace_active lookup active ?_ (inv.recordInv_observe lookup timedOut key) ?_ ?_
    · cases record.txn.get state.store timedOut key <;> rfl
    · rw [unchanged]
      rfl
    · intro result phase
      rw [unchanged] at phase
      cases phase
  | put =>
    rcases bind_eq_some_iff.mp taken with ⟨record, found, ⟨⟩⟩
    obtain ⟨lookup, active⟩ := activeRecord_eq_some.mp found
    exact inv.wrote lookup active (admitted record lookup) (wrote_put _ _ _ _)
  | delete =>
    rcases bind_eq_some_iff.mp taken with ⟨record, found, ⟨⟩⟩
    obtain ⟨lookup, active⟩ := activeRecord_eq_some.mp found
    exact inv.wrote lookup active (admitted record lookup) (wrote_delete _ _ _)
  | scan =>
    rcases bind_eq_some_iff.mp taken with ⟨_, _, ⟨⟩⟩
    exact inv
  | commit id =>
    rcases bind_eq_some_iff.mp taken with ⟨record, found, taken⟩
    obtain ⟨lookup, active⟩ := activeRecord_eq_some.mp found
    split at taken
    · cases taken
      exact inv.commits lookup active rfl nofun
    · split at taken
      · next done =>
        cases taken
        refine inv.commits lookup active rfl (fun _ _ => ?_)
        rcases Bool.or_eq_true_iff.mp done with readOnly | empty
        · exact (inv.records id record lookup).readOnly_empty readOnly
        · exact empty
      · cases taken
        exact inv.commits lookup active rfl nofun
  | lockAndCheck id =>
    rcases bind_eq_some_iff.mp taken with ⟨record, lookup, taken⟩
    split at taken
    · next waiting =>
      obtain ⟨queued, unlocked⟩ := waiting
      have own := inv.records id record lookup
      have running : ∀ result, record.phase ≠ .committed result := by
        intro result
        rw [queued]
        simp
      split at taken
      · cases taken
        exact inv.replace nofun (fun _ _ locked => locked) nofun lookup running rfl
          { own with clean := nofun } nofun
      · next passed =>
        cases taken
        have cleared := inv.no_conflict lookup (by simpa using passed)
        refine inv.replace (fun _ => rfl) ?_ nofun lookup running rfl
          { own with clean := fun _ => cleared } nofun
        intro _ _ locked
        rw [unlocked] at locked
        cases locked
    · cases taken
  | allocate =>
    rcases bind_eq_some_iff.mp taken with ⟨_, lookup, taken⟩
    split at taken
    · next phase =>
      cases taken
      exact inv.allocates lookup phase
    · cases taken
  | append id =>
    rcases bind_eq_some_iff.mp taken with ⟨record, lookup, taken⟩
    split at taken
    · next _ phase =>
      cases taken
      have own := inv.records id record lookup
      have holds : record.phase.holdsLock = true := by rw [phase]; rfl
      refine inv.replace (fun _ => inv.lockHolder id record lookup holds) (fun _ _ locked => locked)
        nofun lookup (fun result => by rw [phase]; simp) rfl
        { own with clean := fun _ => own.clean holds } ?_
      intro _ pending
      rw [phase]
      exact pending
    · cases taken
  | publish =>
    rcases bind_eq_some_iff.mp taken with ⟨_, lookup, taken⟩
    split at taken
    · next _ phase =>
      cases taken
      exact inv.publishes lookup phase
    · cases taken

theorem inv_of_reaches {store : Store} {maxTs : Nat}
    (bounded : ∀ key version, version ∈ versionsOf store key -> version.commitTs ≤ maxTs)
    {final : State} (reached : Reaches step disciplined (State.opened store maxTs) final) :
    Inv final :=
  reached.invariant (inv_opened store maxTs bounded)
    (fun _ _ _ inv admitted taken => inv_step inv admitted taken)

/-- In a run that never starts a transaction inside the commit window of
another one and never writes in a read-only transaction, the manager gives
snapshot isolation. -/
theorem snapshotIsolation_of_disciplined (store : Store) (maxTs : Nat)
    (bounded : ∀ key version, version ∈ versionsOf store key -> version.commitTs ≤ maxTs)
    (final : State) (reached : Reaches step disciplined (State.opened store maxTs) final) :
    SnapshotIsolation final := by
  have inv := inv_of_reaches bounded reached
  exact ⟨fun id record lookup => (inv.records id record lookup).reads, inv.firstCommitter⟩

/-! ## The commit window -/

/-- All the steps of a commit that succeeds. -/
def commitSteps (id : TxnId) : List Action :=
  [.commit id false, .lockAndCheck id, .allocate id, .append id, .publish id]

/-- Transaction 1 writes a key; transaction 2 begins inside its commit window
and gets the key before and after the publication. -/
def readInWindow (key value : Bytes) : List Action :=
  [.begin 1 false, .put 1 false key value, .commit 1 false, .lockAndCheck 1, .allocate 1,
    .begin 2 false, .get 2 false key, .append 1, .publish 1, .get 2 false key]

/-- Transaction 2 overwrites what transaction 1 has written, and transaction 3,
which began between the two commits, gets the first value before and after the
second one is published. -/
theorem snapshotIsolation_of_disciplined_overwrite :
    ∃ final, Reaches step disciplined (State.opened ∅ 0) final ∧ SnapshotIsolation final ∧
      final.txns[3]?.map Record.reads = some [(Key.ofNat 1, some [7]), (Key.ofNat 1, some [7])] ∧
      final.published = [2, 1] := by
  have passed : (runGuarded step disciplined (State.opened ∅ 0)
      ([.begin 1 false, .put 1 false (Key.ofNat 1).bytes [7]] ++ commitSteps 1 ++
        [.begin 2 false, .begin 3 true, .get 3 false (Key.ofNat 1).bytes,
          .put 2 false (Key.ofNat 1).bytes [8]] ++
        commitSteps 2 ++ [.get 3 false (Key.ofNat 1).bytes])).any (fun final =>
          final.txns[3]?.map Record.reads = some [(Key.ofNat 1, some [7]), (Key.ofNat 1, some [7])] ∧
          final.published = [2, 1]) = true := by
    decide +kernel
  obtain ⟨final, reached, observed⟩ := exists_reaches_of_decide passed
  refine ⟨final, reached, ?_, observed⟩
  refine snapshotIsolation_of_disciplined ∅ 0 ?_ final reached
  intro _ _ member
  simp [versionsOf] at member

/-- Without the discipline both halves of snapshot isolation fail: a get is not
repeatable, and two transactions that wrote the same key commit although each
began before the other was published. -/
theorem not_snapshotIsolation :
    ¬ (∀ final, Reaches step anyStep (State.opened ∅ 0) final -> RepeatableReads final) ∧
    ¬ (∀ final, Reaches step anyStep (State.opened ∅ 0) final -> FirstCommitterWins final) := by
  constructor
  · intro repeatable
    have passed : (runGuarded step anyStep (State.opened ∅ 0)
        (readInWindow (Key.ofNat 1).bytes [7])).any (fun final =>
          final.txns[2]?.any (fun record =>
            record.reads.any (fun read => read.2 ≠ record.expected read.1))) = true := by
      decide +kernel
    obtain ⟨final, reached, observed⟩ := exists_reaches_of_runGuarded passed
    obtain ⟨record, lookup, differs⟩ := (any_eq_true _ _).mp observed
    obtain ⟨read, member, different⟩ := any_eq_true.mp differs
    exact of_decide_eq_true different (repeatable final reached 2 record lookup read member)
  · intro firstCommitter
    have passed : (runGuarded step anyStep (State.opened ∅ 0)
        (readInWindow (Key.ofNat 1).bytes [7] ++ [.put 2 false (Key.ofNat 1).bytes [8]] ++
          commitSteps 2)).any (fun final =>
          final.txns[1]?.any (fun record => record.phase = .committed 1 ∧
            Key.ofNat 1 ∈ record.txn.writeSet ∧ 2 ∉ record.publishedAtBegin) &&
          final.txns[2]?.any (fun record => record.phase = .committed 2 ∧
            Key.ofNat 1 ∈ record.txn.writeSet ∧ 1 ∉ record.publishedAtBegin)) = true := by
      decide +kernel
    obtain ⟨final, reached, observed⟩ := exists_reaches_of_runGuarded passed
    obtain ⟨one, two⟩ := Bool.and_eq_true_iff.mp observed
    obtain ⟨firstRecord, firstLookup, first⟩ := (any_eq_true _ _).mp one
    obtain ⟨secondRecord, secondLookup, second⟩ := (any_eq_true _ _).mp two
    obtain ⟨firstPhase, firstWrites, firstUnseen⟩ := of_decide_eq_true first
    obtain ⟨secondPhase, secondWrites, secondUnseen⟩ := of_decide_eq_true second
    rcases firstCommitter final reached 1 2 firstRecord secondRecord 1 2 (Key.ofNat 1) (by decide)
      firstLookup secondLookup firstPhase secondPhase firstWrites secondWrites with seen | seen
    · exact secondUnseen seen
    · exact firstUnseen seen

end TxnKv
end ScaleKv
