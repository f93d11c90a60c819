import ScaleKv.TxnKv.LocalStorage

namespace ScaleKv
namespace TxnKv

open Foundation LittleEndian List OrderedMap Codec

/-!
# Recovery from snapshot and log

A snapshot keeps the last value of every key and forgets the deleted ones; all
its versions carry the timestamp of the snapshot.  The log may still hold records
that the snapshot covers, since the truncation comes after the rename, but the
replay passes over them.  So the last value of every key comes back, from the
records above the snapshot or else from the snapshot.

The length of a payload is cut to four bytes where it is written.  A longer
payload is not read back, and the records behind it are lost with it.
-/

namespace LocalManager

/-! ## What is claimed -/

/-- The store with the record of a commit that has only to publish it. -/
def effective (manager : LocalManager) : Store :=
  match manager.stage with
  | .appended record => pushVersions manager.store record.commitTs record.ops
  | _ => manager.store

/-- A later open succeeds.  A fresh transaction reads for every key what it would
have read before, the counter is not lower, and no recovered version lies above
it, so that a transaction which begins then conflicts with none of them. -/
structure ComesBack (manager : LocalManager) (opened : State) : Prop where
  opens : openQuorum 1 manager.files = .ok opened
  reads : ∀ key, readAtTs opened.store key opened.commitTs =
    readAtTs manager.effective key manager.commitTs
  counter : manager.commitTs ≤ opened.commitTs
  bounded : ∀ key version, version ∈ versionsOf opened.store key -> version.commitTs ≤ opened.commitTs
  free : ∀ txn, Txn.readTs txn = opened.commitTs -> txn.conflicts opened.store = false

/-- A run of commits and checkpoints in which no append fails and no payload is
refused. -/
def succeeds (manager : LocalManager) : Action -> Prop
  | .commit txn => manager.refusesPayload txn = false
  | .commitFails _ _ => False
  | .repair _ => False
  | _ => True

instance succeedsDecidable (manager : LocalManager) (action : Action) :
    Decidable (succeeds manager action) := by
  unfold succeeds
  induction action using Action.casesOn <;> infer_instance

/-- Such a run in which the record of every commit fits its words. -/
def recordsFit (manager : LocalManager) (action : Action) : Prop :=
  succeeds manager action ∧
    match action with
    | .commit txn => manager.reachesAppend txn = true -> manager.recordFits txn
    | _ => True

instance recordsFitDecidable (manager : LocalManager) (action : Action) :
    Decidable (recordsFit manager action) := by
  unfold recordsFit
  induction action using Action.casesOn <;> infer_instance

/-! ## The files mirror the store -/

/-- What the files have to do with the store; `base` is what the snapshot holds. -/
structure Mirrors (manager : LocalManager) (base : Option (Store × Nat)) : Prop where
  loaded : loadSnapshotFile manager.snapshot = .ok base
  clean : Clean manager.wal
  counter : manager.commitTs < 2 ^ 64
  baseTs : (base.getD (∅, 0)).2 ≤ manager.commitTs
  baseVersions : ∀ key version, version ∈ versionsOf (base.getD (∅, 0)).1 key ->
    version.commitTs ≤ (base.getD (∅, 0)).2
  split : ∀ key, ∃ older,
    versionsOf manager.effective key =
      older ++ (above (base.getD (∅, 0)).2 (readWal manager.wal).1).flatMap (versionsIn key) ∧
    latestOf older = latestOf (versionsOf (base.getD (∅, 0)).1 key)
  bounded : ∀ key version, version ∈ versionsOf manager.effective key ->
    version.commitTs ≤ manager.commitTs
  records : ∀ record ∈ (readWal manager.wal).1, record.commitTs ≤ manager.commitTs
  newest : manager.commitTs = (base.getD (∅, 0)).2 ∨
    ∃ record ∈ (readWal manager.wal).1, record.commitTs = manager.commitTs
  snapshotted : manager.stage = .snapshotted -> (base.getD (∅, 0)).2 = manager.commitTs

variable {manager : LocalManager} {base : Option (Store × Nat)} {count : Nat}
  {op : Key × Option Value}

theorem effective_of_idle (idle : manager.stage = .idle) : manager.effective = manager.store := by
  unfold effective
  rw [idle]

theorem effective_of_snapshotted (snapshotted : manager.stage = .snapshotted) :
    manager.effective = manager.store := by
  unfold effective
  rw [snapshotted]

theorem mirrors_fresh : Mirrors fresh none := by
  have noVersion : ∀ key, versionsOf fresh.effective key = [] := versionsOf_empty
  refine ⟨rfl, clean_nil, by decide, le_rfl, ?_, ?_, ?_, ?_, .inl rfl, nofun⟩
  · intro key _ member
    rw [show (Option.getD none (∅, 0) : Store × Nat).1 = ∅ from rfl, versionsOf_empty] at member
    cases member
  · intro key
    refine ⟨[], noVersion key, ?_⟩
    rw [show (Option.getD none (∅, 0) : Store × Nat).1 = ∅ from rfl, versionsOf_empty]
  · intro key _ member
    rw [noVersion] at member
    cases member
  · nofun

section

variable (inv : Mirrors manager base)

include inv

theorem Mirrors.appends {txn : Txn} (appends : Appends manager txn) (fits : manager.recordFits txn) :
    Mirrors { manager with
      commitTs := manager.commitTs + 1
      wal := manager.wal ++ frame (manager.recordOf txn)
      stage := .appended (manager.recordOf txn) } base := by
  rcases inv.clean.readWal_frame (appends.fits fits.2) fits.1 with ⟨logged, clean⟩
  have before := effective_of_idle appends.idle
  have versions : ∀ key, versionsOf (pushVersions manager.store (manager.recordOf txn).commitTs
      (manager.recordOf txn).ops) key =
      versionsOf manager.effective key ++ versionsIn key (manager.recordOf txn) := by
    intro key
    rw [before]
    exact versionsOf_push manager.store (manager.recordOf txn) key
  have newer : (base.getD (∅, 0)).2 < (manager.recordOf txn).commitTs := Nat.lt_succ_of_le inv.baseTs
  refine ⟨inv.loaded, clean, fits.2, Nat.le_succ_of_le inv.baseTs, inv.baseVersions, ?_, ?_, ?_, ?_,
    nofun⟩
  · intro key
    rcases inv.split key with ⟨older, isSplit, sameLatest⟩
    refine ⟨older, ?_, sameLatest⟩
    dsimp only [effective]
    rw [versions, isSplit, logged]
    unfold above
    rw [filter_append, filter_cons_of_pos (by simpa using newer), filter_nil,
      flatMap_append, flatMap_cons, flatMap_nil, append_nil, append_assoc]
  · intro key version member
    dsimp only [effective] at member ⊢
    rw [versions] at member
    rcases mem_append.mp member with old | isNew
    · exact Nat.le_succ_of_le (inv.bounded key version old)
    · exact le_of_eq (versionsIn_commitTs isNew)
  · intro record member
    rw [logged] at member
    rcases mem_append.mp member with old | isNew
    · exact Nat.le_succ_of_le (inv.records record old)
    · exact le_of_eq (congrArg WalRecord.commitTs (mem_singleton.mp isNew))
  · right
    refine ⟨manager.recordOf txn, ?_, rfl⟩
    rw [logged]
    exact mem_append_right _ (mem_singleton_self _)

theorem Mirrors.publishes {record : WalRecord} (stage : manager.stage = .appended record) :
    Mirrors (manager.published record) base := by
  have same : (manager.published record).effective = manager.effective := by
    unfold effective
    rw [stage]
    rfl
  refine { inv with split := ?_, bounded := ?_, snapshotted := nofun }
  · rw [same]
    exact inv.split
  · rw [same]
    exact inv.bounded

theorem Mirrors.snapshots {bytes : Bytes} (idle : manager.stage = .idle)
    (encoded : encodeSnapshot manager.commitTs manager.store = .ok bytes) :
    Mirrors { manager with snapshot := some bytes, stage := .snapshotted }
      (some (snapshotStore manager.commitTs (snapshotEntries manager.store), manager.commitTs)) := by
  have before := effective_of_idle idle
  have nothing : above manager.commitTs (readWal manager.wal).1 = [] := above_eq_nil inv.records
  refine ⟨loadSnapshotFile_encodeSnapshot encoded inv.counter, inv.clean, inv.counter, le_rfl, ?_, ?_, ?_,
    inv.records, .inl rfl, fun _ => rfl⟩
  · intro key _ member
    dsimp only [Option.getD_some] at member ⊢
    rw [versionsOf_snapshotStore] at member
    rcases Option.map_eq_some_iff.mp (Option.mem_toList.mp member) with ⟨_, _, rfl⟩
    exact le_rfl
  · intro key
    refine ⟨versionsOf manager.store key, ?_, (latestOf_snapshotStore _ _ _).symm⟩
    dsimp only [effective, Option.getD_some]
    rw [nothing]
    simp
  · dsimp only [effective]
    rw [← before]
    exact inv.bounded

theorem Mirrors.truncates (snapshotted : manager.stage = .snapshotted) :
    Mirrors { manager with wal := [], stage := .idle } base := by
  have before := effective_of_snapshotted snapshotted
  have level := inv.snapshotted snapshotted
  have nothing : above (base.getD (∅, 0)).2 (readWal manager.wal).1 = [] := by
    rw [level]
    exact above_eq_nil inv.records
  refine ⟨inv.loaded, clean_nil, inv.counter, inv.baseTs, inv.baseVersions, ?_, ?_, ?_, .inl level.symm,
    nofun⟩
  · intro key
    rcases inv.split key with ⟨older, isSplit, sameLatest⟩
    refine ⟨older, ?_, sameLatest⟩
    rw [before, nothing] at isSplit
    exact isSplit
  · dsimp only [effective]
    rw [← before]
    exact inv.bounded
  · nofun

theorem Mirrors.step {next : LocalManager} {action : Action} (admitted : recordsFit manager action)
    (taken : manager.step action = some next) : ∃ after, Mirrors next after := by
  cases moves_of_step taken with
  | passes _ refused =>
    rcases refused with rfl | ⟨_, refused, rfl | ⟨_, rfl⟩⟩
    · exact ⟨base, inv⟩
    · cases refused.symm.trans admitted.1
    · exact admitted.1.elim
  | appends appends => exact ⟨base, inv.appends appends (admitted.2 appends.reaches)⟩
  | tears => exact admitted.1.elim
  | publishes stage => exact ⟨base, inv.publishes stage⟩
  | snapshots idle encoded => exact ⟨_, inv.snapshots idle encoded⟩
  | truncates snapshotted => exact ⟨base, inv.truncates snapshotted⟩
  | repairs => exact admitted.1.elim

theorem Mirrors.comesBack :
    ComesBack manager (openedWith base (readWal manager.wal).1) := by
  rcases replay_counter (readWal manager.wal).1 (base.getD (∅, 0)).1 (base.getD (∅, 0)).2 with
    ⟨aboveBase, aboveRecords, _⟩
  have counter : manager.commitTs ≤ (openedWith base (readWal manager.wal).1).commitTs := by
    rcases inv.newest with level | ⟨record, member, isNewest⟩
    · rw [level]
      exact aboveBase
    · rw [← isNewest]
      exact aboveRecords record member
  have versions : ∀ key, versionsOf (openedWith base (readWal manager.wal).1).store key =
      versionsOf (base.getD (∅, 0)).1 key ++
        (above (base.getD (∅, 0)).2 (readWal manager.wal).1).flatMap (versionsIn key) :=
    fun key => versionsOf_replay _ _ _ key
  have bounded : ∀ key version, version ∈ versionsOf (openedWith base (readWal manager.wal).1).store key ->
      version.commitTs ≤ (openedWith base (readWal manager.wal).1).commitTs := by
    intro key version member
    rw [versions] at member
    rcases mem_append.mp member with old | isNew
    · exact (inv.baseVersions key version old).trans aboveBase
    · rcases mem_flatMap.mp isNew with ⟨record, inside, isVersion⟩
      rw [versionsIn_commitTs isVersion]
      exact aboveRecords record (mem_of_mem_filter inside)
  refine ⟨openQuorum_single ⟨rfl, inv.loaded, rfl⟩, ?_, counter, bounded, ?_⟩
  · intro key
    rcases inv.split key with ⟨_, isSplit, sameLatest⟩
    rw [readAtTs_eq_latestOf (bounded key), readAtTs_eq_latestOf (inv.bounded key), versions, isSplit,
      latestOf_append, latestOf_append, sameLatest]
  · intro _ readTs
    unfold Txn.conflicts
    rw [any_eq_false]
    intro key _
    rw [Bool.not_eq_true, Option.any_eq_false]
    intro last isLast
    have below := bounded key last (mem_of_getLast? isLast)
    rw [← readTs] at below
    simpa using below

end

/-- After every run of commits and checkpoints in which the records fit their
words, and at every point between two file operations, a later open brings back
the last value of every key. -/
theorem comesBack_of_recordsFit {manager : LocalManager} (reached : Reaches step recordsFit fresh manager) :
    ∃ opened, ComesBack manager opened := by
  have inv : ∃ base, Mirrors manager base := by
    refine @Reaches.invariant _ _ _ _ _ _ (fun state => ∃ base, Mirrors state base)
      ⟨none, mirrors_fresh⟩ ?_ reached
    intro _ _ _ mirrored admitted taken
    rcases mirrored with ⟨_, inv⟩
    exact inv.step admitted taken
  rcases inv with ⟨_, inv⟩
  exact ⟨_, inv.comesBack⟩

/-- Two keys are written, the first one is deleted, and a checkpoint has renamed
its snapshot. -/
def betweenRenameAndTruncation : List Action :=
  [.commit (Txn.writing 0 (Key.ofNat 1) [1]), .publish, .commit (Txn.writing 1 (Key.ofNat 2) [2]), .publish,
    .commit { readTs := 2, readOnly := false, writeSet := (∅ : WriteSet).insert (Key.ofNat 1) none }, .publish,
    .writeSnapshot]

theorem comesBack_between_rename_and_truncation :
    ∃ manager, Reaches step recordsFit fresh manager ∧
      (manager.snapshot.isSome = true ∧ (readWal manager.wal).1.length = 3) ∧
      ∃ opened, ComesBack manager opened := by
  refine exists_reaches_with betweenRenameAndTruncation
    (fun _ reached => comesBack_of_recordsFit reached) ?_
  decide +kernel

/-! ## A payload of more than four gigabytes -/

def wideValue : Value := List.replicate valueSize 0

def wideKey (number : Nat) : Key := ⟨encode keySize number, length_encode _ _⟩

/-- The given number of puts, each with a value of the largest size. -/
def wideWrites : Nat -> WriteSet
  | 0 => ∅
  | count + 1 => (wideWrites count).insert (wideKey count) (some wideValue)

theorem wideKey_injective {left right : Nat} (leftFits : left < 256 ^ keySize) (rightFits : right < 256 ^ keySize)
    (same : wideKey left = wideKey right) : left = right := by
  have sameBytes := congrArg (fun key => decode (Key.bytes key)) same
  dsimp only [wideKey] at sameBytes
  rwa [decode_encode leftFits, decode_encode rightFits] at sameBytes

theorem wideWrites_lookup {key : Key} {write : Option Value}
    (found : (wideWrites count)[key]? = some write) :
    write = some wideValue ∧ ∃ number, number < count ∧ key = wideKey number := by
  induction count with
  | zero =>
    rw [wideWrites, Std.TreeMap.getElem?_emptyc] at found
    cases found
  | succ count ih =>
    rcases lookup_insert_cases found with ⟨rfl, rfl⟩ | ⟨_, before⟩
    · exact ⟨rfl, count, Nat.lt_succ_self count, rfl⟩
    · rcases ih before with ⟨isWide, number, below, isKey⟩
      exact ⟨isWide, number, Nat.lt_succ_of_lt below, isKey⟩

theorem wideWrites_first (count : Nat) : (wideWrites (count + 1))[wideKey 0]? = some (some wideValue) := by
  induction count with
  | zero =>
    rw [wideWrites, lookup_insert, if_pos rfl]
  | succ _ ih =>
    rw [wideWrites, lookup_insert, ih, ite_self]

theorem size_wideWrites (fits : count ≤ 256 ^ keySize) : (wideWrites count).size = count := by
  induction count with
  | zero => exact Std.TreeMap.size_emptyc
  | succ count ih =>
    have absent : ¬(wideWrites count).contains (wideKey count) = true := by
      intro member
      rw [Std.TreeMap.contains_eq_isSome_getElem?] at member
      rcases Option.isSome_iff_exists.mp member with ⟨_, found⟩
      rcases wideWrites_lookup found with ⟨_, _, below, same⟩
      have equal := wideKey_injective fits (lt_trans below fits) same
      omega
    rw [wideWrites, Std.TreeMap.size_insert, if_neg absent, ih (Nat.le_of_succ_le fits)]

theorem mem_wideWrites (member : op ∈ (wideWrites count).toList) : op.2 = some wideValue :=
  (wideWrites_lookup (Std.TreeMap.mem_toList_iff_getElem?_eq_some.mp
    (show (op.1, op.2) ∈ (wideWrites count).toList from member))).1

theorem length_encodeOp_wide (isWide : op.2 = some wideValue) : (encodeOp op).length = 1045 := by
  unfold encodeOp
  rw [isWide]
  rw [length_append, length_append, length_append, length_encode, op.1.length_eq,
    wideValue, length_replicate]
  rfl

theorem length_payloadOf_wide (commitTs : Nat) (fits : count ≤ 256 ^ keySize) :
    (payloadOf ⟨commitTs, (wideWrites count).toList⟩).length = 12 + 1045 * count := by
  have ops : ((wideWrites count).toList.map (fun op => (encodeOp op).length)) =
      List.replicate count 1045 := by
    rw [eq_replicate_iff]
    refine ⟨by rw [length_map, Std.TreeMap.length_toList, size_wideWrites fits], ?_⟩
    intro length member
    rcases mem_map.mp member with ⟨_, inside, rfl⟩
    exact length_encodeOp_wide (mem_wideWrites inside)
  unfold payloadOf
  rw [length_append, length_append, length_encode, length_encode,
    length_flatMap, ops, sum_replicate_nat]
  omega

theorem encodePayload_wide (fits : count < 2 ^ 32) : encodePayload (wideWrites count) = .ok () := by
  have inRange : count ≤ 256 ^ keySize := fits.le.trans (by decide)
  have noneLong : (wideWrites count).toList.find?
      (fun write => write.2.any (fun value => valueSize < value.length)) = none := by
    rw [List.find?_eq_none]
    intro _ member
    rw [mem_wideWrites member, Option.any_some, wideValue, length_replicate]
    simp
  unfold encodePayload
  rw [if_neg (by rw [size_wideWrites inRange]; omega), noneLong]

def wideTxn (count : Nat) : Txn := { readTs := 0, readOnly := false, writeSet := wideWrites count }

/-- The first commit has these writes and has appended its record. -/
def wideAppended (count : Nat) : LocalManager :=
  { fresh with
    commitTs := 1
    wal := [] ++ frame (fresh.recordOf (wideTxn count))
    stage := .appended (fresh.recordOf (wideTxn count)) }

/-- It has returned. -/
def wideCommitted (count : Nat) : LocalManager :=
  { wideAppended count with
    store := publishWrites ∅ 1 (wideWrites count)
    stage := .idle
    returned := [fresh.recordOf (wideTxn count)] }

theorem commit_wide (fits : count < 2 ^ 32) (writes : 0 < count) :
    Appends fresh (wideTxn count) ∧ fresh.commit (wideTxn count) = some (wideAppended count) := by
  have inRange : count ≤ 256 ^ keySize := fits.le.trans (by decide)
  have encoded : encodePayload (wideTxn count).writeSet = .ok () := encodePayload_wide fits
  have nonempty : (wideTxn count).writeSet.isEmpty = false := by
    rw [Std.TreeMap.isEmpty_eq_size_eq_zero, show (wideTxn count).writeSet = wideWrites count from rfl,
      size_wideWrites inRange, beq_eq_false_iff_ne]
    exact ne_of_gt writes
  have free : (wideTxn count).conflicts fresh.store = false := by
    unfold Txn.conflicts
    rw [any_eq_false]
    intro key _
    rw [show versionsOf fresh.store key = [] from versionsOf_empty key]
    simp
  constructor
  · refine ⟨rfl, ?_, encoded⟩
    unfold reachesAppend
    rw [nonempty, free, encoded]
    rfl
  · unfold commit commitWith
    rw [nonempty, free, encoded]
    rfl

theorem reaches_wideCommitted (fits : count < 2 ^ 32) (writes : 0 < count) :
    Reaches step succeeds fresh (wideCommitted count) := by
  rcases commit_wide fits writes with ⟨appends, committed⟩
  have admitted : succeeds fresh (.commit (wideTxn count)) := by
    change fresh.refusesPayload (wideTxn count) = false
    unfold refusesPayload
    rw [appends.encoded]
    exact Bool.and_false _
  have appended : Reaches step succeeds fresh (wideAppended count) := .single admitted committed
  have admittedToo : succeeds (wideAppended count) .publish := trivial
  exact .tail appended admittedToo rfl

theorem opens_wideCommitted (fits : count < 2 ^ 32) (long : 2 ^ 32 ≤ 12 + 1045 * count) :
    openQuorum 1 (wideCommitted count).files = .ok (openedWith none []) := by
  have inRange : count ≤ 256 ^ keySize := fits.le.trans (by decide)
  rcases commit_wide fits (by omega) with ⟨appends, _⟩
  have unread : readWal (wideCommitted count).wal = ([], 0) := by
    refine readWal_of_none ?_
    rw [show (wideCommitted count).wal = [] ++ frame (fresh.recordOf (wideTxn count)) from rfl,
      nil_append, ← append_nil (frame _)]
    have isLong : 2 ^ 32 ≤ (payloadOf (fresh.recordOf (wideTxn count))).length :=
      long.trans_eq (length_payloadOf_wide 1 inRange).symm
    exact readRecord_long (appends.fits (by decide)) isLong []
  refine openQuorum_single ⟨rfl, rfl, ?_⟩
  dsimp only [filesOf]
  rw [unread]

/-- A commit with four gigabytes of writes returns `Ok`, and a later open reads
nothing of it. -/
theorem long_payload_loses_commit :
    ∃ manager, Reaches step succeeds fresh manager ∧ manager.returned.length = 1 ∧
      ¬∃ opened, ComesBack manager opened := by
  have fits : 4110016 + 1 < 2 ^ 32 := by decide
  have long : 2 ^ 32 ≤ 12 + 1045 * (4110016 + 1) := by decide
  generalize 4110016 = more at fits long
  refine ⟨wideCommitted (more + 1), reaches_wideCommitted fits (Nat.succ_pos more), rfl, ?_⟩
  rintro ⟨opened, back⟩
  have isOpened : openedWith none [] = opened :=
    Except.ok.inj ((opens_wideCommitted fits long).symm.trans back.opens)
  have reads := back.reads (wideKey 0)
  have nothing : readAtTs opened.store (wideKey 0) opened.commitTs = none := by
    rw [← isOpened, readAtTs, show versionsOf (openedWith none []).store (wideKey 0) = [] from versionsOf_empty _]
    rfl
  have something : readAtTs (wideCommitted (more + 1)).effective (wideKey 0) 1 = some wideValue := by
    rw [effective_of_idle rfl, readAtTs,
      show (wideCommitted (more + 1)).store = publishWrites ∅ 1 (wideWrites (more + 1)) from rfl,
      versionsOf_publishWrites, versionsOf_empty, wideWrites_first]
    rfl
  rw [nothing, show (wideCommitted (more + 1)).commitTs = 1 from rfl, something] at reads
  cases reads

end LocalManager

end TxnKv
end ScaleKv
