import ScaleKv.TxnKv.Codec

namespace ScaleKv
namespace TxnKv

open Foundation List Option Std Codec

/-!
# What a replay leaves in the store

Replaying a log pushes, for every record above the base, one version per
operation.  Nothing here asks for an order of the records; where they are in
order is the business of those who write the log.  A snapshot in front of it keeps
the last value of every key that is not deleted.
-/

/-- The versions of the key that a record pushes. -/
def versionsIn (key : Key) (record : WalRecord) : List Version :=
  record.ops.filterMap (fun op => if op.1 = key then some ⟨record.commitTs, op.2⟩ else none)

/-- The last value of a key, none if it has none or is deleted. -/
def latestOf (versions : List Version) : Option Value := versions.getLast?.bind Version.value

theorem versionsOf_empty (key : Key) : versionsOf ∅ key = [] := by
  exact TreeMap.getD_emptyc

theorem versionsOf_push (store : Store) (record : WalRecord) (key : Key) :
    versionsOf (pushVersions store record.commitTs record.ops) key =
      versionsOf store key ++ versionsIn key record := by
  rcases record with ⟨_, ops⟩
  unfold pushVersions versionsIn
  induction ops generalizing store with
  | nil => simp
  | cons head tail ih =>
    rw [foldl_cons, ih, versionsOf_insert, filterMap_cons]
    by_cases same : head.1 = key
    · rw [if_pos same, if_pos same, same]
      simp
    · rw [if_neg same, if_neg same]

variable {key : Key} {record : WalRecord} {version : Version} {store : Store}

theorem versionsIn_commitTs (member : version ∈ versionsIn key record) :
    version.commitTs = record.commitTs := by
  rcases mem_filterMap.mp member with ⟨_, _, isVersion⟩
  split at isVersion
  · cases isVersion
    rfl
  · cases isVersion

theorem key_mem_of_versionsIn (member : version ∈ versionsIn key record) :
    ∃ op ∈ record.ops, op.1 = key := by
  rcases mem_filterMap.mp member with ⟨op, inside, isVersion⟩
  split at isVersion
  · next isKey => exact ⟨op, inside, isKey⟩
  · cases isVersion

/-- The records of a log that its base does not cover. -/
def above (baseTs : Nat) (wal : List WalRecord) : List WalRecord :=
  wal.filter (fun record => baseTs < record.commitTs)

theorem above_eq_nil {baseTs : Nat} {wal : List WalRecord}
    (covered : ∀ record ∈ wal, record.commitTs ≤ baseTs) : above baseTs wal = [] := by
  unfold above
  rw [filter_eq_nil_iff]
  intro record member
  simpa using covered record member

theorem replay_eq (wal : List WalRecord) (store : Store) (baseTs maxTs : Nat) :
    wal.foldl (replayRecord baseTs) (store, maxTs) =
      ((above baseTs wal).foldl (fun store record => pushVersions store record.commitTs record.ops) store,
        (above baseTs wal).foldl (fun maxTs record => max maxTs record.commitTs) maxTs) := by
  induction wal generalizing store maxTs with
  | nil => rfl
  | cons record _ ih =>
    rw [foldl_cons, replayRecord, above]
    by_cases newer : baseTs < record.commitTs
    · rw [if_pos newer, filter_cons_of_pos (by simpa using newer), ih, ← max_def_lt]
      rfl
    · rw [if_neg newer, filter_cons_of_neg (by simpa using newer), ih]
      rfl

theorem versionsOf_replay (wal : List WalRecord) (store : Store) (baseTs : Nat) (key : Key) :
    versionsOf (replayWalWithBase wal store baseTs).1 key =
      versionsOf store key ++ (above baseTs wal).flatMap (versionsIn key) := by
  rw [replayWalWithBase, replay_eq]
  generalize above baseTs wal = records
  induction records generalizing store with
  | nil => simp
  | cons _ _ ih =>
    rw [flatMap_cons, ← append_assoc, ← versionsOf_push]
    exact ih _

theorem replay_counter (wal : List WalRecord) (store : Store) (baseTs : Nat) :
    baseTs ≤ (replayWalWithBase wal store baseTs).2 ∧
    (∀ record ∈ wal, record.commitTs ≤ (replayWalWithBase wal store baseTs).2) ∧
    ((replayWalWithBase wal store baseTs).2 = baseTs ∨
      ∃ record ∈ wal, (replayWalWithBase wal store baseTs).2 = record.commitTs) := by
  have largest : ∀ (records : List WalRecord) (start : Nat),
      start ≤ records.foldl (fun maxTs record => max maxTs record.commitTs) start ∧
      (∀ record ∈ records,
        record.commitTs ≤ records.foldl (fun maxTs record => max maxTs record.commitTs) start) ∧
      (records.foldl (fun maxTs record => max maxTs record.commitTs) start = start ∨
        ∃ record ∈ records,
          records.foldl (fun maxTs record => max maxTs record.commitTs) start = record.commitTs) := by
    intro records
    induction records with
    | nil => exact fun start => ⟨le_rfl, nofun, .inl rfl⟩
    | cons record _ ih =>
      intro start
      rcases ih (max start record.commitTs) with ⟨grows, covers, shape⟩
      refine ⟨(le_max_left ..).trans grows,
        forall_mem_cons.mpr ⟨(le_max_right ..).trans grows, covers⟩, ?_⟩
      rcases shape with same | ⟨other, inside, isTs⟩
      · exact (max_choice start record.commitTs).imp same.trans
          (fun isTs => ⟨record, mem_cons_self, same.trans isTs⟩)
      · exact .inr ⟨other, mem_cons_of_mem _ inside, isTs⟩
  rw [replayWalWithBase, replay_eq]
  rcases largest (above baseTs wal) baseTs with ⟨grows, covers, shape⟩
  refine ⟨grows, fun record member => ?_, shape.imp_right ?_⟩
  · by_cases newer : baseTs < record.commitTs
    · exact covers record (mem_filter.mpr ⟨member, by simpa using newer⟩)
    · exact (Nat.le_of_not_lt newer).trans grows
  · rintro ⟨record, inside, isTs⟩
    exact ⟨record, (mem_filter.mp inside).1, isTs⟩

theorem readAtTs_eq_latestOf {readTs : Nat}
    (bounded : ∀ version ∈ versionsOf store key, version.commitTs ≤ readTs) :
    readAtTs store key readTs = latestOf (versionsOf store key) := by
  unfold readAtTs visibleVersion latestOf
  rw [← List.head?_reverse]
  cases shape : (versionsOf store key).reverse with
  | nil => rfl
  | cons head tail =>
    have member : head ∈ versionsOf store key := by
      rw [← mem_reverse, shape]
      exact mem_cons_self
    rw [List.find?_cons_of_pos (by simpa using bounded head member)]
    rfl

theorem latestOf_append (older newer : List Version) :
    latestOf (older ++ newer) = if newer = [] then latestOf older else latestOf newer := by
  unfold latestOf
  cases newer with
  | nil => simp
  | cons head tail =>
    rw [if_neg (cons_ne_nil _ _), List.getLast?_append_of_ne_nil _ (cons_ne_nil _ _)]

/-! ## Opening one replica -/

/-- What the open of a readable replica gives. -/
def openedWith (snapshot : Option (Store × Nat)) (wal : List WalRecord) : State :=
  let base := snapshot.getD (∅, 0)
  let recovered := replayWalWithBase wal base.1 base.2
  State.opened recovered.1 recovered.2

/-! ## What a snapshot keeps -/

theorem snapshotEntries_distinct (store : Store) :
    (snapshotEntries store).Pairwise (fun left right => left.1 ≠ right.1) := by
  unfold snapshotEntries
  rw [pairwise_filterMap]
  refine (OrderedMap.toList_distinct store).imp ?_
  intro left right different _ isLeft _ isRight
  rcases map_eq_some_iff.mp isLeft with ⟨_, _, rfl⟩
  rcases map_eq_some_iff.mp isRight with ⟨_, _, rfl⟩
  exact different

theorem mem_snapshotEntries {value : Value} :
    (key, value) ∈ snapshotEntries store <-> latestOf (versionsOf store key) = some value := by
  unfold snapshotEntries latestOf versionsOf
  rw [mem_filterMap]
  constructor
  · rintro ⟨_, member, isEntry⟩
    rcases map_eq_some_iff.mp isEntry with ⟨_, isLast, same⟩
    cases same
    have stored := TreeMap.mem_toList_iff_getElem?_eq_some.mp member
    rw [TreeMap.getD_eq_getD_getElem?, stored]
    exact isLast
  · intro isLast
    rw [TreeMap.getD_eq_getD_getElem?] at isLast
    cases stored : store[key]? with
    | none =>
      rw [stored] at isLast
      cases isLast
    | some versions =>
      rw [stored] at isLast
      refine ⟨(key, versions), TreeMap.mem_toList_iff_getElem?_eq_some.mpr stored, ?_⟩
      rw [show versions.getLast?.bind Version.value = some value from isLast]
      rfl

theorem versionsOf_snapshotStore (commitTs : Nat) (store : Store) (key : Key) :
    versionsOf (snapshotStore commitTs (snapshotEntries store)) key =
      ((latestOf (versionsOf store key)).map (fun value => (⟨commitTs, some value⟩ : Version))).toList := by
  unfold snapshotStore
  have distinct : ((snapshotEntries store).map (fun entry => (entry.1, some entry.2))).Pairwise
      (fun left right => left.1 ≠ right.1) :=
    pairwise_map.mpr (snapshotEntries_distinct store)
  rw [versionsOf_pushVersions _ _ _ _ distinct, versionsOf_empty, nil_append, List.find?_map,
    Option.map_map]
  cases isLast : latestOf (versionsOf store key) with
  | none =>
    have absent : (snapshotEntries store).find? (fun entry => entry.1 = key) = none := by
      rw [List.find?_eq_none]
      rintro ⟨found, _⟩ member same
      have sameKey : found = key := by simpa using same
      rw [sameKey] at member
      cases isLast.symm.trans (mem_snapshotEntries.mp member)
    rw [show (snapshotEntries store).find? ((fun op => decide (op.1 = key)) ∘
      fun entry => (entry.1, some entry.2)) = none from absent]
    rfl
  | some =>
    have member := mem_snapshotEntries.mpr isLast
    cases found : (snapshotEntries store).find? (fun entry => entry.1 = key) with
    | none =>
      have absent := List.find?_eq_none.mp found _ member
      simp at absent
    | some entry =>
      have sameKey : entry.1 = key := by simpa using List.find?_some found
      have inside := mem_snapshotEntries.mp
        (show (entry.1, entry.2) ∈ snapshotEntries store from mem_of_find?_eq_some found)
      rw [sameKey, isLast, some_inj] at inside
      rw [show (snapshotEntries store).find? ((fun op => decide (op.1 = key)) ∘
        fun entry => (entry.1, some entry.2)) = some entry from found, map_some, map_some,
        inside]
      rfl

theorem latestOf_snapshotStore (commitTs : Nat) (store : Store) (key : Key) :
    latestOf (versionsOf (snapshotStore commitTs (snapshotEntries store)) key) =
      latestOf (versionsOf store key) := by
  rw [versionsOf_snapshotStore]
  cases latestOf (versionsOf store key) <;> rfl

/-! ## A log that ends within a record -/

/-- `replay_wal_with_base` on the bytes of a log. -/
def replayWalBytes (data : Bytes) (store : Store) (baseTs : Nat) : Store × Nat × Nat :=
  let (records, lastGood) := readWal data
  let (recovered, maxTs) := replayWalWithBase records store baseTs
  (recovered, maxTs, lastGood)

/-- A record that a commit can have framed, with its writes in some order. -/
structure Framed (record : WalRecord) : Prop where
  commitTs : record.commitTs < 2 ^ 64
  writes : ∃ writeSet : WriteSet,
    encodePayload writeSet = .ok () ∧ record.ops.Perm writeSet.toList
  short : (payloadOf record).length < 2 ^ 32

theorem Framed.fits (framed : Framed record) : Fits record := by
  rcases framed.writes with ⟨_, encoded, order⟩
  rcases opFits_of_encoded encoded with ⟨few, fit⟩
  exact ⟨framed.commitTs, order.length_eq ▸ few, fun op member => fit op (order.mem_iff.mp member)⟩

theorem readRecord_torn {torn : Bytes} (framed : Framed record) (cut : torn <+: frame record)
    (strict : torn ≠ frame record) : readRecord torn = none := by
  rcases cut with ⟨missing, whole⟩
  cases read : readRecord torn with
  | none => rfl
  | some found =>
    have complete := readRecord_frame framed.fits framed.short []
    rw [append_nil, ← whole, readRecord_append missing read] at complete
    have none : found.2 ++ missing = [] := (Prod.mk.inj (some.inj complete)).2
    rw [(append_eq_nil_iff.mp none).2, append_nil] at whole
    exact absurd whole strict

/-- Behind complete records a part of one more is left out: the writes of the
records above the base are pushed in the order of the log, and the valid length
is that of the complete records. -/
theorem replay_complete_records {records : List WalRecord} {last : WalRecord} {torn : Bytes}
    (framed : ∀ record ∈ records, Framed record) (lastFramed : Framed last)
    (cut : torn <+: frame last) (strict : torn ≠ frame last) (store : Store) (baseTs : Nat) :
    replayWalBytes (records.flatMap frame ++ torn) store baseTs =
      ((above baseTs records).foldl (fun store record => pushVersions store record.commitTs record.ops)
          store,
        (above baseTs records).foldl (fun maxTs record => max maxTs record.commitTs) baseTs,
        (records.flatMap frame).length) := by
  have complete := readWal_frames
    (fun record member => ⟨(framed record member).fits, (framed record member).short⟩)
  have clean : Clean (records.flatMap frame) := congrArg Prod.snd complete
  rw [replayWalBytes, clean.readWal_append, readWal_of_none (readRecord_torn lastFramed cut strict),
    complete]
  simp [replayWalWithBase, replay_eq]

theorem replay_complete_records_cutAfterOne : ∃ record : WalRecord,
    replayWalBytes ([record].flatMap frame ++ [0x57]) ∅ 0 =
      (pushVersions ∅ 1 [(Key.ofNat 7, some [5])], 1, ([record].flatMap frame).length) := by
  have framed : Framed ⟨1, [(Key.ofNat 7, some [5])]⟩ :=
    ⟨by decide, ⟨(∅ : WriteSet).insert (Key.ofNat 7) (some [5]), by decide +kernel, by decide +kernel⟩,
      by decide +kernel⟩
  refine ⟨⟨1, [(Key.ofNat 7, some [5])]⟩, ?_⟩
  exact replay_complete_records (by simpa using framed) framed (by decide +kernel) (by decide +kernel) ∅ 0

end TxnKv
end ScaleKv
