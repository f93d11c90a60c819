import ScaleKv.Compute.SnapshotCommit

namespace ScaleKv
namespace Compute
namespace Embedded

open Foundation Std OrderedMap

variable {Value : Type} {state next : Embedded Value} {owner owner' : PageId -> Owner}
  {horizon : Nat} {id : TxnId} {txn : Txn Value} {key : Key}

/-!
# Beginning, and garbage collection

The bound of a collection is at most every registered snapshot, so that the
horizon can be raised to it when the collection starts.  From then on its steps
change rows and undo pages only behind versions that every snapshot covers.
Nobody has written anything while it runs, hence every key is quiet.
-/

/-! ## The bound of a collection -/

theorem gcLsn_le {readLsn : Nat} (registered : state.activeReads[id]? = some readLsn) :
    state.gcLsn ≤ readLsn :=
  least_le registered _

theorem LsnOk.gcLsn_le_durable (lsn : LsnOk state horizon) : state.gcLsn ≤ state.sequencer.durableLsn :=
  least_le_default lsn.snapshots

theorem Coherent.raises {later : Nat} (inv : Coherent state owner horizon) (rises : horizon ≤ later)
    (settled : later ≤ state.sequencer.durableLsn)
    (reads : ∀ (id : TxnId) txn, state.txns[id]? = some txn -> later ≤ txn.readLsn) :
    Coherent state owner later := by
  have keeps : UndoLog.Keeps state.undo owner later state.sequencer.durableLsn state.undo owner :=
    UndoLog.Keeps.of_same rfl rfl
  have allocated : ∀ (id : TxnId) ids, state.undo.allocated[id]? = some ids ->
      ∃ grown, state.undo.allocated[id]? = some grown ∧ ∀ page ∈ ids, page ∈ grown :=
    fun _ ids found => ⟨ids, found, fun _ member => member⟩
  refine ⟨inv.log, ?_, inv.txns, ⟨?_, inv.rows.written, ?_⟩, ?_, ?_⟩
  · refine { inv.lsn with settled := settled, reads := ?_ }
    exact fun id txn present => ⟨reads id txn present, (inv.lsn.reads id txn present).2⟩
  · intro key
    rcases inv.rows.rows key with quiet | ⟨id, txn, row, taken⟩
    · refine .inl ⟨quiet.free, ?_⟩
      rcases quiet.version with ⟨missing, empty⟩ | ⟨row, older, stored, version, positive, shape, behind⟩
      · exact .inl ⟨missing, fun readLsn above => empty readLsn (rises.trans above)⟩
      · exact .inr ⟨row, older, stored, version, positive, shape,
          behind.keeps inv.log.undo rises keeps⟩
    · exact .inr ⟨id, txn, row, taken.present, taken.stored,
        taken.leads.keeps inv.log.undo rises (allocated id) keeps, taken.place, taken.shows⟩
  · intro id txn key row present phase
    rcases inv.rows.inserting id txn key row present phase with ⟨owned, lsn, leads⟩
    exact ⟨owned, lsn, leads.keeps inv.log.undo rises (allocated id) keeps⟩
  · intro id txn present
    have ok := inv.readings id txn present
    unfold ReadingOk at ok ⊢
    split
    · next answered =>
      rw [answered] at ok
      exact ok
    · next walking =>
      rw [walking] at ok
      exact ⟨ok.1, ok.2.keeps inv.log.undo rises (reads id txn present)
        (inv.lsn.reads id txn present).2 rfl keeps⟩
    · trivial
  · refine ⟨fun run running => (inv.gc.bound run running).trans rises, inv.gc.alone, ?_, ?_⟩
    · intro run running key member row stored
      rcases inv.gc.removals run running key member row stored with ⟨version, old, tombstone⟩
      exact ⟨version, old.trans rises, tombstone⟩
    · intro run running entry member
      rcases inv.gc.updates run running entry member with ⟨row, stored, version, old, rest⟩
      exact ⟨row, stored, version, old.trans rises, rest⟩

/-! ## Beginning -/

/-- A transaction begins: a reader at any time, a writer when there is no other. -/
theorem Coherent.begins {readOnly : Bool} (inv : Coherent state owner horizon)
    (allowed : readOnly = false -> state.gc = none ∧
      ∀ (id : TxnId) txn, state.txns[id]? = some txn -> txn.readOnly = true)
    (taken : state.beginTx id readOnly = some next) : Coherent next owner horizon := by
  rcases beginTx_eq_some taken with ⟨_, undo, begun, rfl⟩
  have undoInv := inv.log.undo.begins begun
  unfold UndoLog.beginTx at begun
  split at begun
  · cases begun
  next fresh =>
  rw [not_or, TreeMap.contains_eq_isSome_getElem?, Option.not_isSome_iff_eq_none] at fresh
  cases begun
  have missing : state.txns[id]? = none := (inv.log.synced id).mpr fresh.1
  have unwritten : Unwritten
      (⟨readOnly, state.sequencer.durableLsn, .active, .idle, ∅, ∅⟩ : Txn Value) :=
    ⟨rfl, fun _ => TreeSet.not_mem_emptyc, fun _ => TreeMap.getElem?_emptyc⟩
  have keeps : UndoLog.Keeps state.undo owner horizon state.sequencer.durableLsn { state.undo with
        txns := state.undo.txns.insert id .begun
        allocated := state.undo.allocated.insert id [] } owner := UndoLog.Keeps.of_same rfl rfl
  have allocated : ∀ other : TxnId, (∃ txn, state.txns[other]? = some txn) ->
      ∀ ids : List PageId, state.undo.allocated[other]? = some ids ->
      ∃ grown, (state.undo.allocated.insert id [])[other]? = some grown ∧
        ∀ page ∈ ids, page ∈ grown := by
    rintro other ⟨_, present⟩ ids found
    have different : id ≠ other := by
      rintro rfl
      rw [missing] at present
      cases present
    exact ⟨ids, (lookup_insert_of_ne _ _ different).trans found, fun _ member => member⟩
  constructor
  · constructor
    · exact undoInv
    · intro other
      rw [lookup_insert, lookup_insert]
      split
      · exact ⟨fun impossible => (by cases impossible), fun impossible => (by cases impossible)⟩
      · exact inv.log.synced other
    · intro other found lookup
      rcases lookup_insert_cases lookup with ⟨rfl, rfl⟩ | ⟨different, old⟩
      · exact TreeMap.getElem?_insert_self
      · exact (lookup_insert_of_ne _ _ (Ne.symm different)).trans (inv.log.registered other found old)
    · intro other own metaPage lookup staged
      rcases lookup_insert_cases lookup with ⟨rfl, rfl⟩ | ⟨different, old⟩
      · cases staged
      · rcases inv.log.metaCurrent other own metaPage old staged with ⟨current, writer, found, writes⟩
        exact ⟨current, writer, (lookup_insert_of_ne _ _ (Ne.symm different)).trans found, writes⟩
    · intro other own reader page image lookup readerLookup cached
      rcases lookup_insert_cases lookup with ⟨rfl, rfl⟩ | ⟨different, old⟩
      · have empty : (∅ : TreeMap PageId (UndoPage Value))[page]? = some image := cached
        rw [TreeMap.getElem?_emptyc] at empty
        cases empty
      · rcases lookup_insert_cases readerLookup with ⟨same, _⟩ | ⟨_, readerFound⟩
        · exact absurd same different
        · exact inv.log.roCaches other own reader page image old readerFound cached
  · refine ⟨inv.lsn.settled, inv.lsn.durable, ?_, ?_, ?_, inv.lsn.versions⟩
    · exact forall_insert le_rfl inv.lsn.snapshots
    · exact forall_insert ⟨inv.lsn.settled, le_rfl⟩ inv.lsn.reads
    · intro other found startLsn endLsn rest lookup phase
      rcases lookup_insert_cases lookup with ⟨_, rfl⟩ | ⟨_, old⟩
      · cases phase
      · exact inv.lsn.stamping other found startLsn endLsn rest old phase
  · constructor
    · intro first second writer other lookupFirst lookupSecond writes otherWrites
      rcases lookup_insert_cases lookupFirst with ⟨sameFirst, rfl⟩ | ⟨_, oldFirst⟩
      · rcases lookup_insert_cases lookupSecond with ⟨sameSecond, _⟩ | ⟨_, oldSecond⟩
        · exact sameFirst.trans sameSecond.symm
        · rw [(allowed writes).2 second other oldSecond] at otherWrites
          cases otherWrites
      · rcases lookup_insert_cases lookupSecond with ⟨_, rfl⟩ | ⟨_, oldSecond⟩
        · rw [(allowed otherWrites).2 first writer oldFirst] at writes
          cases writes
        · exact inv.txns.single first second writer other oldFirst oldSecond writes otherWrites
    · exact forall_insert (fun _ => unwritten) inv.txns.readers
    · exact forall_insert (.inl rfl) inv.txns.idle
    · exact forall_insert trivial inv.txns.phases
  · constructor
    · intro key
      rcases inv.rows.rows key with quiet | ⟨other, writer, row, holds⟩
      · exact .inl ⟨forall_insert unwritten.not_takes quiet.free,
          quiet.version.keeps inv.log.undo rfl rfl keeps⟩
      · refine .inr ⟨other, writer, row, ?_, holds.stored, ?_, holds.place, holds.shows⟩
        · have different : id ≠ other := by
            rintro rfl
            cases missing.symm.trans holds.present
          exact (lookup_insert_of_ne _ _ different).trans holds.present
        · exact holds.leads.keeps inv.log.undo le_rfl (allocated other ⟨writer, holds.present⟩) keeps
    · intro other found key value lookup keepsOn written
      rcases lookup_insert_cases lookup with ⟨_, rfl⟩ | ⟨_, old⟩
      · rw [unwritten.2.2 key] at written
        cases written
      · exact inv.rows.written other found key value old keepsOn written
    · intro other found key row lookup phase
      rcases lookup_insert_cases lookup with ⟨_, rfl⟩ | ⟨_, old⟩
      · cases phase
      · rcases inv.rows.inserting other found key row old phase with ⟨owned, lsn, leads⟩
        exact ⟨owned, lsn, leads.keeps inv.log.undo le_rfl (allocated other ⟨found, old⟩) keeps⟩
  · refine forall_insert trivial (fun other found old => ?_)
    rcases inv.lsn.reads other found old with ⟨above, below⟩
    exact (inv.readings other found old).keeps inv.log.undo above below (fun _ => rfl) keeps
  · refine ⟨inv.gc.bound, ?_, inv.gc.removals, inv.gc.updates⟩
    intro run running other found lookup writes
    rcases lookup_insert_cases lookup with ⟨_, rfl⟩ | ⟨_, old⟩
    · have noGc : state.gc = none := (allowed writes).1
      have stillRuns : state.gc = some run := running
      rw [noGc] at stillRuns
      cases stillRuns
    · exact inv.gc.alone run running other found old writes

/-! ## Steps while nobody has written anything -/

/-- What a step of a collection has to say: the undo log keeps what snapshots
need, and every row is a version. -/
theorem Coherent.collects (inv : Coherent state owner horizon)
    (unwritten : ∀ (id : TxnId) txn, state.txns[id]? = some txn -> Unwritten txn)
    (txns : next.txns = state.txns) (activeReads : next.activeReads = state.activeReads)
    (versions : next.versions = state.versions) (moved : Moved state.sequencer next.sequencer)
    (undo : next.undo.Inv owner') (undoTxns : next.undo.txns = state.undo.txns)
    (metaPage : next.undo.store.metaPage = state.undo.store.metaPage ∨
      ∀ (id : TxnId) txn, state.txns[id]? = some txn -> txn.readOnly = true)
    (keeps : UndoLog.Keeps state.undo owner horizon state.sequencer.durableLsn next.undo owner')
    (rows : ∀ key, VersionOk next owner' horizon key) (gc : GcOk next horizon) :
    Coherent next owner' horizon := by
  have history : ∀ key, next.history key = state.history key := by
    intro key
    unfold Embedded.history
    rw [versions]
  rcases moved with ⟨grows, rises, bounded⟩
  constructor
  · constructor
    · exact undo
    · rw [txns, undoTxns]
      exact inv.log.synced
    · rw [txns, activeReads]
      exact inv.log.registered
    · intro other own staged lookup isStaged
      rw [undoTxns] at lookup
      rcases inv.log.metaCurrent other own staged lookup isStaged with ⟨current, writer, found, writes⟩
      rcases metaPage with same | readers
      · rw [same, txns]
        exact ⟨current, writer, found, writes⟩
      · rw [readers other writer found] at writes
        cases writes
    · intro other own _ _ _ lookup readerLookup cached
      rw [undoTxns] at lookup
      rw [txns] at readerLookup
      exact inv.log.caches_kept inv.lsn keeps lookup readerLookup cached
  · constructor
    · exact inv.lsn.settled.trans rises
    · rcases bounded with same | below
      · rw [same]
        exact inv.lsn.durable.trans grows
      · exact below
    · intro other readLsn lookup
      rw [activeReads] at lookup
      exact (inv.lsn.snapshots other readLsn lookup).trans rises
    · intro other found lookup
      rw [txns] at lookup
      rcases inv.lsn.reads other found lookup with ⟨above, below⟩
      exact ⟨above, below.trans rises⟩
    · intro other found _ _ _ lookup phase
      rw [txns] at lookup
      rw [(unwritten other found lookup).1] at phase
      cases phase
    · intro key
      rw [history]
      rcases inv.lsn.versions key with ⟨descending, below⟩
      exact ⟨descending, fun version member => (below version member).trans rises⟩
  · constructor
    · rw [txns]
      exact inv.txns.single
    · rw [txns]
      exact inv.txns.readers
    · rw [txns]
      exact inv.txns.idle
    · rw [txns]
      exact inv.txns.phases
  · constructor
    · intro key
      refine .inl ⟨?_, rows key⟩
      intro other found lookup
      rw [txns] at lookup
      exact (unwritten other found lookup).not_takes
    · intro other found key _ lookup _ written
      rw [txns] at lookup
      rw [(unwritten other found lookup).2.2 key] at written
      cases written
    · intro other found key _ lookup phase
      rw [txns] at lookup
      rw [(unwritten other found lookup).1] at phase
      cases phase
  · intro other found lookup
    rw [txns] at lookup
    rcases inv.lsn.reads other found lookup with ⟨above, below⟩
    exact (inv.readings other found lookup).keeps inv.log.undo above below history keeps
  · exact gc

theorem Coherent.version (inv : Coherent state owner horizon)
    (unwritten : ∀ (id : TxnId) txn, state.txns[id]? = some txn -> Unwritten txn)
    (key : Key) : VersionOk state owner horizon key :=
  (inv.rows.quiet_of_free (fun id txn present => (unwritten id txn present).not_takes)).version

theorem VersionOk.not_intent {row : Row Value} (version : VersionOk state owner horizon key)
    (stored : state.tree[key]? = some row) : row.flags.intent = false := by
  rcases version with ⟨missing, _⟩ | ⟨_, _, isStored, isVersion, _⟩
  · rw [missing] at stored
    cases stored
  · cases stored.symm.trans isStored
    exact isVersion

/-! ## Collection -/

variable (inv : Coherent state owner horizon) {shipped : Bool}

include inv

theorem Coherent.gcStarts {budgetPages : Nat}
    (alone : ∀ (id : TxnId) txn, state.txns[id]? = some txn -> txn.readOnly = true)
    (taken : state.gcOnce id budgetPages = some next) :
    Coherent next owner (max horizon state.gcLsn) := by
  rcases gcOnce_eq_some taken with
    ⟨noGc, begun, _, started, rfl, runId, bound, removals, updates⟩
  have raised : Coherent state owner (max horizon state.gcLsn) := by
    apply inv.raises (le_max_left _ _)
    · exact Nat.max_le.mpr ⟨inv.lsn.settled, inv.lsn.gcLsn_le_durable⟩
    · intro other found present
      exact Nat.max_le.mpr ⟨(inv.lsn.reads other found present).1,
        gcLsn_le (inv.log.registered other found present)⟩
  have begunOk := raised.begins (fun _ => ⟨noGc, alone⟩) started
  have lookup : ∀ (other : TxnId) found, begun.txns[other]? = some found ->
      Unwritten found ∧ (found.readOnly = false -> other = id) := by
    intro other found present
    rcases beginTx_eq_some started with ⟨_, _, _, rfl⟩
    rcases lookup_insert_cases present with ⟨same, rfl⟩ | ⟨_, old⟩
    · exact ⟨⟨rfl, fun _ => TreeSet.not_mem_emptyc, fun _ => TreeMap.getElem?_emptyc⟩,
        fun _ => same⟩
    · refine ⟨inv.txns.readers other found old (alone other found old), ?_⟩
      intro writes
      rw [alone other found old] at writes
      cases writes
  have unwritten : ∀ (other : TxnId) found, begun.txns[other]? = some found ->
      Unwritten found := fun other found present => (lookup other found present).1
  have settled : ∀ (key : Key) row, begun.tree[key]? = some row -> collectable state.gcLsn row = true ->
      row.flags.intent = false ∧ row.commitLsn ≤ max horizon state.gcLsn := by
    intro key row stored old
    refine ⟨(begunOk.version unwritten key).not_intent stored, ?_⟩
    have covered := (Bool.and_eq_true _ _ |>.mp old).2
    exact (of_decide_eq_true covered).trans (le_max_right _ _)
  refine begunOk.collects unwritten rfl rfl rfl (moved_refl _) begunOk.log.undo rfl (.inl rfl)
    (UndoLog.Keeps.of_same rfl rfl) (begunOk.version unwritten) ?_
  constructor
  · intro other running
    cases running
    rw [bound]
    exact le_max_right _ _
  · intro other running found txn present writes
    cases running
    exact ⟨((lookup found txn present).2 writes).trans runId.symm, unwritten found txn present⟩
  · intro other running key member row stored
    cases running
    rcases removals key member with ⟨_, isStored, old, tombstone⟩
    cases isStored.symm.trans stored
    rcases settled key row stored old with ⟨version, covered⟩
    exact ⟨version, covered, tombstone⟩
  · intro other running entry member
    cases running
    rcases updates entry member with ⟨row, stored, old, live, shape⟩
    rcases settled entry.1 row stored old with ⟨version, covered⟩
    exact ⟨row, stored, version, covered, live, shape⟩

/-- A collection removes an old tombstone or cuts an old version off its
predecessors. -/
theorem Coherent.gcApplies (taken : state.gcApply = some next) :
    Coherent next owner horizon := by
  rcases gcApply_eq_some taken with
    ⟨run, running, ⟨first, _, removals, rfl⟩ | ⟨first, _, noRemovals, updates, rfl⟩⟩
  · have unwritten := fun (other : TxnId) (found : Txn Value)
      (present : state.txns[other]? = some found) => inv.unwritten running present
    refine inv.collects unwritten rfl rfl rfl (moved_refl _) inv.log.undo rfl (.inl rfl)
      (UndoLog.Keeps.of_same rfl rfl) ?_ ?_
    · intro key
      have version := inv.version unwritten key
      show ((state.tree.erase first)[key]? = none ∧ _) ∨ ∃ row older,
        (state.tree.erase first)[key]? = some row ∧ _
      rw [lookup_erase]
      split
      · next same =>
        subst same
        left
        refine ⟨rfl, ?_⟩
        rcases version with ⟨_, empty⟩ | ⟨row, _, stored, _, _, shape, _⟩
        · exact empty
        · intro readLsn above
          rcases inv.gc.removals run running first (removals ▸ List.mem_cons_self) row stored with
            ⟨_, covered, tombstone⟩
          show visibleAt (state.history first) readLsn = none
          rw [shape, visibleAt_cons_of_le (covered.trans above)]
          unfold Row.visible
          rw [tombstone]
          rfl
      · exact version
    · have erased : ∀ key row, (state.tree.erase first)[key]? = some row ->
          key ≠ first ∧ state.tree[key]? = some row := fun key row => lookup_erase_cases
      constructor
      · intro other after
        cases after
        exact inv.gc.bound run running
      · intro other after
        cases after
        exact inv.gc.alone run running
      · intro other after key member row stored
        cases after
        exact inv.gc.removals run running key (removals ▸ List.mem_cons_of_mem _ member) row
          (erased key row stored).2
      · intro other after entry member
        cases after
        rcases inv.gc.updates run running entry member with ⟨row, stored, version, covered, live, shape⟩
        refine ⟨row, ?_, version, covered, live, shape⟩
        have different : first ≠ entry.1 := by
          intro same
          have dead := (inv.gc.removals run running first (removals ▸ List.mem_cons_self) row
            (same ▸ stored)).2.2
          rw [live] at dead
          cases dead
        exact (lookup_erase _ _ _).trans ((if_neg different).trans stored)
  · have unwritten := fun (other : TxnId) (found : Txn Value)
      (present : state.txns[other]? = some found) => inv.unwritten running present
    rcases inv.gc.updates run running first (updates ▸ List.mem_cons_self) with
      ⟨row, stored, version, covered, live, shape⟩
    refine inv.collects unwritten rfl rfl rfl (moved_refl _) inv.log.undo rfl (.inl rfl)
      (UndoLog.Keeps.of_same rfl rfl) ?_ ?_
    · intro key
      have before := inv.version unwritten key
      show ((state.tree.insert first.1 first.2)[key]? = none ∧ _) ∨ ∃ row older,
        (state.tree.insert first.1 first.2)[key]? = some row ∧ _
      rw [lookup_insert]
      split
      · next same =>
        subst same
        right
        rcases before with ⟨missing, _⟩ | ⟨_, older, isStored, _, positive, history, _⟩
        · rw [missing] at stored
          cases stored
        · cases stored.symm.trans isStored
          refine ⟨first.2, older, rfl, ?_⟩
          rw [shape]
          exact ⟨version, positive, history, .settled covered⟩
      · exact before
    · constructor
      · intro other after
        cases after
        exact inv.gc.bound run running
      · intro other after
        cases after
        exact inv.gc.alone run running
      · intro other after key member
        cases after
        have none_ : key ∈ run.removals := member
        rw [noRemovals] at none_
        cases none_
      · intro other after entry member
        cases after
        rcases inv.gc.updates run running entry (updates ▸ List.mem_cons_of_mem _ member) with
          ⟨found, isStored, isVersion, isCovered, isLive, isShape⟩
        by_cases same : first.1 = entry.1
        · cases stored.symm.trans (same ▸ isStored)
          refine ⟨first.2, (lookup_insert _ _ _ _).trans (if_pos same), ?_⟩
          rw [shape, isShape]
          exact ⟨version, covered, live, rfl⟩
        · exact ⟨found, (lookup_insert_of_ne _ _ same).trans isStored, isVersion, isCovered, isLive,
            isShape⟩

theorem Coherent.gcCommits {pages : Nat}
    (taken : state.gcCommit pages shipped = some next) : Coherent next owner horizon := by
  rcases gcCommit_eq_some taken with ⟨run, _, gc, running, moved, gcIs, rfl⟩
  have ended : Coherent (state.endTxn run.txnId) owner horizon := by
    apply inv.ends
    exact fun txn present _ => (inv.unwritten running present).not_takes
  have unwritten : ∀ (other : TxnId) found,
      (state.endTxn run.txnId).txns[other]? = some found -> Unwritten found :=
    fun other found present => ended.unwritten running present
  refine ended.collects unwritten rfl rfl rfl moved ended.log.undo rfl (.inl rfl)
    (UndoLog.Keeps.of_same rfl rfl) (ended.version unwritten) ?_
  rcases gcIs with rfl | rfl
  · exact GcOk.of_none rfl
  · have runs : (state.endTxn run.txnId).gc = some run := running
    constructor
    · intro other after
      cases after
      exact ended.gc.bound run runs
    · intro other after
      cases after
      exact ended.gc.alone run runs
    · intro other after
      cases after
      exact ended.gc.removals run runs
    · intro other after
      cases after
      exact ended.gc.updates run runs

theorem Coherent.gcPurges {pages : Nat} (taken : state.gcPurge pages shipped = some next) :
    ∃ owner', Coherent next owner' horizon := by
  rcases gcPurge_eq_some taken with ⟨run, sequencer, undo, running, ended, moved, undoIs, rfl⟩
  have unwritten := fun (other : TxnId) (found : Txn Value)
    (present : state.txns[other]? = some found) => inv.unwritten running present
  have readers : ∀ (other : TxnId) found, state.txns[other]? = some found ->
      found.readOnly = true := by
    intro other found present
    cases reads : found.readOnly with
    | true => rfl
    | false =>
      rw [(inv.gc.alone run running other found present reads).1, ended] at present
      cases present
  rcases undoIs with rfl | purged
  · exact ⟨owner, inv.collects unwritten rfl rfl rfl moved inv.log.undo rfl (.inl rfl)
      (UndoLog.Keeps.of_same rfl rfl) (inv.version unwritten) (GcOk.of_none rfl)⟩
  · rcases inv.log.undo.purges run.gcLsn with ⟨_, _, owner', isPurged, purge, undoInv, owners⟩
    cases purged.symm.trans isPurged
    have keeps : UndoLog.Keeps state.undo owner horizon state.sequencer.durableLsn undo owner' :=
      UndoLog.Keeps.of_purge purge (inv.gc.bound run running) owners
    exact ⟨owner', inv.collects unwritten rfl rfl rfl moved undoInv purge.txns (.inr readers) keeps
      (fun key => (inv.version unwritten key).keeps inv.log.undo rfl rfl keeps) (GcOk.of_none rfl)⟩

end Embedded
end Compute
end ScaleKv
