import ScaleKv.Compute.SnapshotWrites

namespace ScaleKv
namespace Compute
namespace Embedded

open Foundation List Std OrderedMap Option

variable {Value : Type} {state next : Embedded Value} {owner owner' : PageId -> Owner}
  {horizon : Nat} {id : TxnId} {txn after : Txn Value} {key : Key}

/-!
# Commit and abort of the writer

A commit stamps the rows and ships them; it then turns the pointers of its rows
into pointers of versions.  An abort puts the saved versions back.
-/

theorem Coherent.movesOn {sequencer : Sequencer} {phase : Phase Value}
    (inv : Coherent state owner horizon) (noGc : state.gc = none)
    (present : state.txns[id]? = some txn) (writes : txn.readOnly = false)
    (durable : sequencer.durableLsn = state.sequencer.durableLsn)
    (grows : state.sequencer.nextLsn ≤ sequencer.nextLsn)
    (phaseOk : PhaseOk { txn with phase := phase, reading := .idle })
    (stamping : ∀ startLsn endLsn rest, phase = .stamping startLsn endLsn rest ->
      state.sequencer.durableLsn < endLsn ∧ endLsn ≤ sequencer.nextLsn)
    (pending : ∀ key, Txn.pending { txn with phase := phase, reading := .idle } key <->
      txn.pending key)
    (stamped : ∀ key endLsn, Txn.stamped { txn with phase := phase, reading := .idle } key endLsn <->
      txn.stamped key endLsn)
    (keeps : txn.keeps) (notInserting : ∀ key row, phase ≠ .inserting key row) :
    Coherent ({ state with sequencer := sequencer }.setTxn id
      { txn with phase := phase, reading := .idle }) owner horizon := by
  refine inv.advances noGc present writes ?_ ?_ ?_ phaseOk durable grows stamping none ?_
    (fun _ => keeps) ?_ notInserting
  · rfl
  · rfl
  · rfl
  · exact fun key _ => ⟨rfl, pending key, stamped key, rfl⟩
  · nofun

section Steps

variable (inv : Coherent state owner horizon)

include inv

theorem Coherent.ends
    (nothing : ∀ txn, state.txns[id]? = some txn -> ∀ key, ¬txn.takes key) :
    Coherent (state.endTxn id) owner horizon := by
  have kept : ∀ (other : TxnId) found, (state.endTxn id).txns[other]? = some found ->
      id ≠ other ∧ state.txns[other]? = some found := by
    intro other found lookup
    rcases lookup_erase_cases lookup with ⟨different, before⟩
    exact ⟨Ne.symm different, before⟩
  have keptUndo : ∀ (other : TxnId) own,
      (state.endTxn id).undo.txns[other]? = some own -> id ≠ other ∧ state.undo.txns[other]? = some own := by
    intro other own lookup
    have dropped : (state.undo.drop id).txns[other]? = some own := lookup
    rw [UndoLog.lookup_drop_txns] at dropped
    split at dropped
    · cases dropped
    · next different => exact ⟨different, dropped⟩
  have keeps : UndoLog.Keeps state.undo owner horizon state.sequencer.durableLsn
      (state.endTxn id).undo owner := UndoLog.Keeps.of_same rfl rfl
  have allocated : ∀ other, id ≠ other -> ∀ ids, state.undo.allocated[other]? = some ids ->
      ∃ grown, (state.endTxn id).undo.allocated[other]? = some grown ∧
        ∀ page ∈ ids, page ∈ grown := by
    intro other different ids isAllocated
    refine ⟨ids, ?_, fun _ member => member⟩
    exact (UndoLog.lookup_drop_allocated id other).trans ((if_neg different).trans isAllocated)
  constructor
  · constructor
    · exact inv.log.undo.drop id
    · intro other
      show (state.txns.erase id)[other]? = none <-> (state.undo.drop id).txns[other]? = none
      rw [lookup_erase, UndoLog.lookup_drop_txns]
      split
      · exact ⟨fun _ => rfl, fun _ => rfl⟩
      · exact inv.log.synced other
    · intro other found lookup
      rcases kept other found lookup with ⟨different, old⟩
      show (state.activeReads.erase id)[other]? = _
      rw [lookup_erase, if_neg different]
      exact inv.log.registered other found old
    · intro other own metaPage lookup staged
      rcases keptUndo other own lookup with ⟨different, old⟩
      rcases inv.log.metaCurrent other own metaPage old staged with ⟨current, writer, found, writes⟩
      refine ⟨current, writer, ?_, writes⟩
      exact (lookup_erase _ _ _).trans ((if_neg different).trans found)
    · intro other own reader page image lookup readerLookup cached
      exact inv.log.roCaches other own reader page image (keptUndo other own lookup).2
        (kept other reader readerLookup).2 cached
  · refine ⟨inv.lsn.settled, inv.lsn.durable, ?_, ?_, ?_, inv.lsn.versions⟩
    · exact forall_erase inv.lsn.snapshots
    · exact forall_erase inv.lsn.reads
    · intro other found startLsn endLsn rest lookup
      exact inv.lsn.stamping other found startLsn endLsn rest (kept other found lookup).2
  · constructor
    · intro first second writer other lookupFirst lookupSecond
      exact inv.txns.single first second writer other (kept first writer lookupFirst).2
        (kept second other lookupSecond).2
    · exact forall_erase inv.txns.readers
    · exact forall_erase inv.txns.idle
    · exact forall_erase inv.txns.phases
  · constructor
    · intro key
      rcases inv.rows.rows key with quiet | ⟨other, writer, row, taken⟩
      · exact .inl ⟨forall_erase quiet.free, quiet.version.keeps inv.log.undo rfl rfl keeps⟩
      · have different : id ≠ other := by
          rintro rfl
          exact nothing writer taken.present key taken.takes
        refine .inr ⟨other, writer, row, ?_, taken.stored, ?_, taken.place, taken.shows⟩
        · exact (lookup_erase _ _ _).trans ((if_neg different).trans taken.present)
        · exact taken.leads.keeps inv.log.undo le_rfl (allocated other different) keeps
    · exact fun other found key value lookup => inv.rows.written other found key value
        (kept other found lookup).2
    · intro other found key row lookup phase
      rcases kept other found lookup with ⟨different, old⟩
      rcases inv.rows.inserting other found key row old phase with ⟨owned, lsn, leads⟩
      exact ⟨owned, lsn, leads.keeps inv.log.undo le_rfl (allocated other different) keeps⟩
  · refine forall_erase (fun other found old => ?_)
    rcases inv.lsn.reads other found old with ⟨above, below⟩
    exact (inv.readings other found old).keeps inv.log.undo above below (fun _ => rfl) keeps
  · refine ⟨inv.gc.bound, ?_, inv.gc.removals, inv.gc.updates⟩
    exact fun run running => forall_erase (inv.gc.alone run running)

theorem Coherent.readerEnds (present : state.txns[id]? = some txn)
    (reads : txn.readOnly = true) : Coherent (state.endTxn id) owner horizon := by
  apply inv.ends
  intro _ lookup _
  cases present.symm.trans lookup
  rcases inv.txns.readers id txn present reads with ⟨active, nothing, _⟩
  exact not_takes_of_unmodified active nothing

section

variable (noGc : ∀ txn, state.txns[id]? = some txn -> txn.readOnly = false -> state.gc = none)

include noGc

theorem Coherent.commits (taken : state.commit id = some next) : Coherent next owner horizon := by
  rcases closes_eq_some taken with ⟨txn, present, active, ⟨reads, rfl⟩ | ⟨writes, rfl⟩⟩
  · exact inv.readerEnds present reads
  · refine @movesOn Value state owner horizon id txn state.sequencer _ inv (noGc txn present writes)
      present writes rfl le_rfl ?_ (fun _ _ _ phase => by cases phase) ?_ ?_
      (keeps_of_phase active nofun) (fun _ _ phase => by cases phase)
    · intro _ member
      exact TreeSet.mem_toList.mp member
    · intro _
      exact (pending_of_active active).symm
    · intro _ endLsn
      exact iff_of_false (not_stamped (.prestamping _) rfl nofun endLsn) (not_stamped _ active nofun endLsn)

theorem Coherent.aborts (taken : state.abort id = some next) : Coherent next owner horizon := by
  rcases closes_eq_some taken with ⟨txn, present, active, ⟨reads, rfl⟩ | ⟨writes, rfl⟩⟩
  · exact inv.readerEnds present reads
  · refine @movesOn Value state owner horizon id txn state.sequencer _ inv (noGc txn present writes)
      present writes rfl le_rfl ?_ (fun _ _ _ phase => by cases phase) ?_ ?_
      (keeps_of_phase active nofun) (fun _ _ phase => by cases phase)
    · exact ⟨nodup_toList txn.modified, fun key member => TreeSet.mem_toList.mp member⟩
    · intro key
      rw [pending_of_active active]
      exact TreeSet.mem_toList
    · intro key endLsn
      exact iff_of_false (not_stamped (.resolving _) rfl nofun endLsn) (not_stamped _ active nofun endLsn)

end

/-- The row of a pending key, when a pass of the commit or the abort comes to it. -/
theorem Coherent.visits (present : state.txns[id]? = some txn)
    (pending : txn.pending key) : ∃ row, state.Taken owner horizon key id txn row ∧
      row.ownedBy id = true ∧ row.intentLsn = txn.readLsn := by
  rcases inv.taken_of_takes present (.inl pending) with ⟨row, taken⟩
  exact ⟨row, taken, taken.owned pending⟩

theorem Coherent.prestamps
    (taken : state.prestamp id = some next) : Coherent next owner horizon := by
  rcases prestamp_eq_some taken with ⟨txn, key, rest, present, phase, outcome⟩
  rcases inv.busy present phase rfl with ⟨writes, idle, noGc, phaseOk, pendingBefore⟩
  have keepsOn : txn.keeps := keeps_of_phase phase nofun
  rcases inv.visits present ((pendingBefore key).mpr (phaseOk key mem_cons_self)) with
    ⟨row, holds, owned, lsn⟩
  rcases outcome with ⟨_, stored, _, rfl⟩ | ⟨foreign, _⟩
  · cases stored.symm.trans holds.stored
    refine inv.advances noGc present writes ?_ ?_ idle ?_ ?_ le_rfl
      (fun _ _ _ stamping => by cases stamping) (some key) ?_ (fun _ => keepsOn) ?_
      (fun _ _ inserting => by cases inserting)
    · rfl
    · rfl
    · exact fun other member => phaseOk other (mem_cons_of_mem key member)
    · rfl
    · intro other different
      refine ⟨lookup_insert_of_ne _ _ (fun same => different (congrArg some same)),
        (pendingBefore other).symm, ?_, rfl⟩
      intro endLsn
      exact iff_of_false (not_stamped (.prestamping rest) rfl nofun endLsn) (not_stamped _ phase nofun endLsn)
    · intro other same
      cases same
      have isPending : Txn.pending { txn with phase := .prestamping rest } key :=
        phaseOk key mem_cons_self
      refine ⟨.inr ⟨{ row with commitLsn := 1 }, ?_, ?_, holds.leads, .inl ⟨isPending, owned, lsn⟩, ?_⟩,
        fun _ _ _ => .inr (.inl isPending)⟩
      · exact TreeMap.getElem?_insert_self
      · exact TreeMap.getElem?_insert_self
      · exact fun _ => holds.shows keepsOn
  · rw [foreign row holds.stored] at owned
    cases owned

theorem Coherent.reserves {pages : Nat}
    (fits : pages ≠ 0 ∧ pages ≤ Sequencer.maxWritesPerTxn ∧ id ≠ 0)
    (taken : state.reserve id pages = some next) : Coherent next owner horizon := by
  rcases reserve_eq_some taken with ⟨txn, present, phase, ⟨fails, _⟩ | ⟨endLsn, _, _, rfl⟩⟩
  · rcases fails with empty | large | anonymous
    · exact absurd empty fits.1
    · exact absurd large fits.2.1.not_gt
    · exact absurd anonymous fits.2.2
  rcases inv.busy present phase rfl with ⟨writes, idle, noGc, _, pendingBefore⟩
  have grows : state.sequencer.nextLsn < endLsn := by omega
  have sameTxn : ({ txn with phase := .stamping state.sequencer.nextLsn endLsn txn.modified.toList } :
      Txn Value) = { txn with
        phase := .stamping state.sequencer.nextLsn endLsn txn.modified.toList, reading := .idle } := by
    rw [← idle]
  rw [sameTxn]
  refine inv.movesOn noGc present writes ?_ grows.le ?_ ?_ ?_ ?_ ?_ (fun _ _ inserting => by cases inserting)
  · rfl
  · exact ⟨nodup_toList txn.modified, fun key member => TreeSet.mem_toList.mp member⟩
  · intro _ lastLsn _ same
    cases same
    exact ⟨inv.lsn.durable.trans_lt grows, le_rfl⟩
  · exact fun key => TreeSet.mem_toList.trans (pendingBefore key).symm
  · intro key lastLsn
    constructor
    · rintro ⟨modified, _, _, same, notRest⟩
      cases same
      exact absurd (TreeSet.mem_toList.mpr modified) notRest
    · exact fun stamped => absurd stamped (not_stamped _ phase nofun lastLsn)
  · exact keeps_of_phase phase nofun

theorem Coherent.stamps (taken : state.stamp id = some next) : Coherent next owner horizon := by
  rcases stamp_eq_some taken with ⟨txn, startLsn, endLsn, key, rest, present, phase, outcome⟩
  rcases inv.busy present phase rfl with ⟨writes, idle, noGc, ⟨distinct, modified⟩, pendingBefore⟩
  rcases nodup_cons.mp distinct with ⟨notRest, restDistinct⟩
  have keepsOn : txn.keeps := keeps_of_phase phase nofun
  rcases inv.visits present ((pendingBefore key).mpr mem_cons_self) with ⟨row, holds, owned, _⟩
  rcases outcome with ⟨_, stored, _, rfl⟩ | ⟨_, stored, foreign, _⟩ | ⟨missing, _⟩
  · cases stored.symm.trans holds.stored
    refine inv.advances noGc present writes ?_ ?_ idle ?_ ?_ le_rfl ?_ (some key) ?_ (fun _ => keepsOn) ?_
      (fun _ _ inserting => by cases inserting)
    · rfl
    · rfl
    · exact ⟨restDistinct, fun other member => modified other (mem_cons_of_mem key member)⟩
    · rfl
    · intro _ _ _ same
      cases same
      exact inv.lsn.stamping id txn startLsn endLsn (key :: rest) present phase
    · intro other different
      have apart : key ≠ other := fun same => different (congrArg some same)
      have inRest : other ∈ rest <-> other ∈ key :: rest := by
        rw [mem_cons]
        exact (or_iff_right (Ne.symm apart)).symm
      refine ⟨lookup_insert_of_ne _ _ apart, inRest.trans (pendingBefore other).symm, ?_, rfl⟩
      intro _
      constructor
      · rintro ⟨isModified, _, _, same, outside⟩
        cases same
        exact ⟨isModified, startLsn, key :: rest, phase, fun inside => outside (inRest.mpr inside)⟩
      · rintro ⟨isModified, _, _, same, outside⟩
        rw [phase] at same
        cases same
        exact ⟨isModified, startLsn, rest, rfl, fun inside => outside (inRest.mp inside)⟩
    · intro other same
      cases same
      have isStamped : Txn.stamped { txn with phase := .stamping startLsn endLsn rest } key endLsn :=
        ⟨modified key mem_cons_self, startLsn, rest, rfl, notRest⟩
      refine ⟨.inr ⟨stampedRow row endLsn, ?_, ?_, holds.leads,
        .inr ⟨endLsn, isStamped, rfl, rfl⟩, ?_⟩, fun _ _ _ => .inr (.inr ⟨endLsn, isStamped⟩)⟩
      · exact TreeMap.getElem?_insert_self
      · exact TreeMap.getElem?_insert_self
      · exact fun _ => holds.shows keepsOn
  · cases stored.symm.trans holds.stored
    rw [owned] at foreign
    cases foreign
  · rw [holds.stored] at missing
    cases missing

end Steps

/-- What an abort finds behind the pointer of an intent. -/
theorem restorePoint_of_leads {undo : UndoLog Value} {fuel : Nat} {ptr : Option UndoPtr}
    {history : List (Nat × Option Value)} {result : Except Error (Option (UndoRecord Value))}
    (leads : undo.Leads owner horizon id history ptr)
    (walked : restorePoint undo fuel ptr = some result) :
    (ptr = none ∧ result = .ok none ∧
        ∀ readLsn, horizon ≤ readLsn -> visibleAt history readLsn = none) ∨
      ∃ record older, result = .ok (some record) ∧ record.oldFlags.intent = false ∧
        0 < record.oldCommitLsn ∧ history = (record.oldCommitLsn, record.visible) :: older ∧
        undo.Behind owner horizon record.prev record.oldCommitLsn older := by
  cases fuel with
  | zero => cases walked
  | succ =>
    cases ptr with
    | none =>
      cases walked
      exact .inl ⟨rfl, rfl, leads⟩
    | some ptr =>
      rcases leads with ⟨_, record, older, _, _, ⟨stored, version, positive, shape⟩, behind⟩
      rcases UndoLog.recordAt_eq_some.mp stored with ⟨page, found, inside⟩
      have readOk : page.readRecord ptr.slotId = .ok record := by
        unfold UndoPage.readRecord
        rw [inside]
      unfold restorePoint at walked
      rw [found] at walked
      dsimp only at walked
      rw [readOk] at walked
      dsimp only at walked
      rw [version, if_neg Bool.false_ne_true] at walked
      cases walked
      exact .inr ⟨record, older, rfl, version, positive, shape, behind⟩

theorem Coherent.resolves {fuel : Nat} (inv : Coherent state owner horizon)
    (taken : state.resolve id fuel = some next) : Coherent next owner horizon := by
  rcases resolve_eq_some taken with ⟨txn, present, ⟨phase, rfl⟩ | ⟨key, rest, phase, outcome⟩⟩
  · apply inv.ends
    intro found lookup key
    cases present.symm.trans lookup
    rintro (pending | ⟨_, _, _, _, stamping, _⟩)
    · unfold Txn.pending at pending
      rw [phase] at pending
      cases pending
    · rw [phase] at stamping
      cases stamping
  rcases inv.busy present phase rfl with ⟨writes, idle, noGc, ⟨distinct, modified⟩, pendingBefore⟩
  rcases nodup_cons.mp distinct with ⟨notRest, restDistinct⟩
  rcases inv.visits present ((pendingBefore key).mpr mem_cons_self) with ⟨row, holds, owned, _⟩
  rcases outcome with ⟨foreign, _⟩ | ⟨found, stored, _, outcome⟩
  · rw [foreign row holds.stored] at owned
    cases owned
  cases stored.symm.trans holds.stored
  rcases outcome with ⟨_, walked, _⟩ | ⟨point, walked, rfl⟩
  · rcases restorePoint_of_leads holds.leads walked with ⟨_, impossible, _⟩ | ⟨_, _, impossible, _⟩
    · cases impossible
    · cases impossible
  -- the row goes back to the version that the write has replaced
  have restored : (∀ other, key ≠ other ->
        (restore state.tree key row point)[other]? = state.tree[other]?) ∧
      VersionOk ({ state with tree := restore state.tree key row point }.setTxn id
        { txn with phase := .resolving rest }) owner horizon key := by
    rcases restorePoint_of_leads holds.leads walked with
      ⟨noPtr, isPoint, empty⟩ | ⟨record, older, isPoint, _, positive, shape, behind⟩
    · cases isPoint
      have erased : restore state.tree key row none = state.tree.erase key := if_pos noPtr
      rw [erased]
      refine ⟨fun other apart => (lookup_erase _ _ _).trans (if_neg apart), .inl ⟨?_, empty⟩⟩
      exact (lookup_erase state.tree key key).trans (if_pos rfl)
    · cases isPoint
      have inserted : restore state.tree key row (some record) =
          state.tree.insert key (restoredRow record) := if_neg (fun unborn => positive.ne' unborn.1)
      rw [inserted]
      refine ⟨fun other apart => lookup_insert_of_ne _ _ apart, .inr ⟨restoredRow record, older, ?_,
        rfl, positive, shape, behind⟩⟩
      exact TreeMap.getElem?_insert_self
  refine inv.advances noGc present writes ?_ ?_ idle ?_ ?_ le_rfl
    (fun _ _ _ stamping => by cases stamping) (some key) ?_ ?_ ?_
    (fun _ _ inserting => by cases inserting)
  · rfl
  · rfl
  · exact ⟨restDistinct, fun other member => modified other (mem_cons_of_mem key member)⟩
  · rfl
  · intro other different
    have apart : key ≠ other := fun same => different (congrArg some same)
    refine ⟨restored.1 other apart, ?_, ?_, rfl⟩
    · exact (or_iff_right (Ne.symm apart)).symm.trans (mem_cons.symm.trans (pendingBefore other).symm)
    · intro endLsn
      exact iff_of_false (not_stamped (.resolving rest) rfl nofun endLsn) (not_stamped _ phase nofun endLsn)
  · intro keeps
    exact absurd rfl (keeps rest)
  · intro other same
    cases same
    refine ⟨.inl ⟨?_, restored.2⟩, fun _ keeps => absurd rfl (keeps rest)⟩
    intro _ found lookup
    rcases lookup_insert_cases lookup with ⟨rfl, rfl⟩ | ⟨different, old⟩
    · rintro (pending | ⟨_, _, _, _, stamping, _⟩)
      · exact notRest pending
      · cases stamping
    · exact (inv.txns.others_free present writes old different).2.1

/-! ## Shipping -/

/-- The step of a commit that ships its batch. -/
structure Shipped (state next : Embedded Value) (owner : PageId -> Owner) (horizon : Nat) (id : TxnId)
    (txn : Txn Value) (startLsn endLsn : Nat) : Prop where
  present : state.txns[id]? = some txn
  phase : txn.phase = .stamping startLsn endLsn []
  writes : txn.readOnly = false
  younger : state.sequencer.durableLsn < endLsn
  bounded : endLsn ≤ state.sequencer.nextLsn
  undo : next.undo.Inv owner
  undoTxns : next.undo.txns = state.undo.txns.erase id
  undoHistory : next.undo.history = state.undo.history ++ state.undo.newSegment id endLsn
  keeps : UndoLog.Keeps state.undo owner horizon state.sequencer.durableLsn next.undo owner
  tree : next.tree = state.tree
  durable : next.sequencer.durableLsn = endLsn
  nextLsn : next.sequencer.nextLsn = state.sequencer.nextLsn
  activeReads : next.activeReads = state.activeReads.erase id
  txns : next.txns = state.txns.erase id
  gc : next.gc = state.gc
  history : ∀ key, next.history key =
    match txn.writes[key]? with
    | some value => (endLsn, value) :: state.history key
    | none => state.history key

/-- The undo log takes the segment of the commit, so that the step goes through. -/
theorem Coherent.shipped (inv : Coherent state owner horizon) (taken : state.ship id true = some next) :
    ∃ txn startLsn endLsn, Shipped state next owner horizon id txn startLsn endLsn := by
  rcases ship_eq_some taken with ⟨txn, startLsn, endLsn, present, phase, _⟩
  refine ⟨txn, startLsn, endLsn, ?_⟩
  rcases inv.lsn.stamping id txn startLsn endLsn [] present phase with ⟨younger, bounded⟩
  cases isOwn : state.undo.txns[id]? with
  | none =>
    rw [(inv.log.synced id).mpr isOwn] at present
    cases present
  | some own =>
    rcases inv.log.undo.inProgress id own isOwn with ⟨_, owned, _⟩
    have current : state.undo.ownMetaCurrent (.commit id startLsn endLsn) := by
      show (state.undo.txns[id]?.bind TxnUndo.dirtyMeta).all
        (fun staged => staged = state.undo.store.metaPage) = true
      rw [isOwn, bind_some]
      cases staged : own.dirtyMeta with
      | none => rfl
      | some metaPage =>
        rw [all_some, decide_eq_true_eq]
        exact (inv.log.metaCurrent id own metaPage isOwn staged).1
    rcases inv.log.undo.commit_keeps current isOwn owned with
      ⟨undo, committed, undoInv, undoTxns, _, undoHistory, kept⟩
    have run : state.ship id true = some (state.publish id txn endLsn undo) := by
      unfold ship
      simp only [present, phase, committed, bind, Option.bind, pure, if_true]
    cases taken.symm.trans run
    exact ⟨present, phase, (inv.busy present phase rfl).1, younger, bounded, undoInv, undoTxns,
      undoHistory, UndoLog.Keeps.of_commit younger undoHistory kept, rfl, max_eq_right younger.le,
      rfl, rfl, rfl, rfl, fun key => lookup_addVersions _ _ _ key⟩

namespace Shipped

variable {startLsn endLsn : Nat}

section

variable (shipped : Shipped state next owner horizon id txn startLsn endLsn)

include shipped

theorem lookup {other : TxnId} {found : Txn Value} (present : next.txns[other]? = some found) :
    other ≠ id ∧ state.txns[other]? = some found := by
  rw [shipped.txns] at present
  exact lookup_erase_cases present

theorem reader (inv : Coherent state owner horizon) {other : TxnId} {found : Txn Value}
    (present : next.txns[other]? = some found) :
    found.phase = .active ∧ ¬found.takes key ∧ found.writes[key]? = none := by
  rcases shipped.lookup present with ⟨different, old⟩
  exact inv.txns.others_free shipped.present shipped.writes old different

end

section

variable (shipped : Shipped state next owner horizon id txn startLsn endLsn)

include shipped

theorem sameVisible (key : Key) {readLsn : Nat} (below : readLsn ≤ state.sequencer.durableLsn) :
    visibleAt (next.history key) readLsn = visibleAt (state.history key) readLsn := by
  rw [shipped.history]
  split
  · exact visibleAt_cons_of_lt (below.trans_lt shipped.younger) _ _
  · rfl

variable (inv : Coherent state owner horizon)

include inv

theorem logOk : LogOk next owner := by
  have keptUndo : ∀ (other : TxnId) own, next.undo.txns[other]? = some own ->
      other ≠ id ∧ state.undo.txns[other]? = some own := by
    intro other own found
    rw [shipped.undoTxns] at found
    exact lookup_erase_cases found
  constructor
  · exact shipped.undo
  · intro other
    rw [shipped.txns, shipped.undoTxns, lookup_erase, lookup_erase]
    split
    · exact ⟨fun _ => rfl, fun _ => rfl⟩
    · exact inv.log.synced other
  · intro other found present
    rcases shipped.lookup present with ⟨different, old⟩
    rw [shipped.activeReads, lookup_erase, if_neg (Ne.symm different)]
    exact inv.log.registered other found old
  · intro other own metaPage found staged
    rcases keptUndo other own found with ⟨different, old⟩
    rcases inv.log.metaCurrent other own metaPage old staged with ⟨_, writer, writerFound, isWriter⟩
    exact absurd (inv.txns.single other id writer txn writerFound shipped.present isWriter shipped.writes)
      different
  · intro other own _ _ _ found present cached
    exact inv.log.caches_kept inv.lsn shipped.keeps (keptUndo other own found).2
      (shipped.lookup present).2 cached

theorem lsnOk : LsnOk next horizon := by
  have rises : state.sequencer.durableLsn ≤ next.sequencer.durableLsn :=
    shipped.younger.le.trans shipped.durable.ge
  constructor
  · exact inv.lsn.settled.trans rises
  · exact shipped.durable.le.trans (shipped.bounded.trans shipped.nextLsn.ge)
  · intro other readLsn found
    rw [shipped.activeReads] at found
    exact (inv.lsn.snapshots other readLsn (lookup_erase_cases found).2).trans rises
  · intro other found present
    rcases inv.lsn.reads other found (shipped.lookup present).2 with ⟨above, below⟩
    exact ⟨above, below.trans rises⟩
  · intro other found _ _ _ present stamping
    rw [(@reader Value state next owner horizon id txn (Key.ofNat 0) startLsn endLsn shipped inv other
      found present).1] at stamping
    cases stamping
  · intro key
    rcases inv.lsn.versions key with ⟨descending, below⟩
    rw [shipped.history]
    split
    · refine ⟨pairwise_cons.mpr ⟨?_, descending⟩, ?_⟩
      · exact fun version member => (below version member).trans_lt shipped.younger
      · intro version member
        rcases mem_cons.mp member with rfl | old
        · exact shipped.durable.ge
        · exact (below version old).trans rises
    · exact ⟨descending, fun version member => (below version member).trans rises⟩

theorem txnsOk : TxnsOk next := by
  constructor
  · intro first second writer other foundFirst foundSecond
    exact inv.txns.single first second writer other (shipped.lookup foundFirst).2
      (shipped.lookup foundSecond).2
  · exact fun other found present => inv.txns.readers other found (shipped.lookup present).2
  · exact fun other found present => inv.txns.idle other found (shipped.lookup present).2
  · exact fun other found present => inv.txns.phases other found (shipped.lookup present).2

theorem versionOfTaken (keepsOn : txn.keeps) (takes : txn.takes key) :
    VersionOk next owner horizon key := by
  rcases inv.taken_of_takes shipped.present takes with ⟨row, holds⟩
  unfold VersionOk
  rw [shipped.history, shipped.tree, holds.shows keepsOn]
  right
  rcases holds.place with ⟨pending, _⟩ | ⟨_, ⟨_, _, _, stamping, _⟩, version, stamp⟩
  · unfold Txn.pending at pending
    rw [shipped.phase] at pending
    cases pending
  · rw [shipped.phase] at stamping
    cases stamping
    refine ⟨row, state.history key, holds.stored, version, ?_, ?_, ?_⟩
    · rw [stamp]
      exact (Nat.zero_le _).trans_lt shipped.younger
    · rw [stamp]
    · rw [stamp]
      exact holds.leads.behind inv.log.undo shipped.keeps shipped.undoHistory

/-- A key that the commit does not take keeps its row.  The transaction may have
deleted it where there was no row. -/
theorem versionOfFree (keepsOn : txn.keeps) (free : ¬txn.takes key) :
    VersionOk next owner horizon key := by
  have quiet : state.Quiet owner horizon key := by
    apply inv.rows.quiet_of_free
    intro other _ present
    by_cases same : other = id
    · subst same
      cases shipped.present.symm.trans present
      exact free
    · exact (inv.txns.others_free shipped.present shipped.writes present same).2.1
  have history := shipped.history key
  cases written : txn.writes[key]? with
  | none =>
    rw [written] at history
    exact quiet.version.keeps inv.log.undo history (by rw [shipped.tree]) shipped.keeps
  | some value =>
    rw [written] at history
    rcases inv.rows.written id txn key value shipped.present keepsOn written with
      ⟨missing, rfl⟩ | impossible
    · rcases quiet.version with ⟨_, empty⟩ | ⟨_, _, stored, _⟩
      · refine .inl ⟨shipped.tree ▸ missing, ?_⟩
        intro readLsn above
        rw [history]
        by_cases covered : endLsn ≤ readLsn
        · exact visibleAt_cons_of_le covered _ _
        · exact (visibleAt_cons_of_lt (lt_of_not_ge covered) _ _).trans (empty readLsn above)
      · rw [missing] at stored
        cases stored
    · exact absurd impossible free

theorem rowsOk : RowsOk next owner horizon := by
  have keepsOn : txn.keeps := keeps_of_phase shipped.phase nofun
  constructor
  · intro key
    refine .inl ⟨fun other found present => (shipped.reader inv present).2.1, ?_⟩
    by_cases takes : txn.takes key
    · exact shipped.versionOfTaken inv keepsOn takes
    · exact shipped.versionOfFree inv keepsOn takes
  · intro other found key _ present _ written
    rw [(shipped.reader inv present).2.2] at written
    cases written
  · intro other found key _ present inserting
    rw [(@reader Value state next owner horizon id txn key startLsn endLsn shipped inv other found
      present).1] at inserting
    cases inserting

theorem readingsOk : ReadingsOk next owner horizon := by
  intro other found present
  rcases shipped.lookup present with ⟨_, old⟩
  rcases inv.lsn.reads other found old with ⟨above, below⟩
  have ok := inv.readings other found old
  unfold ReadingOk at ok ⊢
  split
  · next key _ answered =>
    rw [answered] at ok
    rw [ok]
    unfold expected
    rw [(shipped.reader inv present).2.2]
    exact (shipped.sameVisible key below).symm
  · next key _ walking =>
    rw [walking] at ok
    exact ⟨ok.1, ok.2.keeps inv.log.undo le_rfl above below (shipped.sameVisible key below)
      shipped.keeps⟩
  · trivial

end

end Shipped

theorem Coherent.ships (inv : Coherent state owner horizon) (taken : state.ship id true = some next) :
    Coherent next owner horizon := by
  rcases inv.shipped taken with ⟨_, _, _, shipped⟩
  have noGc := (inv.busy shipped.present shipped.phase rfl).2.2.1
  exact ⟨shipped.logOk inv, shipped.lsnOk inv, shipped.txnsOk inv, shipped.rowsOk inv,
    shipped.readingsOk inv, GcOk.of_none (shipped.gc.trans noGc)⟩

end Embedded
end Compute
end ScaleKv
