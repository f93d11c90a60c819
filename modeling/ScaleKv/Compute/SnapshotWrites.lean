import ScaleKv.Compute.SnapshotSteps

namespace ScaleKv
namespace Compute
namespace Embedded

open Foundation OrderedMap

variable {Value : Type} {state next : Embedded Value} {owner owner' : PageId -> Owner}
  {horizon : Nat} {id : TxnId} {txn after : Txn Value} {key : Key}

/-!
# Steps of the writer

A write saves the version that it replaces and takes the key.
-/

theorem TxnsOk.others_free (txns : TxnsOk state) (present : state.txns[id]? = some txn)
    (writes : txn.readOnly = false) {other : TxnId} {reader : Txn Value}
    (found : state.txns[other]? = some reader) (different : other ≠ id) :
    reader.phase = .active ∧ ¬reader.takes key ∧ reader.writes[key]? = none := by
  have reads : reader.readOnly = true := by
    cases isReader : reader.readOnly with
    | true => rfl
    | false => exact absurd (txns.single other id reader txn found present isReader writes) different
  rcases txns.readers other reader found reads with ⟨active, nothing, unwritten⟩
  exact ⟨active, not_takes_of_unmodified active nothing, unwritten key⟩

variable {tree : Std.TreeMap Key (Row Value)} {sequencer : Sequencer} {undo : UndoLog Value}

/-- A step of the writer that leaves the undo log alone, by what it does to the
row of one key. -/
theorem Coherent.advances (inv : Coherent state owner horizon) (noGc : state.gc = none)
    (present : state.txns[id]? = some txn) (writes : txn.readOnly = false)
    (sameLsn : after.readLsn = txn.readLsn) (sameKind : after.readOnly = txn.readOnly)
    (idle : after.reading = .idle) (phase : PhaseOk after)
    (durable : sequencer.durableLsn = state.sequencer.durableLsn)
    (grows : state.sequencer.nextLsn ≤ sequencer.nextLsn)
    (stamping : ∀ startLsn endLsn rest, after.phase = .stamping startLsn endLsn rest ->
      state.sequencer.durableLsn < endLsn ∧ endLsn ≤ sequencer.nextLsn)
    (changed : Option Key)
    (elsewhere : ∀ key, changed ≠ some key -> tree[key]? = state.tree[key]? ∧
      (after.pending key <-> txn.pending key) ∧
      (∀ endLsn, after.stamped key endLsn <-> txn.stamped key endLsn) ∧
      after.writes[key]? = txn.writes[key]?) (keeps : after.keeps -> txn.keeps)
    (here : ∀ key, changed = some key ->
      (Quiet ({ state with tree := tree, sequencer := sequencer }.setTxn id after) owner horizon key ∨
        ∃ row, Taken ({ state with tree := tree, sequencer := sequencer }.setTxn id after) owner
          horizon key id after row) ∧
      ∀ value, after.keeps -> after.writes[key]? = some value ->
        (tree[key]? = none ∧ value = none) ∨ after.takes key)
    (notInserting : ∀ key row, after.phase ≠ .inserting key row) :
    Coherent ({ state with tree := tree, sequencer := sequencer }.setTxn id after) owner horizon := by
  have change : Changes state ({ state with tree := tree, sequencer := sequencer }.setTxn id after)
      owner owner horizon id txn after := Changes.of_setTxn after present sameLsn sameKind tree sequencer
  refine ⟨inv.log.change change rfl, inv.lsn.change change durable grows stamping, ?_, ?_, ?_,
    GcOk.of_none noGc⟩
  · apply inv.txns.change change _ (.inr idle) phase
    intro reads
    rw [sameKind, writes] at reads
    cases reads
  · refine inv.rows.change inv.log.undo change changed elsewhere keeps here ?_ ?_
    · intro other writer found different key _
      rcases @TxnsOk.others_free Value state id txn key inv.txns present writes other writer found
          different with ⟨_, free, unwritten⟩
      exact ⟨free, fun _ => unwritten⟩
    · intro key row phase
      exact absurd phase (notInserting key row)
  · apply inv.readings.change change inv.log.undo inv.lsn
    unfold ReadingOk
    rw [idle]
    trivial

/-! ## Writes -/

theorem Coherent.resets (inv : Coherent state owner horizon) (present : state.txns[id]? = some txn) :
    Coherent (state.setTxn id { txn with reading := .idle }) owner horizon :=
  inv.reads present (.inr rfl) trivial

theorem LogOk.caches_kept (log : LogOk state owner) (lsn : LsnOk state horizon)
    (keeps : UndoLog.Keeps state.undo owner horizon state.sequencer.durableLsn undo owner')
    {own : TxnUndo Value} {reader : Txn Value} {page : PageId} {image : UndoPage Value}
    (isOwn : state.undo.txns[id]? = some own) (present : state.txns[id]? = some reader)
    (cached : own.roCache[page]? = some image) :
    undo.Safe owner' reader.readLsn page ∧ ∀ slot record,
      image.records[slot]? = some record -> undo.recordAt ⟨page, slot⟩ = some record := by
  rcases log.roCaches id own reader page image isOwn present cached with ⟨safe, records⟩
  rcases lsn.reads id reader present with ⟨above, below⟩
  refine ⟨safe.keeps above below keeps, ?_⟩
  intro slot record inside
  rcases safe with ⟨holder, isOwner, _⟩
  exact keeps.records ⟨page, slot⟩ record holder isOwner (records slot record inside)

variable (inv : Coherent state owner horizon) {tombstone : Bool} {value : Value}

include inv

/-- The pointer of the row that a write inserts leads to the history of the key,
after the version on top has been saved. -/
theorem Coherent.leads_of_write {row : Row Value}
    (present : state.txns[id]? = some txn) (writes : txn.readOnly = false)
    (active : txn.phase = .active)
    (decided : intentRow state.undo id txn.readLsn value tombstone state.tree[key]? =
      some (.ok (row, undo))) :
    row.intentLsn = txn.readLsn ∧
      ((undo = state.undo ∧ state.undo.Leads owner horizon id (state.history key) row.undoPtr) ∨
        ∃ owner' ptr, undo.Inv owner' ∧
          UndoLog.Keeps state.undo owner horizon state.sequencer.durableLsn undo owner' ∧
          UndoLog.Grows state.undo id ptr undo ∧
          undo.Leads owner' horizon id (state.history key) row.undoPtr) := by
  rcases intentRow_eq_ok decided with ⟨_, _, ⟨missing, noPtr, lsn, same⟩ |
    ⟨old, stored, ⟨owned, ptr, lsn, same⟩ | ⟨version, lsn, ptr, isPtr, appended⟩⟩⟩
  · -- there is no row, so the key has no version that a snapshot could see
    refine ⟨lsn, .inl ⟨same, ?_⟩⟩
    rw [noPtr]
    rcases inv.rows.rows key with quiet | ⟨_, _, _, taken⟩
    · rcases quiet.version with ⟨_, empty⟩ | ⟨_, _, stored, _⟩
      · exact empty
      · rw [missing] at stored
        cases stored
    · rw [taken.stored] at missing
      cases missing
  · -- the row is an intent of the transaction itself
    rcases (Row.ownedBy_iff _ _).mp owned with ⟨intent, isOwner⟩
    rcases inv.rows.rows key with quiet | ⟨other, _, _, taken⟩
    · rcases quiet.version with ⟨missing, _⟩ | ⟨_, _, foundStored, isVersion, _⟩
      · rw [stored] at missing
        cases missing
      · cases stored.symm.trans foundStored
        rw [intent] at isVersion
        cases isVersion
    · cases stored.symm.trans taken.stored
      rcases taken.place with ⟨_, ownedOther, sameLsn⟩ | ⟨_, _, isVersion, _⟩
      · have sameId : other = id := ((Row.ownedBy_iff _ _).mp ownedOther).2.symm.trans isOwner
        subst sameId
        cases present.symm.trans taken.present
        refine ⟨lsn.trans sameLsn, .inl ⟨same, ?_⟩⟩
        rw [ptr]
        exact taken.leads
      · rw [intent] at isVersion
        cases isVersion
  · -- the row is a version, which the new record saves
    refine ⟨lsn, .inr ?_⟩
    have quiet : state.Quiet owner horizon key := by
      rcases inv.rows.rows key with quiet | ⟨other, writer, _, taken⟩
      · exact quiet
      · exfalso
        cases stored.symm.trans taken.stored
        rcases taken.place with ⟨_, owned, _⟩ | ⟨_, ⟨_, _, _, stamping, _⟩, _⟩
        · rw [((Row.ownedBy_iff _ _).mp owned).1] at version
          cases version
        · have sameId := inv.txns.single other id writer txn taken.present present
            (inv.txns.writer_of_takes taken.present taken.takes) writes
          subst sameId
          cases present.symm.trans taken.present
          rw [active] at stamping
          cases stamping
    rcases quiet.version with ⟨missing, _⟩ | ⟨_, older, foundStored, _, positive, shape, behind⟩
    · rw [stored] at missing
      cases missing
    · cases stored.symm.trans foundStored
      cases isOwn : state.undo.txns[id]? with
      | none =>
        rw [(inv.log.synced id).mpr isOwn] at present
        cases present
      | some =>
        rcases inv.log.undo.append_keeps isOwn old.undoPtr old.commitLsn old.flags old.value horizon
            state.sequencer.durableLsn with
          ⟨_, _, owner', record, called, kept, keeps, grows, recorded, prev, oldLsn,
            oldFlags, oldValue⟩
        rw [called] at appended
        cases appended
        refine ⟨owner', ptr, kept, keeps, grows, ?_⟩
        rw [isPtr]
        rcases grows.pages with ⟨_, grownIds, _, isGrown, inside, _⟩
        have visible : record.visible = old.visible := by
          unfold UndoRecord.visible Row.visible
          rw [oldFlags, oldValue]
        refine ⟨grownIds, record, older, isGrown, inside, ⟨recorded, ?_, ?_, ?_⟩, ?_⟩
        · rw [oldFlags]
          exact version
        · rw [oldLsn]
          exact positive
        · rw [oldLsn, visible]
          exact shape
        · rw [prev, oldLsn]
          exact behind.keeps inv.log.undo le_rfl keeps

theorem Coherent.writes (noGc : state.gc = none)
    (taken : state.write id key value tombstone = some next) :
    ∃ owner', Coherent next owner' horizon := by
  rcases write_eq_some taken with
    ⟨txn, present, writes, active, ⟨_, _, rfl⟩ | ⟨row, undo, decided, rfl⟩⟩
  · exact ⟨owner, inv.resets present⟩
  have owned := (intentRow_eq_ok decided).1
  rcases inv.leads_of_write present writes active decided with ⟨lsn, outcome⟩
  -- both outcomes change the undo log in a way that keeps the chains
  have kept : ∃ owner', undo.Inv owner' ∧
      UndoLog.Keeps state.undo owner horizon state.sequencer.durableLsn undo owner' ∧
      undo.Leads owner' horizon id (state.history key) row.undoPtr ∧
      (undo = state.undo ∨ ∃ ptr, UndoLog.Grows state.undo id ptr undo) := by
    rcases outcome with ⟨rfl, leads⟩ | ⟨owner', ptr, undoInv, keeps, grows, leads⟩
    · exact ⟨owner, inv.log.undo, UndoLog.Keeps.of_same rfl rfl, leads, .inl rfl⟩
    · exact ⟨owner', undoInv, keeps, leads, .inr ⟨ptr, grows⟩⟩
  rcases kept with ⟨owner', undoInv, keeps, leads, growth⟩
  have allocated : ∀ (other : TxnId) ids, state.undo.allocated[other]? = some ids ->
      ∃ grown, undo.allocated[other]? = some grown ∧ ∀ id ∈ ids, id ∈ grown := by
    intro other ids isAllocated
    rcases growth with rfl | ⟨_, grows⟩
    · exact ⟨ids, isAllocated, fun _ member => member⟩
    · by_cases same : other = id
      · subst same
        rcases grows.pages with ⟨_, grown, isBefore, isGrown, _, subset⟩
        cases isAllocated.symm.trans isBefore
        exact ⟨grown, isGrown, subset⟩
      · exact ⟨ids, ((grows.others other same).1).trans isAllocated, fun _ member => member⟩
  refine ⟨owner', ?_⟩
  have change : Changes state ({ state with undo := undo }.setTxn id
      { txn with phase := .inserting key row, reading := .idle }) owner owner' horizon id txn
      { txn with phase := .inserting key row, reading := .idle } :=
    ⟨present, fun other => lookup_insert state.txns id other _, rfl, rfl, rfl, rfl, keeps, allocated⟩
  have keepsOn : txn.keeps := keeps_of_phase active nofun
  refine ⟨?_, ?_, ?_, ?_, inv.readings.change change inv.log.undo inv.lsn trivial,
    GcOk.of_none noGc⟩
  · -- the undo log
    rcases growth with rfl | ⟨_, grows⟩
    · have log := inv.log.change (Changes.of_setTxn
        { txn with phase := .inserting key row, reading := .idle } present rfl rfl state.tree
        state.sequencer : Changes state _ owner owner horizon id txn _) rfl
      refine { log with undo := undoInv, roCaches := ?_ }
      intro other own found _ _ isOwn lookup cached
      rcases change.lookup_cases lookup with ⟨rfl, rfl⟩ | ⟨_, old⟩
      · have good := inv.log.caches_kept inv.lsn keeps isOwn present cached
        exact good
      · exact inv.log.caches_kept inv.lsn keeps isOwn old cached
    · rcases grows.own with ⟨_, _, isBefore, isGrown, sameCache, staged⟩
      constructor
      · exact undoInv
      · intro other
        by_cases same : other = id
        · subst same
          rw [change.lookup_self]
          show _ <-> undo.txns[other]? = none
          rw [isGrown]
          exact ⟨fun impossible => (by cases impossible), fun impossible => (by cases impossible)⟩
        · rw [change.lookup_other same]
          show _ <-> undo.txns[other]? = none
          rw [(grows.others other same).2]
          exact inv.log.synced other
      · intro other found lookup
        rcases change.lookup_cases lookup with ⟨rfl, rfl⟩ | ⟨_, old⟩
        · exact inv.log.registered other txn present
        · exact inv.log.registered other found old
      · intro other own metaPage isOwn stagedOwn
        by_cases same : other = id
        · subst same
          cases isGrown.symm.trans isOwn
          rw [staged] at stagedOwn
          cases stagedOwn
          exact ⟨rfl, _, change.lookup_self, writes⟩
        · -- nobody else has a META page of his own
          exfalso
          have isOwnBefore := ((grows.others other same).2).symm.trans isOwn
          rcases inv.log.metaCurrent other own metaPage isOwnBefore stagedOwn with
            ⟨_, writer, found, isWriter⟩
          exact same (inv.txns.single other id writer txn found present isWriter writes)
      · intro other own found _ _ isOwn lookup cached
        rcases change.lookup_cases lookup with ⟨rfl, rfl⟩ | ⟨different, old⟩
        · cases isGrown.symm.trans isOwn
          rw [sameCache] at cached
          have good := inv.log.caches_kept inv.lsn keeps isBefore present cached
          exact good
        · exact inv.log.caches_kept inv.lsn keeps
            (((grows.others other different).2).symm.trans isOwn) old cached
  · exact inv.lsn.change change rfl le_rfl (fun _ _ _ phase => by cases phase)
  · apply inv.txns.change change _ (.inr rfl) trivial
    intro reads
    rw [show _ = txn.readOnly from rfl, writes] at reads
    cases reads
  · refine inv.rows.change inv.log.undo change none ?_ (fun _ => keepsOn) ?_ ?_ ?_
    · intro other _
      refine ⟨rfl, (pending_of_active active).symm, ?_, rfl⟩
      intro endLsn
      exact iff_of_false (not_stamped (.inserting key row) rfl nofun endLsn) (not_stamped _ active nofun endLsn)
    · intro other impossible
      cases impossible
    · intro _ _ _ _ other impossible
      cases impossible
    · intro _ _ phase
      cases phase
      exact ⟨owned, lsn, leads⟩

theorem Coherent.deletesNothing (noGc : state.gc = none) (present : state.txns[id]? = some txn)
    (writes : txn.readOnly = false) (active : txn.phase = .active)
    (missing : state.tree[key]? = none) :
    Coherent (state.setTxn id { txn with reading := .idle, writes := txn.writes.insert key none })
      owner horizon := by
  refine inv.advances noGc present writes ?_ ?_ ?_ (inv.txns.phases id txn present) ?_ le_rfl
    (fun startLsn endLsn rest phase => inv.lsn.stamping id txn startLsn endLsn rest present phase)
    (some key) ?_ (fun keeps => keeps) ?_ ?_
  · rfl
  · rfl
  · rfl
  · rfl
  · intro _ different
    refine ⟨rfl, Iff.rfl, fun _ => Iff.rfl, ?_⟩
    exact lookup_insert_of_ne _ _ (fun same => different (congrArg some same))
  · intro _ same
    cases same
    constructor
    · rcases inv.rows.rows key with quiet | ⟨_, _, _, taken⟩
      · exact .inl ⟨forall_insert (quiet.free id txn present) quiet.free, quiet.version⟩
      · rw [taken.stored] at missing
        cases missing
    · intro value _ written
      have isNone : (txn.writes.insert key none)[key]? = some value := written
      rw [lookup_insert, if_pos rfl] at isNone
      exact .inl ⟨missing, (Option.some_inj.mp isNone).symm⟩
  · intro written _ phase
    exact absurd (active.symm.trans phase) nofun

theorem Coherent.inserts (taken : state.insert id = some next) : Coherent next owner horizon := by
  rcases insert_eq_some taken with ⟨txn, key, row, present, inserting, rfl⟩
  rcases inv.rows.inserting id txn key row present inserting with ⟨owned, lsn, leads⟩
  rcases inv.busy present inserting rfl with ⟨writes, idle, noGc, _, pendingBefore⟩
  have keepsOn : txn.keeps := keeps_of_phase inserting nofun
  refine inv.advances noGc present writes ?_ ?_ idle trivial ?_ le_rfl
    (fun _ _ _ phase => by cases phase) (some key) ?_ (fun _ => keepsOn) ?_
    (fun _ _ phase => by cases phase)
  · rfl
  · rfl
  · rfl
  · intro other different
    have apart : key ≠ other := fun same => different (congrArg some same)
    refine ⟨lookup_insert_of_ne _ _ apart, ?_, ?_, lookup_insert_of_ne _ _ apart⟩
    · rw [pendingBefore]
      show other ∈ txn.modified.insert key <-> other ∈ txn.modified
      rw [Std.TreeSet.mem_insert, compare_eq_iff_eq]
      exact or_iff_right apart
    · intro endLsn
      exact iff_of_false (not_stamped .active rfl nofun endLsn) (not_stamped _ inserting nofun endLsn)
  · intro other same
    cases same
    have isPending : Txn.pending { txn with
        phase := .active
        modified := txn.modified.insert key
        writes := txn.writes.insert key row.visible } key := by
      show key ∈ txn.modified.insert key
      rw [Std.TreeSet.mem_insert, compare_eq_iff_eq]
      exact .inl rfl
    refine ⟨.inr ⟨row, ?_, ?_, leads, .inl ⟨isPending, owned, lsn⟩, ?_⟩, fun _ _ _ => .inr (.inl isPending)⟩
    · exact Std.TreeMap.getElem?_insert_self
    · exact Std.TreeMap.getElem?_insert_self
    · intro _
      exact Std.TreeMap.getElem?_insert_self

end Embedded
end Compute
end ScaleKv
