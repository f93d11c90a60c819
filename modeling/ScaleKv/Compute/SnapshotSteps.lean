import ScaleKv.Compute.SnapshotInvariant

namespace ScaleKv
namespace Compute
namespace Embedded

open Foundation Option OrderedMap

variable {Value : Type} {state next : Embedded Value} {owner owner' : PageId -> Owner}
  {horizon : Nat} {id : TxnId} {txn after : Txn Value} {undo : UndoLog Value}

/-!
# Steps of one transaction

Most steps change one transaction, at most one row, and the undo log in a way
that keeps all chains.  What such a step leaves of each part of the invariant is
stated once; the lemmas about the steps then have to say what is new.
-/

/-- The step changes one transaction and keeps the versions and the chains. -/
structure Changes (state next : Embedded Value) (owner owner' : PageId -> Owner) (horizon : Nat)
    (id : TxnId) (txn after : Txn Value) : Prop where
  before : state.txns[id]? = some txn
  txns : ∀ other : TxnId, next.txns[other]? = if id = other then some after else state.txns[other]?
  readLsn : after.readLsn = txn.readLsn
  readOnly : after.readOnly = txn.readOnly
  versions : next.versions = state.versions
  activeReads : next.activeReads = state.activeReads
  keeps : UndoLog.Keeps state.undo owner horizon state.sequencer.durableLsn next.undo owner'
  allocated : ∀ (other : TxnId) (ids : List PageId), state.undo.allocated[other]? = some ids ->
    ∃ grown, next.undo.allocated[other]? = some grown ∧ ∀ id ∈ ids, id ∈ grown

namespace Changes

theorem of_setTxn (after : Txn Value) (present : state.txns[id]? = some txn)
    (readLsn : after.readLsn = txn.readLsn) (readOnly : after.readOnly = txn.readOnly)
    (tree : Std.TreeMap Key (Row Value)) (sequencer : Sequencer) :
    Changes state ({ state with tree := tree, sequencer := sequencer }.setTxn id after) owner owner
      horizon id txn after where
  before := present
  txns other := lookup_insert state.txns id other after
  readLsn := readLsn
  readOnly := readOnly
  versions := rfl
  activeReads := rfl
  keeps := UndoLog.Keeps.of_same rfl rfl
  allocated _ ids isAllocated := ⟨ids, isAllocated, fun _ member => member⟩

section

variable (changes : Changes state next owner owner' horizon id txn after) {other : TxnId}

include changes

theorem lookup_cases {found : Txn Value} (lookup : next.txns[other]? = some found) :
    (other = id ∧ found = after) ∨ (other ≠ id ∧ state.txns[other]? = some found) := by
  rw [changes.txns] at lookup
  split at lookup
  · next same => exact .inl ⟨same.symm, (some_inj.mp lookup).symm⟩
  · next different => exact .inr ⟨Ne.symm different, lookup⟩

theorem lookup_self : next.txns[id]? = some after :=
  (changes.txns id).trans (if_pos rfl)

theorem lookup_other (different : other ≠ id) :
    next.txns[other]? = state.txns[other]? :=
  (changes.txns other).trans (if_neg (Ne.symm different))

theorem history (key : Key) : next.history key = state.history key := by
  unfold Embedded.history
  rw [changes.versions]

end

end Changes

/-! ## The parts of the invariant -/

theorem ReadingOk.keeps {reader : Txn Value} (ok : ReadingOk state owner horizon reader)
    (undo : state.undo.Inv owner) (above : horizon ≤ reader.readLsn)
    (below : reader.readLsn ≤ state.sequencer.durableLsn)
    (history : ∀ key, next.history key = state.history key)
    (keeps : UndoLog.Keeps state.undo owner horizon state.sequencer.durableLsn next.undo owner') :
    ReadingOk next owner' horizon reader := by
  unfold ReadingOk at ok ⊢
  split
  · next _ _ answered =>
    rw [answered] at ok
    rw [ok]
    unfold expected
    rw [history]
  · next _ _ walking =>
    rw [walking] at ok
    refine ⟨ok.1, ok.2.keeps undo le_rfl above below ?_ keeps⟩
    rw [history]
  · trivial

section

variable (changes : Changes state next owner owner' horizon id txn after)

include changes

theorem ReadingsOk.change (readings : ReadingsOk state owner horizon) (undo : state.undo.Inv owner)
    (lsn : LsnOk state horizon) (own : ReadingOk next owner' horizon after) : ReadingsOk next owner' horizon := by
  intro other reader lookup
  rcases changes.lookup_cases lookup with ⟨_, rfl⟩ | ⟨_, found⟩
  · exact own
  · rcases lsn.reads other reader found with ⟨above, below⟩
    exact (readings other reader found).keeps undo above below changes.history changes.keeps

theorem LsnOk.change (lsn : LsnOk state horizon)
    (durable : next.sequencer.durableLsn = state.sequencer.durableLsn)
    (grows : state.sequencer.nextLsn ≤ next.sequencer.nextLsn)
    (stamping : ∀ startLsn endLsn rest, after.phase = .stamping startLsn endLsn rest ->
      state.sequencer.durableLsn < endLsn ∧ endLsn ≤ next.sequencer.nextLsn) :
    LsnOk next horizon where
  settled := durable ▸ lsn.settled
  durable := durable ▸ lsn.durable.trans grows
  snapshots other readLsn found := by
    rw [changes.activeReads] at found
    rw [durable]
    exact lsn.snapshots other readLsn found
  reads other reader lookup := by
    rw [durable]
    rcases changes.lookup_cases lookup with ⟨_, rfl⟩ | ⟨_, found⟩
    · rw [changes.readLsn]
      exact lsn.reads id txn changes.before
    · exact lsn.reads other reader found
  stamping other writer startLsn endLsn rest lookup phase := by
    rw [durable]
    rcases changes.lookup_cases lookup with ⟨_, rfl⟩ | ⟨_, found⟩
    · exact stamping startLsn endLsn rest phase
    · rcases lsn.stamping other writer startLsn endLsn rest found phase with ⟨younger, bounded⟩
      exact ⟨younger, bounded.trans grows⟩
  versions key := by
    rw [changes.history, durable]
    exact lsn.versions key

theorem TxnsOk.change (txns : TxnsOk state)
    (reader : after.readOnly = true -> after.phase = .active ∧ (∀ key, key ∉ after.modified) ∧
      ∀ key : Key, after.writes[key]? = none)
    (idle : after.phase = .active ∨ after.reading = .idle) (phase : PhaseOk after) : TxnsOk next where
  single first second writer other lookupFirst lookupSecond writes otherWrites := by
    have asBefore : ∀ (third : TxnId) found, next.txns[third]? = some found ->
        found.readOnly = false -> ∃ old, state.txns[third]? = some old ∧ old.readOnly = false := by
      intro third found lookup isWriter
      rcases changes.lookup_cases lookup with ⟨rfl, rfl⟩ | ⟨_, old⟩
      · exact ⟨txn, changes.before, changes.readOnly.symm.trans isWriter⟩
      · exact ⟨found, old, isWriter⟩
    rcases asBefore first writer lookupFirst writes with ⟨oldFirst, foundFirst, firstWrites⟩
    rcases asBefore second other lookupSecond otherWrites with ⟨oldSecond, foundSecond, secondWrites⟩
    exact txns.single first second oldFirst oldSecond foundFirst foundSecond firstWrites secondWrites
  readers other found lookup reads := by
    rcases changes.lookup_cases lookup with ⟨_, rfl⟩ | ⟨_, old⟩
    · exact reader reads
    · exact txns.readers other found old reads
  idle other found lookup := by
    rcases changes.lookup_cases lookup with ⟨_, rfl⟩ | ⟨_, old⟩
    · exact idle
    · exact txns.idle other found old
  phases other found lookup := by
    rcases changes.lookup_cases lookup with ⟨_, rfl⟩ | ⟨_, old⟩
    · exact phase
    · exact txns.phases other found old

end

theorem VersionOk.keeps {key : Key} (version : VersionOk state owner horizon key)
    (undo : state.undo.Inv owner) (history : next.history key = state.history key)
    (tree : next.tree[key]? = state.tree[key]?)
    (keeps : UndoLog.Keeps state.undo owner horizon state.sequencer.durableLsn next.undo owner') :
    VersionOk next owner' horizon key := by
  unfold VersionOk
  rw [history, tree]
  rcases version with missing | ⟨row, older, stored, isVersion, positive, shape, behind⟩
  · exact .inl missing
  · exact .inr ⟨row, older, stored, isVersion, positive, shape, behind.keeps undo le_rfl keeps⟩

/-- What a step has to say about the rows: where nothing changes, and what is
new at the key that it changes. -/
theorem RowsOk.change (rows : RowsOk state owner horizon) (undo : state.undo.Inv owner)
    (change : Changes state next owner owner' horizon id txn after) (changed : Option Key)
    (elsewhere : ∀ key, changed ≠ some key -> next.tree[key]? = state.tree[key]? ∧
      (after.pending key <-> txn.pending key) ∧
      (∀ endLsn, after.stamped key endLsn <-> txn.stamped key endLsn) ∧
      after.writes[key]? = txn.writes[key]?)
    (keeps : after.keeps -> txn.keeps)
    (here : ∀ key, changed = some key ->
      (next.Quiet owner' horizon key ∨ ∃ row, next.Taken owner' horizon key id after row) ∧
      ∀ value, after.keeps -> after.writes[key]? = some value ->
        (next.tree[key]? = none ∧ value = none) ∨ after.takes key)
    (others : ∀ (other : TxnId) writer, state.txns[other]? = some writer ->
      other ≠ id -> ∀ key, changed = some key -> ¬writer.takes key ∧
        (writer.keeps -> writer.writes[key]? = none))
    (inserting : ∀ key row, after.phase = .inserting key row -> row.ownedBy id = true ∧
      row.intentLsn = after.readLsn ∧
      next.undo.Leads owner' horizon id (next.history key) row.undoPtr) :
    RowsOk next owner' horizon := by
  have leadsOf : ∀ (other : TxnId) (key : Key) ptr,
      state.undo.Leads owner horizon other (state.history key) ptr ->
      next.undo.Leads owner' horizon other (next.history key) ptr := by
    intro other key ptr leads
    rw [change.history]
    exact leads.keeps undo le_rfl (change.allocated other) change.keeps
  have takesElsewhere : ∀ key, changed ≠ some key -> (after.takes key <-> txn.takes key) := by
    intro key unchanged
    rcases elsewhere key unchanged with ⟨_, pending, stamped, _⟩
    constructor
    · rintro (isPending | ⟨endLsn, isStamped⟩)
      · exact .inl (pending.mp isPending)
      · exact .inr ⟨endLsn, (stamped endLsn).mp isStamped⟩
    · rintro (isPending | ⟨endLsn, isStamped⟩)
      · exact .inl (pending.mpr isPending)
      · exact .inr ⟨endLsn, (stamped endLsn).mpr isStamped⟩
  constructor
  · intro key
    by_cases isChanged : changed = some key
    · rcases (here key isChanged).1 with quiet | ⟨row, taken⟩
      · exact .inl quiet
      · exact .inr ⟨id, after, row, taken⟩
    · rcases elsewhere key isChanged with ⟨tree, pending, stamped, writes⟩
      rcases rows.rows key with quiet | ⟨other, writer, row, taken⟩
      · refine .inl ⟨?_, quiet.version.keeps undo (change.history key) tree change.keeps⟩
        intro other found lookup
        rcases change.lookup_cases lookup with ⟨_, rfl⟩ | ⟨_, old⟩
        · rw [takesElsewhere key isChanged]
          exact quiet.free id txn change.before
        · exact quiet.free other found old
      · right
        by_cases same : other = id
        · subst same
          have sameTxn : writer = txn := some_inj.mp (taken.present.symm.trans change.before)
          subst sameTxn
          refine ⟨other, after, row, change.lookup_self, tree.trans taken.stored,
            leadsOf other key row.undoPtr taken.leads, ?_, ?_⟩
          · rcases taken.place with ⟨isPending, owned, lsn⟩ | ⟨endLsn, isStamped, version⟩
            · exact .inl ⟨pending.mpr isPending, owned, lsn.trans change.readLsn.symm⟩
            · exact .inr ⟨endLsn, (stamped endLsn).mpr isStamped, version⟩
          · intro keepsAfter
            exact writes.trans (taken.shows (keeps keepsAfter))
        · exact ⟨other, writer, row, (change.lookup_other same).trans taken.present,
            tree.trans taken.stored, leadsOf other key row.undoPtr taken.leads, taken.place, taken.shows⟩
  · intro other writer key value lookup keepsOther isWritten
    rcases change.lookup_cases lookup with ⟨_, rfl⟩ | ⟨different, old⟩
    · by_cases isChanged : changed = some key
      · exact (here key isChanged).2 value keepsOther isWritten
      · rcases elsewhere key isChanged with ⟨tree, _, _, writes⟩
        rw [tree, takesElsewhere key isChanged]
        exact rows.written id txn key value change.before (keeps keepsOther) (writes.symm.trans isWritten)
    · by_cases isChanged : changed = some key
      · rw [(others other writer old different key isChanged).2 keepsOther] at isWritten
        cases isWritten
      · rw [(elsewhere key isChanged).1]
        exact rows.written other writer key value old keepsOther isWritten
  · intro other writer key row lookup phase
    rcases change.lookup_cases lookup with ⟨rfl, rfl⟩ | ⟨_, old⟩
    · exact inserting key row phase
    · rcases rows.inserting other writer key row old phase with ⟨owned, lsn, leads⟩
      exact ⟨owned, lsn, leadsOf other key row.undoPtr leads⟩

theorem LogOk.change (log : LogOk state owner)
    (change : Changes state next owner owner horizon id txn after) (undo : next.undo = state.undo) :
    LogOk next owner where
  undo := undo ▸ log.undo
  synced other := by
    rw [change.txns, undo]
    split
    · next same =>
      subst same
      have present := (log.synced id).not.mp (change.before ▸ some_ne_none txn)
      exact ⟨fun impossible => absurd impossible (some_ne_none after),
        fun impossible => absurd impossible present⟩
    · exact log.synced other
  registered other found lookup := by
    rw [change.activeReads]
    rcases change.lookup_cases lookup with ⟨rfl, rfl⟩ | ⟨_, old⟩
    · rw [change.readLsn]
      exact log.registered other txn change.before
    · exact log.registered other found old
  metaCurrent other own metaPage found staged := by
    rw [undo] at found ⊢
    rcases log.metaCurrent other own metaPage found staged with ⟨current, writer, present, writes⟩
    refine ⟨current, ?_⟩
    by_cases same : other = id
    · subst same
      cases present.symm.trans change.before
      exact ⟨after, change.lookup_self, change.readOnly.trans writes⟩
    · exact ⟨writer, (change.lookup_other same).trans present, writes⟩
  roCaches other own found page image present lookup cached := by
    rw [undo] at present ⊢
    rcases change.lookup_cases lookup with ⟨rfl, rfl⟩ | ⟨_, old⟩
    · rw [change.readLsn]
      exact log.roCaches other own txn page image present change.before cached
    · exact log.roCaches other own found page image present old cached

theorem GcOk.of_none (none_ : next.gc = none) : GcOk next horizon where
  bound run running := by rw [none_] at running; cases running
  alone run running := by rw [none_] at running; cases running
  removals run running := by rw [none_] at running; cases running
  updates run running := by rw [none_] at running; cases running

theorem GcOk.reads (gc : GcOk state horizon) (undo : UndoLog Value) (reading : Reading Value)
    (present : state.txns[id]? = some txn) :
    GcOk ({ state with undo := undo }.setTxn id { txn with reading := reading }) horizon where
  bound := gc.bound
  alone run running := forall_insert (gc.alone run running id txn present) (gc.alone run running)
  removals := gc.removals
  updates := gc.updates

/-! ## Reading -/

theorem RowsOk.reads (rows : RowsOk state owner horizon) (undo : state.undo.Inv owner)
    {reading : Reading Value}
    (change : Changes state next owner owner' horizon id txn { txn with reading := reading })
    (tree : next.tree = state.tree) : RowsOk next owner' horizon := by
  refine rows.change undo change none ?_ (fun keeps => keeps) ?_ ?_ ?_
  · intro key _
    rw [tree]
    exact ⟨rfl, Iff.rfl, fun _ => Iff.rfl, rfl⟩
  · intro key impossible
    cases impossible
  · intro _ _ _ _ key impossible
    cases impossible
  · intro key row phase
    rcases rows.inserting id txn key row change.before phase with ⟨owned, lsn, leads⟩
    refine ⟨owned, lsn, ?_⟩
    rw [change.history]
    exact leads.keeps undo le_rfl (change.allocated id) change.keeps

theorem Coherent.reads {reading : Reading Value} (inv : Coherent state owner horizon)
    (present : state.txns[id]? = some txn) (idle : txn.phase = .active ∨ reading = .idle)
    (own : ReadingOk state owner horizon { txn with reading := reading }) :
    Coherent (state.setTxn id { txn with reading := reading }) owner horizon := by
  have change : Changes state (state.setTxn id { txn with reading := reading }) owner owner horizon id
      txn { txn with reading := reading } :=
    Changes.of_setTxn { txn with reading := reading } present rfl rfl state.tree state.sequencer
  refine ⟨inv.log.change change rfl, ?_, ?_, inv.rows.reads inv.log.undo change rfl,
    inv.readings.change change inv.log.undo inv.lsn own, inv.gc.reads state.undo reading present⟩
  · exact inv.lsn.change change rfl le_rfl
      (fun startLsn endLsn rest phase => inv.lsn.stamping id txn startLsn endLsn rest present phase)
  · exact inv.txns.change change (inv.txns.readers id txn present) idle
      (inv.txns.phases id txn present)

theorem Coherent.gets {key : Key} (inv : Coherent state owner horizon)
    (taken : state.get id key = some next) : Coherent next owner horizon := by
  rcases get_eq_some taken with ⟨_, _, present, active, follows, rfl⟩
  exact inv.reads present (.inl active) (inv.glance present active follows)

/-- What `get_page_for_read` returns holds only records of the cache; it may keep
the image. -/
theorem pageForRead_eq_some {page : UndoPage Value} {pageId : PageId}
    (log : LogOk state owner) (present : state.txns[id]? = some txn)
    (found : pageForRead state.undo id pageId = some (page, undo)) :
    (∀ slot record, page.records[slot]? = some record ->
        state.undo.recordAt ⟨pageId, slot⟩ = some record) ∧
      (undo = state.undo ∨ ∃ own, state.undo.txns[id]? = some own ∧ undo = { state.undo with
          txns := state.undo.txns.insert id { own with roCache := own.roCache.insert pageId page } }) := by
  rcases bind_eq_some_iff.mp found with ⟨own, isOwn, outcome⟩
  split at outcome
  · next _ kept =>
    cases outcome
    refine ⟨?_, .inl rfl⟩
    intro slot record inside
    rcases or_eq_some_iff.mp kept with dirty | ⟨_, cached⟩
    · rcases log.undo.inProgress id own isOwn with ⟨_, _, progress⟩
      have member := progress.own pageId page dirty
      exact UndoLog.recordAt_eq_some.mpr ⟨page, (progress.cached pageId member).trans dirty, inside⟩
    · exact (log.roCaches id own txn pageId page isOwn present cached).2 slot record inside
  · rcases bind_eq_some_iff.mp outcome with ⟨_, stored, result⟩
    cases result
    refine ⟨?_, .inr ⟨own, isOwn, rfl⟩⟩
    intro slot record inside
    exact UndoLog.recordAt_eq_some.mpr ⟨page, stored, inside⟩

theorem inv_caches {log : UndoLog Value} {own : TxnUndo Value} (inv : log.Inv owner)
    (isOwn : log.txns[id]? = some own) (roCache : Std.TreeMap PageId (UndoPage Value)) :
    UndoLog.Inv { log with txns := log.txns.insert id { own with roCache := roCache } } owner := by
  refine { inv with inProgress := ?_, ended := ?_, done := ?_ }
  · refine forall_insert ?_ inv.inProgress
    rcases inv.inProgress id own isOwn with ⟨ids, isAllocated, progress⟩
    exact ⟨ids, isAllocated, { progress with }⟩
  · intro other missing
    apply inv.ended other
    rw [lookup_insert] at missing
    split at missing
    · cases missing
    · exact missing
  · intro segment member
    have different : id ≠ segment.txnId := by
      rintro rfl
      rw [inv.done segment member] at isOwn
      cases isOwn
    exact (lookup_insert_of_ne _ _ different).trans (inv.done segment member)

theorem Coherent.walksOn {reading : Reading Value} {pageId : PageId}
    {page : UndoPage Value} (inv : Coherent state owner horizon) (present : state.txns[id]? = some txn)
    (active : txn.phase = .active) (safe : state.undo.Safe owner txn.readLsn pageId)
    (records : ∀ slot record, page.records[slot]? = some record ->
      state.undo.recordAt ⟨pageId, slot⟩ = some record)
    (kept : undo = state.undo ∨ ∃ own, state.undo.txns[id]? = some own ∧
      undo = { state.undo with
        txns := state.undo.txns.insert id { own with roCache := own.roCache.insert pageId page } })
    (own : ReadingOk state owner horizon { txn with reading := reading }) :
    Coherent ({ state with undo := undo }.setTxn id { txn with reading := reading }) owner horizon := by
  have before := inv.reads present (.inl active) own
  rcases kept with rfl | ⟨mine, isMine, isUndo⟩
  · exact before
  have change : Changes state ({ state with undo := undo }.setTxn id { txn with reading := reading })
      owner owner horizon id txn { txn with reading := reading } := by
    subst isUndo
    exact ⟨present, fun other => lookup_insert state.txns id other _, rfl, rfl, rfl, rfl,
      UndoLog.Keeps.of_same rfl rfl, fun _ ids isAllocated => ⟨ids, isAllocated, fun _ member => member⟩⟩
  rcases inv.lsn.reads id txn present with ⟨above, below⟩
  refine ⟨?_, { before.lsn with }, { before.txns with }, inv.rows.reads inv.log.undo change rfl,
    inv.readings.change change inv.log.undo inv.lsn
      (own.keeps inv.log.undo above below change.history change.keeps),
    inv.gc.reads undo reading present⟩
  · subst isUndo
    have log := before.log
    refine ⟨inv_caches inv.log.undo isMine _, ?_, log.registered, ?_, ?_⟩
    · intro other
      refine (log.synced other).trans ?_
      show state.undo.txns[other]? = none <-> (state.undo.txns.insert id _)[other]? = none
      rw [lookup_insert]
      split
      · next same =>
        subst same
        rw [isMine]
        exact ⟨fun impossible => (by cases impossible), fun impossible => (by cases impossible)⟩
      · exact Iff.rfl
    · intro other found metaPage lookup staged
      rcases lookup_insert_cases lookup with ⟨rfl, rfl⟩ | ⟨_, old⟩
      · exact log.metaCurrent other mine metaPage isMine staged
      · exact log.metaCurrent other found metaPage old staged
    · intro other found reader cachedId image lookup readerFound cached
      rcases lookup_insert_cases lookup with ⟨rfl, rfl⟩ | ⟨_, old⟩
      · have sameReader : reader = { txn with reading := reading } :=
          some_inj.mp (readerFound.symm.trans change.lookup_self)
        rcases lookup_insert_cases cached with ⟨rfl, rfl⟩ | ⟨_, before⟩
        · rw [sameReader]
          exact ⟨safe, records⟩
        · exact log.roCaches other mine reader cachedId image isMine readerFound before
      · exact log.roCaches other found reader cachedId image old readerFound cached

theorem Coherent.walks (inv : Coherent state owner horizon) (taken : state.walk id = some next) :
    Coherent next owner horizon := by
  rcases walk_eq_some taken with ⟨txn, key, present, ⟨_, walking⟩, undo, _, rfl, outcome⟩
  have active : txn.phase = .active := by
    rcases inv.txns.idle id txn present with active | idle
    · exact active
    · rw [idle] at walking
      cases walking
  rcases inv.lsn.reads id txn present with ⟨above, _⟩
  have current := inv.readings id txn present
  rcases outcome with ⟨atEnd, rfl, rfl⟩ | ⟨ptr, atPtr, outcome⟩
  · unfold ReadingOk at current
    rw [atEnd] at current
    apply inv.reads present (.inl active)
    show none = state.expected txn key
    unfold expected
    rw [current.1]
    exact current.2.symm
  · unfold ReadingOk at current
    rw [atPtr] at current
    rcases current with ⟨unwritten, walks⟩
    have safe := walks.1
    rcases outcome with ⟨_, rfl, rfl⟩ | ⟨_, found, outcome⟩
    · exact @walksOn Value state owner horizon id txn state.undo _ ptr.pageId .new inv present active
        safe (fun slot record inside => by cases inside) (.inl rfl) trivial
    · rcases pageForRead_eq_some inv.log present found with ⟨records, kept⟩
      rcases outcome with ⟨_, _, rfl⟩ | ⟨record, readOk, follows⟩
      · exact inv.walksOn present active safe records kept trivial
      · apply inv.walksOn present active safe records kept
        have stored : state.undo.recordAt ptr = some record := by
          apply records
          unfold UndoPage.readRecord at readOk
          split at readOk
          · next inside => exact (Except.ok.inj readOk) ▸ inside
          · cases readOk
        rcases walks.follow inv.log.undo above stored with ⟨_, looked, result⟩ | ⟨looked, further⟩
        · rw [looked] at follows
          cases follows
          show record.visible = state.expected txn key
          unfold expected
          rw [unwritten]
          exact result.symm
        · rw [looked] at follows
          cases follows
          exact ⟨unwritten, further⟩

end Embedded
end Compute
end ScaleKv
