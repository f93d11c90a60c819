import ScaleKv.Compute.EmbeddedSteps

namespace ScaleKv
namespace Compute
namespace Embedded

open Foundation List OrderedMap

variable {Value : Type} {action : Action Value}

/-!
# Concurrent writes to one key

Of two committed transactions that wrote the same key, the later one should
have seen the earlier commit.  A pending intent does keep other writers away.
A version that was committed after the snapshot of the writer does not: `put`
and `delete` never compare the two.

If every write meets a version that its snapshot covers, no update is lost.
The reason is that an intent is held from the write up to the end of the
commit, so that the commits of the key stay where the write found them.
-/

/-- Of two commits of one key the later one has read the earlier one. -/
def NoLostUpdate (state : Embedded Value) : Prop :=
  ∀ first second key, first ∈ state.commits -> second ∈ state.commits ->
    key ∈ first.keys -> key ∈ second.keys -> first.commitLsn < second.commitLsn ->
    first.commitLsn ≤ second.readLsn

/-- The transaction that takes a step, for the calls `begin`, `get`, `put`,
`delete` and `commit`. -/
def Action.caller : Action Value -> Option TxnId
  | .begin id _ => some id
  | .get id _ => some id
  | .walk id => some id
  | .put id _ _ => some id
  | .delete id _ => some id
  | .insert id => some id
  | .commit id => some id
  | .prestamp id => some id
  | .reserve id _ => some id
  | .stamp id => some id
  | .ship id _ => some id
  | _ => none

/-- Only the calls above are made, and a call that has begun ends before
another transaction takes a step. -/
def wholeCalls (state : Embedded Value) (action : Action Value) : Prop :=
  action.caller.any (fun id =>
    state.txns.toList.all (fun entry => entry.2.phase.isActive || entry.1 = id)) = true

/-- The version that a write would replace is covered by the snapshot. -/
def seesVersion (state : Embedded Value) (id : TxnId) (key : Key) : Bool :=
  match state.txns[id]?, state.tree[key]? with
  | some txn, some row => row.flags.intent || row.commitLsn ≤ txn.readLsn
  | _, _ => true

/-- Whole calls in which no write meets a version newer than its snapshot. -/
def writesSeeVersion (state : Embedded Value) (action : Action Value) : Prop :=
  wholeCalls state action ∧
    (match action with
      | .put id key _ => seesVersion state id key
      | .delete id key => seesVersion state id key
      | _ => true) = true

instance wholeCallsDecidable (state : Embedded Value) (action : Action Value) :
    Decidable (wholeCalls state action) := by
  unfold wholeCalls
  infer_instance

instance writesSeeVersionDecidable (state : Embedded Value) (action : Action Value) :
    Decidable (writesSeeVersion state action) := by
  unfold writesSeeVersion
  infer_instance

/-- In a step of a whole call every other transaction is between two calls. -/
theorem wholeCalls.others {state : Embedded Value} {id other : TxnId}
    {txn : Txn Value} (whole : wholeCalls state action) (caller : action.caller = some id)
    (present : state.txns[other]? = some txn) (different : other ≠ id) : txn.phase = .active := by
  unfold wholeCalls at whole
  rw [caller, Option.any_some, all_eq_true] at whole
  have tested := whole (other, txn) (Std.TreeMap.mem_toList_iff_getElem?_eq_some.mpr present)
  cases phase : txn.phase <;> simp_all [Phase.isActive]

/-- Every commit of the key is covered by the snapshot. -/
def Covers (state : Embedded Value) (readLsn : Nat) (key : Key) : Prop :=
  ∀ info ∈ state.commits, key ∈ info.keys -> info.commitLsn ≤ readLsn

/-- The row is held by the transaction: as its intent, or stamped by its commit. -/
def Holds (txn : Txn Value) (id : TxnId) (row : Row Value) : Prop :=
  row.ownedBy id = true ∨ ∃ startLsn endLsn rest,
    txn.phase = .stamping startLsn endLsn rest ∧ row.flags.intent = false ∧ row.commitLsn = endLsn

/-- Every other transaction is between two calls. -/
def OthersActive (state : Embedded Value) (id : TxnId) : Prop :=
  ∀ (other : TxnId) (writer : Txn Value), state.txns[other]? = some writer -> other ≠ id ->
    writer.phase = .active

/-- What ties the rows to the transactions that write them. -/
structure Exclusive (state : Embedded Value) : Prop where
  durable : state.sequencer.durableLsn ≤ state.sequencer.nextLsn
  reads : ∀ (id : TxnId) (txn : Txn Value), state.txns[id]? = some txn ->
    txn.readLsn ≤ state.sequencer.durableLsn ∧ id ∈ state.used
  committed : ∀ info ∈ state.commits, info.commitLsn ≤ state.sequencer.durableLsn
  stamping : ∀ (id : TxnId) (txn : Txn Value) startLsn endLsn rest,
    state.txns[id]? = some txn -> txn.phase = .stamping startLsn endLsn rest ->
    state.sequencer.durableLsn < endLsn ∧ endLsn ≤ state.sequencer.nextLsn
  owner : ∀ (key : Key) (row : Row Value), state.tree[key]? = some row ->
    row.flags.intent = true -> row.intentTxnId ∈ state.used ∧
      ∀ txn, state.txns[row.intentTxnId]? = some txn -> key ∈ txn.modified
  held : ∀ (id : TxnId) (txn : Txn Value) (key : Key), state.txns[id]? = some txn ->
    key ∈ txn.modified -> Covers state txn.readLsn key ∧
      ∃ row, state.tree[key]? = some row ∧ Holds txn id row
  newest : ∀ info (key : Key), info ∈ state.commits -> key ∈ info.keys ->
    ∃ row, state.tree[key]? = some row ∧
      (row.flags.intent = false -> info.commitLsn ≤ row.commitLsn)
  inserting : ∀ (id : TxnId) (txn : Txn Value) key row, state.txns[id]? = some txn ->
    txn.phase = .inserting key row -> row.ownedBy id = true ∧ Covers state txn.readLsn key ∧
      ∀ (other : TxnId) (writer : Txn Value), state.txns[other]? = some writer ->
        key ∈ writer.modified -> other = id
  noLostUpdate : NoLostUpdate state

namespace Exclusive

variable {state : Embedded Value} {id : TxnId} {txn after : Txn Value} {key : Key}

theorem created (sequencer : Sequencer) (ordered : sequencer.durableLsn ≤ sequencer.nextLsn) :
    Exclusive (created sequencer : Embedded Value) where
  durable := ordered
  reads id txn present := by simp [Embedded.created] at present
  committed info member := by simp [Embedded.created] at member
  stamping id txn startLsn endLsn rest present := by simp [Embedded.created] at present
  owner key row found := by simp [Embedded.created] at found
  held id txn key present := by simp [Embedded.created] at present
  newest info key member := by simp [Embedded.created] at member
  inserting id txn key row present := by simp [Embedded.created] at present
  noLostUpdate first second key member := by simp [Embedded.created] at member

theorem unique {other : TxnId} {writer : Txn Value} (inv : Exclusive state)
    (present : state.txns[id]? = some txn) (mine : key ∈ txn.modified)
    (found : state.txns[other]? = some writer) (active : writer.phase = .active)
    (theirs : key ∈ writer.modified) : other = id := by
  obtain ⟨_, stored, holds⟩ := (inv.held id txn key present mine).2
  obtain ⟨_, otherStored, otherHolds⟩ := (inv.held other writer key found theirs).2
  rw [stored] at otherStored
  cases otherStored
  rcases otherHolds with owned | ⟨_, _, _, stamps, _⟩
  · rw [Row.ownedBy_iff] at owned
    rcases holds with own | ⟨_, _, _, _, version, _⟩
    · rw [Row.ownedBy_iff] at own
      exact owned.2.symm.trans own.2
    · rw [version] at owned
      cases owned.1
  · rw [active] at stamps
    cases stamps

theorem ends (inv : Exclusive state) : Exclusive (state.endTxn id) := by
  have kept : ∀ (other : TxnId) txn,
      (state.endTxn id).txns[other]? = some txn -> state.txns[other]? = some txn :=
    fun other txn found => (lookup_erase_cases found).2
  constructor
  · exact inv.durable
  · exact fun other txn found => inv.reads other txn (kept other txn found)
  · exact inv.committed
  · exact fun other txn s e rest found => inv.stamping other txn s e rest (kept other txn found)
  · intro key row stored intent
    refine ⟨(inv.owner key row stored intent).1, ?_⟩
    exact fun txn found => (inv.owner key row stored intent).2 txn (kept _ txn found)
  · exact fun other txn key found => inv.held other txn key (kept other txn found)
  · exact inv.newest
  · intro other txn key row found inserts
    obtain ⟨owned, covers, alone⟩ := inv.inserting other txn key row (kept other txn found) inserts
    exact ⟨owned, covers, fun third writer present => alone third writer (kept third writer present)⟩
  · exact inv.noLostUpdate

/-- The two phases agree on whether and how a commit is in its second pass. -/
def SameStamps (left right : Phase Value) : Prop :=
  ∀ startLsn endLsn, (∃ rest, left = .stamping startLsn endLsn rest) <->
    ∃ rest, right = .stamping startLsn endLsn rest

theorem sameStamps_of_not {left right : Phase Value}
    (notLeft : ∀ startLsn endLsn rest, left ≠ .stamping startLsn endLsn rest)
    (notRight : ∀ startLsn endLsn rest, right ≠ .stamping startLsn endLsn rest) :
    SameStamps left right := by
  intro startLsn endLsn
  constructor <;> rintro ⟨rest, stamps⟩
  · exact absurd stamps (notLeft startLsn endLsn rest)
  · exact absurd stamps (notRight startLsn endLsn rest)

theorem stamping_insert (inv : Exclusive state) (present : state.txns[id]? = some txn)
    (stamps : SameStamps after.phase txn.phase) (other : TxnId) (found : Txn Value)
    (startLsn endLsn : Nat) (rest : List Key) (lookup : (state.txns.insert id after)[other]? = some found)
    (phase : found.phase = .stamping startLsn endLsn rest) :
    state.sequencer.durableLsn < endLsn ∧ endLsn ≤ state.sequencer.nextLsn := by
  rcases lookup_insert_cases lookup with ⟨rfl, rfl⟩ | ⟨_, old⟩
  · obtain ⟨before, phaseBefore⟩ := (stamps startLsn endLsn).mp ⟨rest, phase⟩
    exact inv.stamping _ txn startLsn endLsn before present phaseBefore
  · exact inv.stamping other found startLsn endLsn rest old phase

theorem held_after (inv : Exclusive state) (present : state.txns[id]? = some txn)
    (sameLsn : after.readLsn = txn.readLsn) (stamps : SameStamps after.phase txn.phase)
    (member : key ∈ txn.modified) : Covers state after.readLsn key ∧
      ∃ row, state.tree[key]? = some row ∧ Holds after id row := by
  obtain ⟨covers, row, stored, holds⟩ := inv.held id txn key present member
  refine ⟨sameLsn ▸ covers, row, stored, ?_⟩
  rcases holds with owned | ⟨startLsn, endLsn, rest, phase, version⟩
  · exact .inl owned
  · obtain ⟨later, phaseLater⟩ := (stamps startLsn endLsn).mpr ⟨rest, phase⟩
    exact .inr ⟨startLsn, endLsn, later, phaseLater, version⟩

variable {row : Row Value}

variable (inv : Exclusive state) {next : Embedded Value} {tombstone : Bool} {value : Value}

include inv

/-- The owner of an intent has modified its key, also if one transaction has
modified more. -/
theorem owner_insert (present : state.txns[id]? = some txn)
    (more : ∀ key ∈ txn.modified, key ∈ after.modified)
    (stored : state.tree[key]? = some row) (intent : row.flags.intent = true) :
    row.intentTxnId ∈ state.used ∧ ∀ found,
      (state.txns.insert id after)[row.intentTxnId]? = some found -> key ∈ found.modified := by
  obtain ⟨used, modified⟩ := inv.owner key row stored intent
  refine ⟨used, ?_⟩
  intro found lookup
  rcases lookup_insert_cases lookup with ⟨same, rfl⟩ | ⟨_, old⟩
  · exact more key (modified txn (same ▸ present))
  · exact modified found old

/-- A step that changes neither rows nor commits: the transaction keeps its
snapshot and its keys, and stays in or out of the second pass of its commit. -/
theorem advances (present : state.txns[id]? = some txn) (undo : UndoLog Value)
    (sameLsn : after.readLsn = txn.readLsn) (sameKeys : after.modified = txn.modified)
    (stamps : SameStamps after.phase txn.phase)
    (inserts : ∀ key row, after.phase = .inserting key row ->
      row.ownedBy id = true ∧ Covers state txn.readLsn key ∧
        ∀ (other : TxnId) writer, state.txns[other]? = some writer ->
          key ∈ writer.modified -> other = id) :
    Exclusive ({ state with undo := undo }.setTxn id after) := by
  constructor
  · exact inv.durable
  · exact forall_insert (sameLsn ▸ inv.reads id txn present) inv.reads
  · exact inv.committed
  · exact inv.stamping_insert present stamps
  · intro key row stored intent
    exact inv.owner_insert present (fun _ member => sameKeys ▸ member) stored intent
  · intro other found key lookup member
    rcases lookup_insert_cases lookup with ⟨rfl, rfl⟩ | ⟨_, old⟩
    · exact inv.held_after present sameLsn stamps (sameKeys ▸ member)
    · exact inv.held other found key old member
  · exact inv.newest
  · intro other found key row lookup phase
    -- whoever is alone with the key before the step is so afterwards
    have stays : ∀ {owner : TxnId}, (∀ (third : TxnId) writer,
        state.txns[third]? = some writer -> key ∈ writer.modified -> third = owner) ->
        ∀ (third : TxnId) writer, (state.txns.insert id after)[third]? = some writer ->
          key ∈ writer.modified -> third = owner :=
      fun alone => forall_insert (fun member => alone id txn present (sameKeys ▸ member)) alone
    rcases lookup_insert_cases lookup with ⟨rfl, rfl⟩ | ⟨_, old⟩
    · obtain ⟨owned, covers, alone⟩ := inserts key row phase
      exact ⟨owned, sameLsn ▸ covers, stays alone⟩
    · obtain ⟨owned, covers, alone⟩ := inv.inserting other found key row old phase
      exact ⟨owned, covers, stays alone⟩
  · exact inv.noLostUpdate

theorem begins {readOnly : Bool}
    (taken : state.beginTx id readOnly = some next) : Exclusive next := by
  obtain ⟨fresh, _, _, rfl⟩ := beginTx_eq_some taken
  constructor
  · exact inv.durable
  · refine forall_insert ⟨le_rfl, mem_cons_self⟩ ?_
    exact fun other found old => (inv.reads other found old).imp_right (mem_cons_of_mem _)
  · exact inv.committed
  · intro other found startLsn endLsn rest lookup phase
    rcases lookup_insert_cases lookup with ⟨rfl, rfl⟩ | ⟨_, old⟩
    · cases phase
    · exact inv.stamping other found startLsn endLsn rest old phase
  · intro key row stored intent
    obtain ⟨used, modified⟩ := inv.owner key row stored intent
    refine ⟨mem_cons_of_mem _ used, ?_⟩
    intro found lookup
    rcases lookup_insert_cases lookup with ⟨same, _⟩ | ⟨_, old⟩
    · exact absurd (same ▸ used) fresh
    · exact modified found old
  · intro other found key lookup member
    rcases lookup_insert_cases lookup with ⟨rfl, rfl⟩ | ⟨_, old⟩
    · simp at member
    · exact inv.held other found key old member
  · exact inv.newest
  · intro other found key row lookup phase
    rcases lookup_insert_cases lookup with ⟨rfl, rfl⟩ | ⟨_, old⟩
    · cases phase
    · obtain ⟨owned, covers, alone⟩ := inv.inserting other found key row old phase
      refine ⟨owned, covers, ?_⟩
      refine forall_insert ?_ alone
      intro member
      simp at member
  · exact inv.noLostUpdate

theorem readsOn (present : state.txns[id]? = some txn) (undo : UndoLog Value)
    (reading : Reading Value) :
    Exclusive ({ state with undo := undo }.setTxn id { txn with reading := reading }) :=
  inv.advances present undo rfl rfl (fun _ _ => Iff.rfl) (fun key row phase => by
      obtain ⟨owned, covers, alone⟩ := inv.inserting id txn key row present phase
      exact ⟨owned, covers, alone⟩)

variable (others : OthersActive state id)

include others

/-- The key of a write that is not refused: its commits are covered, and no
other transaction has written it. -/
theorem writable {undo grown : UndoLog Value}
    (present : state.txns[id]? = some txn)
    (sees : seesVersion state id key = true)
    (decided : intentRow undo id txn.readLsn value tombstone state.tree[key]? =
      some (.ok (row, grown))) :
    Covers state txn.readLsn key ∧
      ∀ (other : TxnId) writer, state.txns[other]? = some writer ->
        key ∈ writer.modified -> other = id := by
  have notForeign : ∀ old, state.tree[key]? = some old -> old.flags.intent = true ->
      old.intentTxnId = id := by
    intro old stored intent
    obtain ⟨_, _, missing | ⟨_, same, own | version⟩⟩ := intentRow_eq_ok decided
    · rw [stored] at missing
      cases missing.1
    · rw [stored] at same
      cases same
      exact ((Row.ownedBy_iff _ _).mp own.1).2
    · rw [stored] at same
      cases same
      rw [intent] at version
      cases version.1
  constructor
  · intro info member mentions
    obtain ⟨old, stored, newest⟩ := inv.newest info key member mentions
    cases intent : old.flags.intent with
    | false =>
      have covered : old.commitLsn ≤ txn.readLsn := by
        simpa [seesVersion, present, stored, intent] using sees
      exact (newest intent).trans covered
    | true =>
      have mine := (inv.owner key old stored intent).2 txn
        ((notForeign old stored intent).symm ▸ present)
      exact (inv.held id txn key present mine).1 info member mentions
  · intro other writer found member
    by_contra different
    obtain ⟨old, stored, holds⟩ := (inv.held other writer key found member).2
    rcases holds with owned | ⟨_, _, _, stamps, _⟩
    · rw [Row.ownedBy_iff] at owned
      exact different (owned.2.symm.trans (notForeign old stored owned.1))
    · rw [others other writer found different] at stamps
      cases stamps

theorem writes (sees : seesVersion state id key = true)
    (taken : state.write id key value tombstone = some next) : Exclusive next := by
  obtain ⟨_, present, _, active, ⟨_, _, rfl⟩ | ⟨_, undo, decided, rfl⟩⟩ :=
    write_eq_some taken
  · exact inv.readsOn present state.undo .idle
  · refine inv.advances present undo ?_ ?_ ?_ ?_
    · rfl
    · rfl
    · exact sameStamps_of_not nofun (active ▸ nofun)
    · intro _ _ phase
      cases phase
      exact ⟨(intentRow_eq_ok decided).1, inv.writable others present sees decided⟩

/-- The row of a key that the transaction holds is replaced by another row that
it holds: an intent, or the version that its commit stamps. -/
theorem replaces (present : state.txns[id]? = some txn) (covers : Covers state txn.readLsn key)
    (alone : ∀ (other : TxnId) writer, state.txns[other]? = some writer ->
      key ∈ writer.modified -> other = id) (sameLsn : after.readLsn = txn.readLsn)
    (keys : ∀ other, other ∈ after.modified <-> other = key ∨ other ∈ txn.modified)
    (stamps : SameStamps after.phase txn.phase)
    (notInserting : ∀ written inserted, after.phase ≠ .inserting written inserted)
    (holds : Holds after id row) :
    Exclusive ({ state with tree := state.tree.insert key row }.setTxn id after) := by
  constructor
  · exact inv.durable
  · exact forall_insert (sameLsn ▸ inv.reads id txn present) inv.reads
  · exact inv.committed
  · exact inv.stamping_insert present stamps
  · intro other stored lookup intent
    rcases lookup_insert_cases lookup with ⟨rfl, rfl⟩ | ⟨_, old⟩
    · have mine : stored.intentTxnId = id := by
        rcases holds with owned | ⟨_, _, _, _, version, _⟩
        · exact ((Row.ownedBy_iff _ _).mp owned).2
        · rw [version] at intent
          cases intent
      rw [mine]
      refine ⟨(inv.reads id txn present).2, ?_⟩
      intro found inserted
      rcases lookup_insert_cases inserted with ⟨_, rfl⟩ | ⟨different, _⟩
      · exact (keys _).mpr (.inl rfl)
      · exact absurd rfl different
    · exact inv.owner_insert present (fun _ member => (keys _).mpr (.inr member)) old intent
  · intro other found held lookup member
    rcases lookup_insert_cases lookup with ⟨rfl, rfl⟩ | ⟨different, old⟩
    · by_cases same : held = key
      · subst same
        refine ⟨sameLsn ▸ covers, row, ?_, holds⟩
        exact Std.TreeMap.getElem?_insert_self
      · have before := ((keys held).mp member).resolve_left same
        obtain ⟨coversHeld, stored, lookupHeld, holdsHeld⟩ :=
          inv.held_after present sameLsn stamps before
        exact ⟨coversHeld, stored, (lookup_insert_of_ne _ _ (Ne.symm same)).trans lookupHeld, holdsHeld⟩
    · have apart : key ≠ held := by
        rintro rfl
        exact different (alone other found old member)
      obtain ⟨coversHeld, stored, lookupHeld, holdsHeld⟩ := inv.held other found held old member
      exact ⟨coversHeld, stored, (lookup_insert_of_ne _ _ apart).trans lookupHeld, holdsHeld⟩
  · intro info written member mentions
    by_cases same : written = key
    · subst same
      refine ⟨row, Std.TreeMap.getElem?_insert_self, ?_⟩
      intro version
      rcases holds with owned | ⟨startLsn, endLsn, rest, phase, _, stamped⟩
      · rw [((Row.ownedBy_iff _ _).mp owned).1] at version
        cases version
      · -- A stamped version is newer than everything durable.
        obtain ⟨before, phaseBefore⟩ := (stamps startLsn endLsn).mp ⟨rest, phase⟩
        rw [stamped]
        exact (inv.committed info member).trans
          (inv.stamping id txn startLsn endLsn before present phaseBefore).1.le
    · obtain ⟨stored, lookupStored, newest⟩ := inv.newest info written member mentions
      exact ⟨stored, (lookup_insert_of_ne _ _ (Ne.symm same)).trans lookupStored, newest⟩
  · intro other found written inserted lookup phase
    rcases lookup_insert_cases lookup with ⟨rfl, rfl⟩ | ⟨different, old⟩
    · exact absurd phase (notInserting written inserted)
    · rw [others other found old different] at phase
      cases phase
  · exact inv.noLostUpdate

theorem inserts (taken : state.insert id = some next) : Exclusive next := by
  obtain ⟨txn, key, row, present, phase, rfl⟩ := insert_eq_some taken
  obtain ⟨owned, covers, alone⟩ := inv.inserting id txn key row present phase
  refine inv.replaces others present covers alone ?_ ?_ ?_ ?_ (.inl owned)
  · rfl
  · intro _
    rw [Std.TreeSet.mem_insert, compare_eq_iff_eq, eq_comm]
  · exact sameStamps_of_not nofun (phase ▸ nofun)
  · exact nofun

theorem restamps {stored : Row Value} (present : state.txns[id]? = some txn)
    (found : state.tree[key]? = some stored)
    (owned : stored.ownedBy id = true) (sameLsn : after.readLsn = txn.readLsn)
    (sameKeys : after.modified = txn.modified) (stamps : SameStamps after.phase txn.phase)
    (notInserting : ∀ written inserted, after.phase ≠ .inserting written inserted)
    (holds : Holds after id row) :
    Exclusive ({ state with tree := state.tree.insert key row }.setTxn id after) := by
  have own := (Row.ownedBy_iff _ _).mp owned
  have mine : key ∈ txn.modified :=
    (inv.owner key stored found own.1).2 txn (own.2.symm ▸ present)
  apply inv.replaces others present (inv.held id txn key present mine).1 _ sameLsn _ stamps notInserting
    holds
  · intro other writer lookup member
    by_contra different
    exact different (inv.unique present mine lookup (others other writer lookup different) member)
  · intro other
    rw [sameKeys]
    constructor
    · exact .inr
    · rintro (rfl | member)
      · exact mine
      · exact member

theorem reserves {pages : Nat} (taken : state.reserve id pages = some next) : Exclusive next := by
  obtain ⟨txn, present, phase, ⟨_, rfl⟩ | ⟨endLsn, _, _, rfl⟩⟩ := reserve_eq_some taken
  · exact inv.ends
  have grows : state.sequencer.nextLsn < endLsn := by omega
  constructor
  · exact inv.durable.trans grows.le
  · exact forall_insert (inv.reads id txn present) inv.reads
  · exact inv.committed
  · intro other found _ _ _ lookup stamps
    rcases lookup_insert_cases lookup with ⟨rfl, rfl⟩ | ⟨different, old⟩
    · cases stamps
      exact ⟨inv.durable.trans_lt grows, le_rfl⟩
    · rw [others other found old different] at stamps
      cases stamps
  · intro key row stored intent
    exact inv.owner_insert present (fun _ member => member) stored intent
  · intro other found key lookup member
    rcases lookup_insert_cases lookup with ⟨rfl, rfl⟩ | ⟨_, old⟩
    · obtain ⟨covers, row, stored, holds⟩ := inv.held _ txn key present member
      refine ⟨covers, row, stored, ?_⟩
      rcases holds with owned | ⟨_, _, _, stamps, _⟩
      · exact .inl owned
      · rw [phase] at stamps
        cases stamps
    · exact inv.held other found key old member
  · exact inv.newest
  · intro other found key row lookup inserting
    rcases lookup_insert_cases lookup with ⟨rfl, rfl⟩ | ⟨different, old⟩
    · cases inserting
    · rw [others other found old different] at inserting
      cases inserting
  · exact inv.noLostUpdate

theorem ships {shipped : Bool} (taken : state.ship id shipped = some next) : Exclusive next := by
  obtain ⟨txn, startLsn, endLsn, present, phase, rfl | ⟨_, _, _, rfl⟩⟩ := ship_eq_some taken
  · exact inv.ends
  obtain ⟨younger, bounded⟩ := inv.stamping id txn startLsn endLsn [] present phase
  have durableAfter : (setDurable state.sequencer endLsn).durableLsn = endLsn :=
    max_eq_right younger.le
  have kept : ∀ (other : TxnId) writer, (state.txns.erase id)[other]? = some writer ->
      other ≠ id ∧ state.txns[other]? = some writer := fun other writer => lookup_erase_cases
  constructor
  · exact durableAfter.le.trans bounded
  · intro other found lookup
    obtain ⟨_, old⟩ := kept other found lookup
    obtain ⟨bound, used⟩ := inv.reads other found old
    exact ⟨(bound.trans younger.le).trans durableAfter.ge, used⟩
  · intro info member
    refine le_of_le_of_eq ?_ durableAfter.symm
    rcases mem_cons.mp member with rfl | old
    · exact le_rfl
    · exact (inv.committed info old).trans younger.le
  · intro other found first _ _ lookup stamps
    obtain ⟨different, old⟩ := kept other found lookup
    rw [others other found old different] at stamps
    cases stamps
  · intro key row stored intent
    obtain ⟨used, modified⟩ := inv.owner key row stored intent
    exact ⟨used, fun found lookup => modified found (kept _ found lookup).2⟩
  · intro other found key lookup member
    obtain ⟨different, old⟩ := kept other found lookup
    obtain ⟨covers, held⟩ := inv.held other found key old member
    refine ⟨?_, held⟩
    intro info listed mentions
    rcases mem_cons.mp listed with rfl | older
    · have mine : key ∈ txn.modified := Std.TreeSet.mem_toList.mp mentions
      exact absurd (inv.unique present mine old (others other found old different) member) different
    · exact covers info older mentions
  · intro info key listed mentions
    rcases mem_cons.mp listed with rfl | older
    · have mine : key ∈ txn.modified := Std.TreeSet.mem_toList.mp mentions
      obtain ⟨row, stored, holds⟩ := (inv.held id txn key present mine).2
      refine ⟨row, stored, ?_⟩
      intro version
      rcases holds with owned | ⟨_, _, _, stamps, _, stamped⟩
      · rw [((Row.ownedBy_iff _ _).mp owned).1] at version
        cases version
      · rw [phase] at stamps
        cases stamps
        exact stamped.ge
    · exact inv.newest info key older mentions
  · intro other found key row lookup inserting
    obtain ⟨different, old⟩ := kept other found lookup
    rw [others other found old different] at inserting
    cases inserting
  · intro first second key firstListed secondListed firstMentions secondMentions earlier
    rcases mem_cons.mp secondListed with rfl | secondOld
    · rcases mem_cons.mp firstListed with rfl | firstOld
      · exact absurd earlier (lt_irrefl _)
      · have mine : key ∈ txn.modified := Std.TreeSet.mem_toList.mp secondMentions
        exact (inv.held id txn key present mine).1 first firstOld firstMentions
    · rcases mem_cons.mp firstListed with rfl | firstOld
      · -- The new commit is newer than every durable one.
        exact absurd (earlier.trans_le (inv.committed second secondOld)) younger.le.not_gt
      · exact inv.noLostUpdate first second key firstOld secondOld firstMentions secondMentions
          earlier

omit others in
theorem step (admitted : writesSeeVersion state action) (taken : state.step action = some next) :
    Exclusive next := by
  obtain ⟨whole, sees⟩ := admitted
  have othersOf : ∀ caller, action.caller = some caller -> OthersActive state caller :=
    fun _ calls _ _ present different => whole.others calls present different
  cases action with
  | begin => exact inv.begins taken
  | get =>
    obtain ⟨_, reading, present, _, _, rfl⟩ := get_eq_some taken
    exact inv.readsOn present state.undo reading
  | walk =>
    obtain ⟨_, _, present, _, undo, reading, rfl, _⟩ := walk_eq_some taken
    exact inv.readsOn present undo reading
  | put id => exact inv.writes (othersOf id rfl) sees taken
  | delete id =>
    rcases delete_eq_some taken with ⟨_, _, written⟩ | ⟨_, _, present, _, active, rfl⟩
    · exact inv.writes (othersOf id rfl) sees written
    · refine inv.advances present state.undo ?_ ?_ ?_ ?_
      · rfl
      · rfl
      · exact fun _ _ => Iff.rfl
      · intro written _ inserting
        exact absurd (active.symm.trans inserting) nofun
  | insert id => exact inv.inserts (othersOf id rfl) taken
  | commit =>
    obtain ⟨_, present, active, ⟨_, rfl⟩ | ⟨_, rfl⟩⟩ := closes_eq_some taken
    · exact inv.ends
    · refine inv.advances present state.undo ?_ ?_ ?_ ?_
      · rfl
      · rfl
      · exact sameStamps_of_not nofun (active ▸ nofun)
      · exact nofun
  | prestamp id =>
    obtain ⟨_, _, _, present, phase, ⟨_, found, owned, rfl⟩ | ⟨_, rfl⟩⟩ :=
      prestamp_eq_some taken
    · refine inv.restamps (othersOf id rfl) present found owned ?_ ?_ ?_ ?_ (.inl owned)
      · rfl
      · rfl
      · exact sameStamps_of_not nofun (phase ▸ nofun)
      · exact nofun
    · exact inv.ends
  | reserve id => exact inv.reserves (othersOf id rfl) taken
  | stamp id =>
    obtain ⟨txn, startLsn, endLsn, _, rest, present, phase, outcome⟩ := stamp_eq_some taken
    have stamps : SameStamps (.stamping startLsn endLsn rest) txn.phase := by
      intro _ _
      rw [phase]
      constructor <;> rintro ⟨later, same⟩ <;> cases same
      · exact ⟨_, rfl⟩
      · exact ⟨_, rfl⟩
    rcases outcome with ⟨_, found, owned, rfl⟩ | ⟨_, _, _, rfl⟩ | ⟨_, rfl⟩
    · refine inv.restamps (othersOf id rfl) present found owned ?_ ?_ stamps ?_
        (.inr ⟨startLsn, endLsn, rest, rfl, rfl, rfl⟩)
      · rfl
      · rfl
      · exact nofun
    · exact inv.ends
    · refine inv.advances present state.undo ?_ ?_ stamps ?_
      · rfl
      · rfl
      · exact nofun
  | ship id => exact inv.ships (othersOf id rfl) taken
  | abort => cases whole
  | resolve => cases whole
  | gcOnce => cases whole
  | gcApply => cases whole
  | gcCommit => cases whole
  | gcPurge => cases whole

end Exclusive

section

/-- A sequencer in front of one new storage node. -/
def ofOneNode : Sequencer :=
  { quorum := 1, nextLsn := 0, requestId := 1, durableLsn := 0, dispatchLsn := 0 }

/-- The steps of a `put`. -/
def putOf (id : TxnId) (key : Key) (value : Nat) : List (Action Nat) :=
  [.put id key value, .insert id]

/-- The steps of the commit of one key.  Its batch has the leaf and the META
page, and the undo page if the key had a row. -/
def commitOf (id : TxnId) (pages : Nat) : List (Action Nat) :=
  [.commit id, .prestamp id, .reserve id pages, .stamp id, .ship id true]

end

end Embedded
end Compute
end ScaleKv
