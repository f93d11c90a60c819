import ScaleKv.Compute.SnapshotGc
import ScaleKv.Compute.LostUpdates

namespace ScaleKv
namespace Compute
namespace Embedded

open Foundation Std OrderedMap

variable {Value : Type} {state next : Embedded Value} {owner owner' : PageId -> Owner}
  {horizon : Nat} {id : TxnId} {txn : Txn Value} {key : Key}

/-!
# Snapshot reads return the right version

Writers come one at a time and each one commits or aborts, readers begin and
read at any points, and garbage collection runs between writers.  Then a read
that returns gives the newest version that its snapshot covers, or the latest
write of its own transaction.

Collection does not disturb readers although it frees undo pages that rows may
still point to.  Its bound is at most every registered snapshot, and later
snapshots start at the durable LSN, so that a pointer that dangles is behind a
version that everybody covers.
-/

/-- Every `get` that has returned gave the latest own write, or else the value of
the committed version with the largest commit LSN up to the snapshot. -/
def ReadsRight (state : Embedded Value) : Prop :=
  ∀ (id : TxnId) (txn : Txn Value) key result, state.txns[id]? = some txn ->
    txn.reading = .answered key result ->
    txn.writes[key]? = some result ∨
      (txn.writes[key]? = none ∧ LatestAt (state.history key) txn.readLsn result)

/-- No writer and no collection is in progress. -/
def noWriter (state : Embedded Value) : Bool :=
  state.gc.isNone && state.txns.toList.all (fun entry => entry.2.readOnly)

/-- The transaction is the one of the collection in progress. -/
def ofGc (state : Embedded Value) (id : TxnId) : Bool := state.gc.any (fun run => run.txnId = id)

/-- Writers come one at a time, with the collection between them, and a commit
does not fail: its batch is of the size that the sequencer takes, and it is
shipped. -/
def oneWriter (state : Embedded Value) : Action Value -> Prop
  | .begin _ readOnly => (readOnly || state.noWriter) = true
  | .gcOnce _ _ => state.noWriter = true
  | .put id _ _ => state.ofGc id = false
  | .delete id _ => state.ofGc id = false
  | .commit id => state.ofGc id = false
  | .abort id => state.ofGc id = false
  | .reserve id pages => pages ≠ 0 ∧ pages ≤ Sequencer.maxWritesPerTxn ∧ id ≠ 0
  | .ship _ shipped => shipped = true
  | _ => True

instance oneWriterDecidable (state : Embedded Value) (action : Action Value) :
    Decidable (oneWriter state action) := by
  unfold oneWriter
  induction action using Action.casesOn <;> infer_instance

theorem noWriter_iff : state.noWriter = true <-> state.gc = none ∧
    ∀ (id : TxnId) txn, state.txns[id]? = some txn -> txn.readOnly = true := by
  unfold noWriter
  rw [Bool.and_eq_true, Option.isNone_iff_eq_none, List.all_eq_true, forall_iff_toList]

/-- A collection excludes the writer, so that a step of a writer that is not the
collection's transaction finds none in progress. -/
theorem Coherent.noGc (inv : Coherent state owner horizon) (present : state.txns[id]? = some txn)
    (writes : txn.readOnly = false) (notGc : state.ofGc id = false) : state.gc = none := by
  cases running : state.gc with
  | none => rfl
  | some run =>
    have same := (inv.gc.alone run running id txn present writes).1
    unfold ofGc at notGc
    rw [running, Option.any_some, decide_eq_false_iff_not] at notGc
    exact absurd same.symm notGc

/-- The invariant, for some owners of the undo pages and some horizon. -/
def Consistent (state : Embedded Value) : Prop := ∃ owner horizon, Coherent state owner horizon

theorem Coherent.step_keeps {action : Action Value} (inv : Coherent state owner horizon)
    (admitted : oneWriter state action) (taken : step state action = some next) : next.Consistent := by
  cases action with
  | begin =>
    refine ⟨owner, horizon, inv.begins ?_ taken⟩
    rintro rfl
    exact noWriter_iff.mp admitted
  | get => exact ⟨owner, horizon, inv.gets taken⟩
  | walk => exact ⟨owner, horizon, inv.walks taken⟩
  | put =>
    rcases write_eq_some taken with ⟨_, present, writes, _⟩
    rcases inv.writes (inv.noGc present writes admitted) taken with ⟨owner', kept⟩
    exact ⟨owner', horizon, kept⟩
  | delete =>
    rcases delete_eq_some taken with ⟨_, _, write⟩ | ⟨missing, txn, present, writes, active, rfl⟩
    · rcases write_eq_some write with ⟨_, present, writes, _⟩
      rcases inv.writes (inv.noGc present writes admitted) write with ⟨owner', kept⟩
      exact ⟨owner', horizon, kept⟩
    · exact ⟨owner, horizon,
        inv.deletesNothing (inv.noGc present writes admitted) present writes active missing⟩
  | insert => exact ⟨owner, horizon, inv.inserts taken⟩
  | commit =>
    refine ⟨owner, horizon, inv.commits ?_ taken⟩
    exact fun txn present writes => inv.noGc present writes admitted
  | prestamp => exact ⟨owner, horizon, inv.prestamps taken⟩
  | reserve => exact ⟨owner, horizon, inv.reserves admitted taken⟩
  | stamp => exact ⟨owner, horizon, inv.stamps taken⟩
  | ship _ shipped =>
    have isShipped : shipped = true := admitted
    subst isShipped
    exact ⟨owner, horizon, inv.ships taken⟩
  | abort =>
    refine ⟨owner, horizon, inv.aborts ?_ taken⟩
    exact fun txn present writes => inv.noGc present writes admitted
  | resolve => exact ⟨owner, horizon, inv.resolves taken⟩
  | gcOnce =>
    exact ⟨owner, max horizon state.gcLsn, inv.gcStarts (noWriter_iff.mp admitted).2 taken⟩
  | gcApply => exact ⟨owner, horizon, inv.gcApplies taken⟩
  | gcCommit => exact ⟨owner, horizon, inv.gcCommits taken⟩
  | gcPurge =>
    rcases inv.gcPurges taken with ⟨owner', kept⟩
    exact ⟨owner', horizon, kept⟩

theorem consistent_created (sequencer : Sequencer)
    (durable : sequencer.durableLsn ≤ sequencer.nextLsn) :
    (created sequencer : Embedded Value).Consistent := by
  rcases (UndoLog.sound_created : (UndoLog.created : UndoLog Value).Sound) with ⟨owner, undo⟩
  have noTxn : ∀ (id : TxnId) (txn : Txn Value),
      (created sequencer : Embedded Value).txns[id]? ≠ some txn := by
    intro id txn present
    cases present.symm.trans TreeMap.getElem?_emptyc
  have noUndo : ∀ (id : TxnId) (own : TxnUndo Value),
      (created sequencer : Embedded Value).undo.txns[id]? ≠ some own := by
    intro id own present
    cases present.symm.trans TreeMap.getElem?_emptyc
  have noVersion : ∀ key, (created sequencer : Embedded Value).history key = [] := by
    intro key
    show (∅ : TreeMap Key (List (Nat × Option Value)))[key]?.getD [] = []
    rw [TreeMap.getElem?_emptyc]
    rfl
  refine ⟨owner, 0, ?_, ?_, ?_, ?_, ?_, GcOk.of_none rfl⟩
  · refine ⟨undo, ?_, ?_, ?_, ?_⟩
    · exact fun id => ⟨fun _ => TreeMap.getElem?_emptyc, fun _ => TreeMap.getElem?_emptyc⟩
    · exact fun id txn present => absurd present (noTxn id txn)
    · exact fun id own _ present => absurd present (noUndo id own)
    · exact fun id own _ _ _ present => absurd present (noUndo id own)
  · refine ⟨Nat.zero_le _, durable, ?_, ?_, ?_, ?_⟩
    · intro id readLsn present
      cases present.symm.trans TreeMap.getElem?_emptyc
    · exact fun id txn present => absurd present (noTxn id txn)
    · exact fun id txn _ _ _ present => absurd present (noTxn id txn)
    · intro key
      rw [noVersion]
      exact ⟨List.Pairwise.nil, fun _ member => absurd member List.not_mem_nil⟩
  · refine ⟨?_, ?_, ?_, ?_⟩
    · exact fun id _ txn _ present => absurd present (noTxn id txn)
    · exact fun id txn present => absurd present (noTxn id txn)
    · exact fun id txn present => absurd present (noTxn id txn)
    · exact fun id txn present => absurd present (noTxn id txn)
  · refine ⟨?_, ?_, ?_⟩
    · intro key
      refine .inl ⟨fun id txn present => absurd present (noTxn id txn), .inl ⟨?_, ?_⟩⟩
      · exact TreeMap.getElem?_emptyc
      · intro readLsn _
        rw [noVersion]
        exact visibleAt_nil readLsn
    · exact fun id txn _ _ present => absurd present (noTxn id txn)
    · exact fun id txn _ _ present => absurd present (noTxn id txn)
  · exact fun id txn present => absurd present (noTxn id txn)

theorem Coherent.readsRight (inv : Coherent state owner horizon) : state.ReadsRight := by
  intro id txn key result present answered
  have ok := inv.readings id txn present
  unfold ReadingOk at ok
  rw [answered] at ok
  have right : result = state.expected txn key := ok
  unfold expected at right
  cases written : txn.writes[key]? with
  | some =>
    rw [written] at right
    exact .inl (right ▸ rfl)
  | none =>
    rw [written] at right
    refine .inr ⟨rfl, ?_⟩
    rw [right]
    exact latestAt_visibleAt (inv.lsn.versions key).1 txn.readLsn

theorem consistent_of_oneWriter {sequencer : Sequencer} {final : Embedded Value}
    (ordered : sequencer.durableLsn ≤ sequencer.nextLsn)
    (reached : Reaches step oneWriter (created sequencer) final) : final.Consistent := by
  apply reached.invariant (consistent_created sequencer ordered)
  rintro _ _ _ ⟨_, _, inv⟩ admitted taken
  exact inv.step_keeps admitted taken

/-- In every run with one writer at a time, snapshot reads return the right
version, whatever garbage collection has removed. -/
theorem snapshot_reads_right {sequencer : Sequencer} {final : Embedded Value}
    (ordered : sequencer.durableLsn ≤ sequencer.nextLsn)
    (reached : Reaches step oneWriter (created sequencer) final) : final.ReadsRight := by
  rcases consistent_of_oneWriter ordered reached with ⟨_, _, inv⟩
  exact inv.readsRight

/-- A collection purges the undo segment of the second commit while a snapshot of
that commit is registered.  The undo record of the third commit still points
into the segment, but the snapshot stops at the record. -/
theorem snapshot_reads_right_across_gc : ∃ final : Embedded Nat,
    Reaches step oneWriter (created ofOneNode) final ∧
      (final.undo.history.map Segment.txnId = [4] ∧
        final.txns[3]?.map Txn.reading = some (.answered (Key.ofNat 7) (some 11)) ∧
        final.txns[5]?.map Txn.reading = some (.answered (Key.ofNat 7) (some 12))) ∧
      final.ReadsRight := by
  refine exists_reaches_with ([.begin 1 false] ++ putOf 1 (Key.ofNat 7) 10 ++ commitOf 1 2 ++
      [.begin 2 false] ++ putOf 2 (Key.ofNat 7) 11 ++ commitOf 2 3 ++ [.begin 3 true] ++
      [.begin 4 false] ++ putOf 4 (Key.ofNat 7) 12 ++ commitOf 4 3 ++ [.begin 5 true] ++
      [.gcOnce 6 100, .gcCommit 0 true, .get 3 (Key.ofNat 7), .gcPurge 2 true, .walk 3,
        .get 5 (Key.ofNat 7)])
    (fun _ reached => snapshot_reads_right (Nat.le_refl 0) reached) ?_
  decide +kernel

/-! ## The rows between two writers -/

end Embedded
end Compute
end ScaleKv
