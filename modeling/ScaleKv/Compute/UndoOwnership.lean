import ScaleKv.Compute.UndoHistory

namespace ScaleKv
namespace Compute

open Foundation Option OrderedMap

/-!
# No two transactions own an undo page

The calls of any number of transactions and of the purge come in any order.  As
long as every commit starts from the cached META page, a page belongs to one
transaction at most and the history leads to every committed segment.
-/

namespace UndoLog

variable {Value : Type}

section

variable {log next : UndoLog Value} {owner : PageId -> Owner} {txnId : TxnId}

theorem inProgress_begun (store : UndoStore Value) : InProgress store .begun [] := by
  have empty : ∀ (id : PageId) page,
      ¬((TxnUndo.begun : TxnUndo Value).dirty[id]? = some page) := by
    intro id page found
    have nothing : (∅ : Std.TreeMap PageId (UndoPage Value))[id]? = some page := found
    rw [Std.TreeMap.getElem?_emptyc] at nothing
    cases nothing
  refine ⟨rfl, rfl, List.nodup_nil, trivial, ?_, ?_, ?_, ?_⟩
  · nofun
  · intro id page found
    exact absurd found (empty id page)
  · intro id page found
    exact absurd found (empty id page)
  · nofun

theorem Inv.begins (inv : log.Inv owner) (taken : log.beginTx txnId = some next) :
    next.Inv owner := by
  unfold beginTx at taken
  split at taken
  · cases taken
  · next fresh =>
    cases taken
    rw [not_or] at fresh
    refine { inv with allocated := ?_, inProgress := ?_, ended := ?_, done := ?_ }
    · intro other ids id isAllocated member
      rcases lookup_insert_cases isAllocated with ⟨_, rfl⟩ | ⟨_, before⟩
      · cases member
      · exact inv.allocated other ids id before member
    · intro other txn found
      rcases lookup_insert_cases found with ⟨rfl, rfl⟩ | ⟨different, before⟩
      · exact ⟨[], Std.TreeMap.getElem?_insert_self, inProgress_begun log.store⟩
      · rcases inv.inProgress other txn before with ⟨ids, isAllocated, progress⟩
        exact ⟨ids, (lookup_insert_of_ne _ _ (Ne.symm different)).trans isAllocated, progress⟩
    · intro other finished
      rw [lookup_insert] at finished ⊢
      split at finished
      · cases finished
      · next different =>
        rw [if_neg different]
        exact inv.ended other finished
    · intro segment member
      have different : txnId ≠ segment.txnId := by
        intro same
        apply fresh.2
        rw [List.any_eq_true]
        exact ⟨segment, member, decide_eq_true same.symm⟩
      exact (lookup_insert_of_ne _ _ different).trans (inv.done segment member)

theorem Inv.appends (inv : log.Inv owner) {txn : TxnUndo Value}
    (found : log.txns[txnId]? = some txn) (prev : Option UndoPtr) (oldCommitLsn : Nat)
    (oldFlags : Flags) (oldValue : Value) :
    ∃ ptr next after ids grown owner', log.append txnId prev oldCommitLsn oldFlags oldValue =
        some (.ok (ptr, next)) ∧ log.allocated[txnId]? = some ids ∧
      Appended ⟨log.store, txn⟩ after ids grown
        (recordOf ⟨log.store, txn⟩ txnId prev oldCommitLsn oldFlags oldValue) ptr ∧
      next.store = after.store ∧ next.txns = log.txns.insert txnId after.txn ∧
      (∀ id, next.allocated[id]? = if txnId = id then some grown else log.allocated[id]?) ∧
      next.history = log.history ∧ next.Inv owner' ∧
      ∀ id other, owner id = .txn other -> owner' id = .txn other := by
  rcases inv.inProgress txnId txn found with ⟨ids, owned, progress⟩
  have new : log.store.metaPage.raised.allocPageId.1 ∉ ids := by
    intro member
    exact inv.metaOwned.unowned rfl txnId (inv.allocated txnId ids _ owned member)
  rcases @appendUndo_run Value ⟨log.store, txn⟩ txnId prev oldCommitLsn oldFlags oldValue ids progress
      new with ⟨ptr, after, grown, run, appended⟩
  have isGrown : (if ptr.slotId = 0 then ids ++ [ptr.pageId] else ids) = grown := by
    rcases appended.allocates with ⟨rfl, _, later⟩ | ⟨rfl, first, _⟩
    · exact if_neg later
    · exact if_pos first
  have allocated : ∀ id, (log.allocated.modify txnId (fun pages =>
      if ptr.slotId = 0 then pages ++ [ptr.pageId] else pages))[id]? =
        if txnId = id then some grown else log.allocated[id]? := by
    intro id
    rw [Std.TreeMap.getElem?_modify]
    simp only [compare_eq_iff_eq]
    split
    · rw [owned, map_some, isGrown]
    · rfl
  let next : UndoLog Value := { log with
    store := after.store
    txns := log.txns.insert txnId after.txn
    allocated := log.allocated.modify txnId (fun pages =>
      if ptr.slotId = 0 then pages ++ [ptr.pageId] else pages) }
  have called : log.append txnId prev oldCommitLsn oldFlags oldValue = some (.ok (ptr, next)) := by
    unfold append
    rw [found, map_some, run]
  rcases @Inv.appended Value txnId _ txn ptr log next owner inv ids grown after found owned appended
      allocated rfl rfl rfl with ⟨owner', kept, owners⟩
  exact ⟨ptr, next, after, ids, grown, owner', called, owned, appended, rfl, rfl, allocated, rfl, kept,
    owners⟩

theorem inv_step {action : Action Value} (inv : ∃ owner, log.Inv owner)
    (current : log.ownMetaCurrent action) (taken : log.step action = some next) :
    ∃ owner, next.Inv owner := by
  rcases inv with ⟨owner, inv⟩
  cases action with
  | begin => exact ⟨owner, inv.begins taken⟩
  | appendUndo txnId prev oldCommitLsn oldFlags oldValue =>
    rcases bind_eq_some_iff.mp taken with ⟨_, called, succeeded⟩
    cases found : log.txns[txnId]? with
    | none =>
      unfold append at called
      rw [found] at called
      cases called
    | some =>
      rcases inv.appends found prev oldCommitLsn oldFlags oldValue with
        ⟨_, _, _, _, _, owner', run, _, _, _, _, _, _, kept, _⟩
      rw [run] at called
      cases called
      cases succeeded
      exact ⟨owner', kept⟩
  | commit =>
    rcases bind_eq_some_iff.mp taken with ⟨result, called, succeeded⟩
    cases result with
    | error => cases succeeded
    | ok =>
      cases succeeded
      exact ⟨owner, inv.commits current called⟩
  | drop txnId =>
    simp only [step] at taken
    split at taken
    · cases taken
      exact ⟨owner, inv.drop txnId⟩
    · cases taken
  | purge gcLsn =>
    rcases inv.purges gcLsn with ⟨_, _, owner', run, _, kept, _⟩
    simp only [step, run] at taken
    cases taken
    exact ⟨owner', kept⟩

/-- A log whose META page, chains and history fit together. -/
def Sound (log : UndoLog Value) : Prop := ∃ owner, log.Inv owner

theorem sound_created : (created : UndoLog Value).Sound := by
  refine ⟨fun _ => .fresh, ⟨rfl, fun _ _ => rfl, ?_, List.nodup_nil⟩, ?_, ?_, ?_, ?_, ?_, ?_,
    List.nodup_nil, trivial, rfl, rfl⟩
  · nofun
  · intro txnId ids _ found
    have nothing : (∅ : Std.TreeMap TxnId (List PageId))[txnId]? = some ids := found
    rw [Std.TreeMap.getElem?_emptyc] at nothing
    cases nothing
  · intro txnId txn found
    have nothing : (∅ : Std.TreeMap TxnId (TxnUndo Value))[txnId]? = some txn := found
    rw [Std.TreeMap.getElem?_emptyc] at nothing
    cases nothing
  · intro txnId _
    exact Std.TreeMap.getElem?_emptyc
  · nofun
  · nofun
  · nofun

end

end UndoLog

end Compute
end ScaleKv
