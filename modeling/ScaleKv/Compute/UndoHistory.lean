import ScaleKv.Compute.UndoSegments
import Mathlib.Data.List.Perm.Subperm

namespace ScaleKv
namespace Compute

open Foundation OrderedMap UndoStore List Std

/-!
# The history of undo segments

A commit links its segment behind the last one of the history, and a purge
takes segments from the front.  A commit keeps the owners of the pages as long
as it starts from the cached META page; one that starts from an older copy
would bring back allocations and links of the past.
-/

namespace UndoLog

variable {Value : Type} {id : PageId} {store : UndoStore Value}

section

variable {log next : UndoLog Value} {owner : PageId -> Owner}

/-! ## Committing -/

/-- What the commit of a transaction with a segment of so many records does to the
cache. -/
structure Committed (store after : UndoStore Value) (endLsn : Nat) (first : PageId) (count : Nat) :
    Prop where
  metaPage : after.metaPage = { store.metaPage with
    undoHistoryHead := if store.metaPage.undoHistoryTail = 0 then first
      else store.metaPage.undoHistoryHead
    undoHistoryTail := first }
  kept : ∀ (id : PageId) (page : UndoPage Value), store.pages[id]? = some page ->
    ∃ page', after.pages[id]? = some page' ∧ page'.nextId = page.nextId ∧
      page'.records = page.records ∧
      (id ≠ first -> id ≠ store.metaPage.undoHistoryTail -> page'.segment = page.segment) ∧
      (id ≠ first -> id = store.metaPage.undoHistoryTail -> id ≠ 0 -> ∀ header,
        page.segment = some header -> page'.segment = some { header with historyNext := first })
  sealed : ∃ page header, after.pages[first]? = some page ∧ page.segment = some header ∧
    header.state = .committed ∧ header.commitLsn = endLsn ∧ header.firstPageId = first ∧
    header.historyNext = 0
  counted : ∃ page header, after.pages[first]? = some page ∧ page.segment = some header ∧
    header.historyPrev = store.metaPage.undoHistoryTail ∧ header.recordCount = count
  headers : ∀ (id : PageId) (page' : UndoPage Value) header', after.pages[id]? = some page' ->
    page'.segment = some header' -> id = first ∨ ∃ page header, store.pages[id]? = some page ∧
      page.segment = some header ∧ header'.state = header.state ∧
      header'.historyPrev = header.historyPrev ∧ header'.recordCount = header.recordCount

theorem lookup_batch {base batch : TreeMap PageId (UndoPage Value)} (id : PageId) :
    (base ∪ batch)[id]? = batch[id]?.or base[id]? :=
  TreeMap.getElem?_union

theorem commit_run {view : UndoView Value} {txnId : TxnId} {startLsn endLsn : Nat} {first : PageId}
    {rest : List PageId} (progress : InProgress view.store view.txn (first :: rest))
    (current : view.baseMeta = view.store.metaPage)
    (tail : view.store.metaPage.undoHistoryTail ≠ 0 -> ∃ page header,
      view.store.pages[view.store.metaPage.undoHistoryTail]? = some page ∧
        page.segment = some header ∧ view.store.metaPage.undoHistoryTail ∉ first :: rest) :
    ∃ after, view.commit txnId startLsn endLsn = .ok after ∧
      Committed view.store after endLsn first view.txn.recordCount := by
  rcases progress.head first rfl with ⟨headPage, _, headStored, headSegment⟩
  have headCached := (progress.cached first mem_cons_self).trans headStored
  have isFirst : view.txn.firstPageId = some first := progress.first
  -- the pages of the transaction are in the cache already
  have cached : ∀ id : PageId,
      view.txn.dirty[id]?.or view.store.pages[id]? = view.store.pages[id]? := by
    intro id
    cases own : view.txn.dirty[id]? with
    | none => rfl
    | some image => rw [progress.cached id (progress.own id image own), own, Option.some_or]
  set oldTail := view.store.metaPage.undoHistoryTail with isOldTail
  set newHead : UndoPage Value :=
    { headPage with segment := some (view.sealedHeader txnId startLsn endLsn first) }
  have sealing : headPage.writeSegmentHeader (view.sealedHeader txnId startLsn endLsn first) =
      .ok newHead := by
    rw [UndoPage.writeSegmentHeader, headSegment]
  -- the head of the segment and the last segment of the history are written
  have commits : ∃ after, view.commit txnId startLsn endLsn = .ok after ∧
      after.metaPage = { view.store.metaPage with
        undoHistoryHead := if oldTail = 0 then first else view.store.metaPage.undoHistoryHead
        undoHistoryTail := first } ∧
      ∀ id : PageId, after.pages[id]? = if first = id then some newHead
        else if oldTail ≠ 0 ∧ oldTail = id then view.store.pages[id]?.map (fun page => { page with
          segment := page.segment.map (fun header => { header with historyNext := first }) })
        else view.store.pages[id]? := by
    by_cases noTail : oldTail = 0
    · have run : view.commit txnId startLsn endLsn = .ok
          { metaPage := { view.store.metaPage with undoHistoryHead := first, undoHistoryTail := first }
            pages := view.store.pages ∪ view.txn.dirty.insert first newHead } := by
        unfold UndoView.commit UndoView.sealSegment
        simp only [isFirst, UndoView.commitPage, headStored, Option.some_or, sealing, current,
          ← isOldTail, noTail, if_true, bind, Except.bind, pure, Except.pure]
      refine ⟨_, run, by rw [if_pos noTail], fun id => ?_⟩
      rw [lookup_batch, lookup_insert]
      split
      · rfl
      · rw [cached, if_neg (fun isTail : oldTail ≠ 0 ∧ _ => isTail.1 noTail)]
    · rcases tail noTail with ⟨tailPage, tailHeader, tailCached, tailSegment, apart⟩
      have different : first ≠ oldTail := fun same => apart (same ▸ mem_cons_self)
      have found : (view.txn.dirty.insert first newHead)[oldTail]?.or view.store.pages[oldTail]? =
          some tailPage := by
        rw [lookup_insert_of_ne _ _ different, cached, tailCached]
      have run : view.commit txnId startLsn endLsn = .ok
          { metaPage := { view.store.metaPage with undoHistoryTail := first }
            pages := view.store.pages ∪ (view.txn.dirty.insert first newHead).insert oldTail
              { tailPage with segment := some { tailHeader with historyNext := first } } } := by
        unfold UndoView.commit UndoView.sealSegment
        simp only [isFirst, UndoView.commitPage, headStored, Option.some_or, sealing, current,
          ← isOldTail, noTail, if_false, found, bind, Except.bind, pure, Except.pure]
        simp only [UndoPage.readSegmentHeader, UndoPage.writeSegmentHeader, tailSegment]
      refine ⟨_, run, by rw [if_neg noTail], fun id => ?_⟩
      rw [lookup_batch, lookup_insert]
      split
      · next isTail =>
        rw [if_neg (isTail ▸ different), if_pos ⟨noTail, isTail⟩, ← isTail, tailCached, Option.map_some,
          tailSegment]
        rfl
      · next notTail =>
        rw [lookup_insert, if_neg (fun isTail : _ ∧ oldTail = id => notTail isTail.2)]
        split
        · rfl
        · exact cached id
  rcases commits with ⟨after, run, metaPage, pages⟩
  have head := (pages first).trans (if_pos rfl)
  refine ⟨after, run, metaPage, ?_, ⟨_, _, head, rfl, rfl, rfl, rfl, rfl⟩,
    ⟨_, _, head, rfl, congrArg MetaPage.undoHistoryTail current, rfl⟩, ?_⟩
  · intro id page stored
    rw [pages]
    split
    · next same =>
      cases same
      cases headCached.symm.trans stored
      exact ⟨_, rfl, rfl, rfl, fun different => absurd rfl different,
        fun different => absurd rfl different⟩
    · rw [stored]
      split
      · next isTail =>
        refine ⟨_, rfl, rfl, rfl, fun _ notTail => absurd isTail.2.symm notTail, ?_⟩
        intro _ _ _ header own
        dsimp only
        rw [own, Option.map_some]
      · next notTail =>
        exact ⟨page, rfl, rfl, rfl, fun _ _ => rfl,
          fun _ isTail nonzero => absurd ⟨(isTail ▸ nonzero :), isTail.symm⟩ notTail⟩
  · intro id page' header' found own
    rw [pages] at found
    split at found
    · next same => exact .inl same.symm
    · split at found
      · rcases Option.map_eq_some_iff.mp found with ⟨page, stored, rfl⟩
        rcases Option.map_eq_some_iff.mp own with ⟨header, segment, rfl⟩
        exact .inr ⟨page, header, stored, segment, rfl, rfl, rfl⟩
      · exact .inr ⟨page', header', found, own, rfl, rfl, rfl⟩

theorem Inv.tail_cases (inv : log.Inv owner) :
    (log.history = [] ∧ log.store.metaPage.undoHistoryTail = 0) ∨
      ∃ front last, log.history = front ++ [last] ∧ last ∈ log.history ∧
        log.store.metaPage.undoHistoryTail = last.first ∧
        HistoryLinked log.store.pages last.first front ∧ Sealed log.store.pages last 0 := by
  have tail := inv.historyTail
  rcases eq_nil_or_concat log.history with empty | ⟨front, last, shape⟩
  · rw [empty] at tail
    exact .inl ⟨empty, tail⟩
  · rw [concat_eq_append] at shape
    have linked := inv.linked
    rw [shape] at linked tail
    rw [tailOf, List.getLast?_concat] at tail
    have parts := HistoryLinked.append.mp linked
    exact .inr ⟨front, last, shape, shape ▸ mem_append_right front mem_cons_self, tail,
      parts.1, parts.2.1⟩

variable {after : UndoStore Value} {endLsn count startLsn : Nat} {txnId : TxnId}
  {txn : TxnUndo Value} {first : PageId} {ids : List PageId}

theorem Committed.keeps (committed : Committed store after endLsn first count) :
    Kept store.pages after.pages := by
  intro id page stored
  rcases committed.kept id page stored with ⟨page', stored', next, records, _⟩
  exact ⟨page', stored', next, records⟩

theorem Inv.linked_commit (inv : log.Inv owner) {rest : List PageId}
    (owned : log.allocated[txnId]? = some (first :: rest))
    (progress : InProgress log.store txn (first :: rest))
    (committed : Committed log.store after endLsn first count) :
    HistoryLinked after.pages 0 (log.history ++ [⟨txnId, endLsn, first, rest⟩]) := by
  have notOwn : ∀ segment id, segment ∈ log.history -> id ∈ segment.pages -> id ≠ first := by
    rintro _ _ member inside rfl
    exact inv.not_shared owned member inside mem_cons_self
  have cachedChain : Chained log.store.pages (first :: rest) := by
    apply progress.chained.frame
    intro id page member stored
    exact ⟨page, (progress.cached id member).trans stored, rfl⟩
  rw [HistoryLinked.append]
  refine ⟨?_, ⟨committed.keeps.chained cachedChain, committed.sealed⟩, trivial⟩
  rcases inv.tail_cases with ⟨empty, _⟩ |
    ⟨front, last, shape, lastMember, tail, linkedFront, sealedLast⟩
  · rw [empty]
    trivial
  · have frontMember : ∀ segment ∈ front, segment ∈ log.history := by
      intro segment member
      rw [shape]
      exact mem_append_left _ member
    rw [shape, HistoryLinked.append]
    refine ⟨?_, ?_, trivial⟩
    · apply linkedFront.frame
      intro segment id page member inside stored
      rcases committed.kept id page stored with ⟨page', stored', next, _, same, _⟩
      refine ⟨page', stored', next, ?_⟩
      intro header own
      refine ⟨header, ?_, rfl, rfl, rfl, rfl⟩
      rw [same (notOwn segment id (frontMember segment member) inside), own]
      -- a segment of the front has no page of the last one
      intro isTail
      have distinct := inv.histories
      rw [shape, map_append, nodup_append] at distinct
      exact distinct.2.2 segment.txnId (mem_map_of_mem member) last.txnId
        (mem_singleton.mpr rfl) (inv.noSharedPage _ _ id (.committed (frontMember segment member) inside)
          (.committed lastMember ((isTail.trans tail) ▸ mem_cons_self)))
    · constructor
      · exact committed.keeps.chained sealedLast.chained
      · rcases sealedLast.header with ⟨page, header, stored, own, state, lsn, isFirst, _⟩
        rcases committed.kept last.first page stored with ⟨page', stored', _, _, _, relinked⟩
        have relinkedHeader := relinked (notOwn last _ lastMember mem_cons_self) tail.symm
          (inv.first_ne_zero lastMember) header own
        exact ⟨page', _, stored', relinkedHeader, state, lsn, isFirst, rfl⟩

theorem Committed.unchanged {page : UndoPage Value}
    (committed : Committed store after endLsn first count) (stored : store.pages[id]? = some page)
    (notFirst : id ≠ first) (notTail : id ≠ store.metaPage.undoHistoryTail) :
    after.pages[id]? = store.pages[id]? := by
  rcases committed.kept id page stored with ⟨page', stored', next, records, segment, _⟩
  rw [stored, stored', Option.some_inj]
  cases page
  cases page'
  cases next
  cases records
  cases segment notFirst notTail
  rfl

theorem lookup_drop_txns (txnId other : TxnId) :
    (log.drop txnId).txns[other]? = if txnId = other then none else log.txns[other]? :=
  lookup_erase ..

theorem lookup_drop_allocated (txnId other : TxnId) :
    (log.drop txnId).allocated[other]? = if txnId = other then none else log.allocated[other]? :=
  lookup_erase ..

section

variable (inv : log.Inv owner)

include inv

theorem Inv.drop (txnId : TxnId) : (log.drop txnId).Inv owner := by
  refine { inv with allocated := ?_, inProgress := ?_, ended := ?_, done := ?_ }
  · intro other ids id isAllocated
    exact inv.allocated other ids id (lookup_erase_cases isAllocated).2
  · intro other txn found
    rcases lookup_erase_cases found with ⟨different, before⟩
    rw [lookup_drop_allocated, if_neg (Ne.symm different)]
    exact inv.inProgress other txn before
  · intro other finished
    rw [lookup_drop_txns] at finished
    rw [lookup_drop_allocated]
    split
    · rfl
    · next different =>
      rw [if_neg different] at finished
      exact inv.ended other finished
  · intro segment member
    rw [lookup_drop_txns]
    split
    · rfl
    · exact inv.done segment member

section

variable (current : log.ownMetaCurrent (.commit txnId startLsn endLsn))

include current

/-- A commit with the cached META page succeeds.  Without undo records it leaves
the pages as they are, otherwise it seals the segment of the transaction. -/
theorem Inv.commit_cases
    (found : log.txns[txnId]? = some txn) (owned : log.allocated[txnId]? = some ids)
    (progress : InProgress log.store txn ids) :
    (ids = [] ∧ ∃ after, log.commit txnId startLsn endLsn = some (.ok { log.drop txnId with
          store := after, history := log.history }) ∧
        after.metaPage = log.store.metaPage ∧
        ∀ id : PageId, after.pages[id]? = log.store.pages[id]?) ∨
      ∃ first rest after, ids = first :: rest ∧
        log.commit txnId startLsn endLsn = some (.ok { log.drop txnId with
          store := after, history := log.history ++ [⟨txnId, endLsn, first, rest⟩] }) ∧
        Committed log.store after endLsn first txn.recordCount := by
  have base : (UndoView.mk log.store txn).baseMeta = log.store.metaPage := by
    unfold UndoView.baseMeta
    cases staged : txn.dirtyMeta with
    | none => rfl
    | some _ =>
      have agrees : (log.txns[txnId]?.bind TxnUndo.dirtyMeta).all
          (fun staged => staged = log.store.metaPage) = true := current
      rw [found, Option.bind_some, staged, Option.all_some, decide_eq_true_eq] at agrees
      exact agrees
  cases ids with
  | nil =>
    have run : (UndoView.mk log.store txn).commit txnId startLsn endLsn = .ok
        { metaPage := log.store.metaPage, pages := log.store.pages ∪ txn.dirty } := by
      unfold UndoView.commit UndoView.sealSegment
      rw [base]
      simp only [progress.first, List.head?_nil, bind, Except.bind, pure, Except.pure]
    have noSegment : log.newSegment txnId endLsn = [] := by
      rw [newSegment, owned]
    refine .inl ⟨rfl, { metaPage := log.store.metaPage, pages := log.store.pages ∪ txn.dirty }, ?_,
      rfl, ?_⟩
    · unfold commit
      rw [found, Option.map_some, run, noSegment, append_nil]
    · intro id
      rw [lookup_batch]
      cases own : txn.dirty[id]? with
      | none => rfl
      | some page => cases progress.own id page own
  | cons first rest =>
    have tail : log.store.metaPage.undoHistoryTail ≠ 0 -> ∃ page header,
        log.store.pages[log.store.metaPage.undoHistoryTail]? = some page ∧
          page.segment = some header ∧ log.store.metaPage.undoHistoryTail ∉ first :: rest := by
      intro nonzero
      rcases inv.tail_cases with ⟨_, isZero⟩ | ⟨_, _, _, inHistory, isLast, _, sealedLast⟩
      · exact absurd isZero nonzero
      · rcases sealedLast.header with ⟨page, header, stored, own, _⟩
        rw [isLast]
        exact ⟨page, header, stored, own, inv.not_shared owned inHistory mem_cons_self⟩
    rcases @commit_run Value ⟨log.store, txn⟩ txnId startLsn endLsn first rest progress base tail with
      ⟨after, run, committed⟩
    have newHistory : log.newSegment txnId endLsn = [⟨txnId, endLsn, first, rest⟩] := by
      rw [newSegment, owned]
    refine .inr ⟨first, rest, after, rfl, ?_, committed⟩
    unfold commit
    rw [found, Option.map_some, run, newHistory]

theorem Inv.commits
    (taken : log.commit txnId startLsn endLsn = some (.ok next)) : next.Inv owner := by
  rcases Option.map_eq_some_iff.mp taken with ⟨txn, found, _⟩
  rcases inv.inProgress txnId txn found with ⟨ids, owned, progress⟩
  have dropped := inv.drop txnId
  rcases inv.commit_cases current found owned progress with
    ⟨rfl, _, run, sameMeta, same⟩ | ⟨_, _, _, rfl, run, committed⟩
  · rw [run] at taken
    cases taken
    refine { dropped with metaOwned := ?_, inProgress := ?_, linked := ?_, historyHead := ?_, historyTail := ?_ }
    · exact sameMeta ▸ inv.metaOwned
    · intro other otherTxn inside
      rcases dropped.inProgress other otherTxn inside with ⟨ids, isAllocated, otherProgress⟩
      exact ⟨ids, isAllocated, otherProgress.frame (fun id _ => same id)⟩
    · exact inv.linked.frame_eq (fun _ id _ _ => same id)
    · exact sameMeta ▸ inv.historyHead
    · exact sameMeta ▸ inv.historyTail
  · rw [run] at taken
    cases taken
    refine ⟨?_, dropped.allocated, ?_, dropped.ended, ?_, ?_, ?_, ?_, ?_, ?_, ?_⟩
    · rw [committed.metaPage]
      exact ⟨inv.metaOwned.zero, inv.metaOwned.fresh, inv.metaOwned.free, inv.metaOwned.distinct⟩
    · intro other otherTxn inside
      rcases dropped.inProgress other otherTxn inside with ⟨ids, isAllocated, otherProgress⟩
      refine ⟨ids, isAllocated, otherProgress.frame ?_⟩
      intro id member
      have isOwner := dropped.allocated other ids id isAllocated member
      rcases otherProgress.chained.stored member with ⟨_, dirty⟩
      apply committed.unchanged ((otherProgress.cached id member).trans dirty)
      · rintro rfl
        rw [inv.allocated txnId _ id owned mem_cons_self] at isOwner
        rw [← Owner.txn.inj isOwner, lookup_drop_txns, if_pos rfl] at inside
        cases inside
      · rintro rfl
        rcases inv.tail_cases with ⟨_, isZero⟩ | ⟨front, _, _, lastMember, isLast, _⟩
        · rw [isZero, inv.metaOwned.zero] at isOwner
          cases isOwner
        · exact dropped.not_shared isAllocated lastMember mem_cons_self (isLast ▸ member)
    · intro segment id member inside
      rcases mem_append.mp member with before | isNew
      · exact inv.committed segment id before inside
      · cases mem_singleton.mp isNew
        exact inv.allocated txnId _ id owned inside
    · exact forall_mem_append.mpr ⟨inv.segmentDistinct, forall_mem_singleton.mpr progress.distinct⟩
    · exact forall_mem_append.mpr ⟨dropped.done,
        forall_mem_singleton.mpr ((lookup_drop_txns txnId txnId).trans (if_pos rfl))⟩
    · rw [map_append, nodup_append]
      refine ⟨inv.histories, nodup_singleton _, ?_⟩
      intro _ inside _ isNew same
      rcases mem_map.mp inside with ⟨_, member, isLeft⟩
      cases mem_singleton.mp isNew
      exact inv.running owned member (isLeft.trans same)
    · exact inv.linked_commit owned progress committed
    · rw [committed.metaPage]
      rcases inv.tail_cases with ⟨empty, isZero⟩ | ⟨front, _, shape, lastMember, isLast, _⟩
      · rw [empty]
        exact if_pos isZero
      · have nonzero : log.store.metaPage.undoHistoryTail ≠ 0 := by
          rw [isLast]
          exact inv.first_ne_zero lastMember
        rw [if_neg nonzero, inv.historyHead, headOf, headOf, shape]
        cases front <;> rfl
    · rw [committed.metaPage, tailOf, List.getLast?_concat]
      rfl

/-- A commit with the cached META page succeeds, keeps every record and adds the
pages of the transaction to the history. -/
theorem Inv.commit_keeps
    (found : log.txns[txnId]? = some txn) (owned : log.allocated[txnId]? = some ids) :
    ∃ after, log.commit txnId startLsn endLsn = some (.ok after) ∧ after.Inv owner ∧
      after.txns = log.txns.erase txnId ∧ after.allocated = log.allocated.erase txnId ∧
      after.history = log.history ++ log.newSegment txnId endLsn ∧
      ∀ (id : PageId) page, log.store.pages[id]? = some page ->
        ∃ page', after.store.pages[id]? = some page' ∧ page'.records = page.records := by
  rcases inv.inProgress txnId txn found with ⟨_, isOwn, progress⟩
  cases owned.symm.trans isOwn
  rcases inv.commit_cases current found owned progress with
    ⟨rfl, _, run, _, same⟩ | ⟨_, _, _, rfl, run, committed⟩
  · refine ⟨_, run, inv.commits current run, rfl, rfl, ?_, ?_⟩
    · rw [newSegment, owned, append_nil]
    · intro id page stored
      exact ⟨page, (same id).trans stored, rfl⟩
  · refine ⟨_, run, inv.commits current run, rfl, rfl, ?_, ?_⟩
    · rw [newSegment, owned]
    · intro id page stored
      rcases committed.kept id page stored with ⟨page', stored', _, records, _⟩
      exact ⟨page', stored', records⟩

end

end

end

/-! ## Purging -/

/-- Pages that go to the free list go behind those that are there, as far as
there is room. -/
theorem pushed_eq (metaPage : MetaPage) (ids : List PageId) :
    ∃ freed, freed.Sublist ids ∧
      ids.foldl MetaPage.pushFreeUndo metaPage =
        { metaPage with undoFree := metaPage.undoFree ++ freed } := by
  induction ids generalizing metaPage with
  | nil => exact ⟨[], List.Sublist.slnil, by rw [append_nil]; rfl⟩
  | cons id _ ih =>
    rcases ih (metaPage.pushFreeUndo id) with ⟨freed, sublist, result⟩
    rw [foldl_cons, result]
    unfold MetaPage.pushFreeUndo
    split
    · exact ⟨id :: freed, sublist.cons_cons id, by simp⟩
    · exact ⟨freed, sublist.cons id, rfl⟩

theorem pushed_free {left right : MetaPage} (same : left.undoFree = right.undoFree) (ids : List PageId) :
    (ids.foldl MetaPage.pushFreeUndo left).undoFree = (ids.foldl MetaPage.pushFreeUndo right).undoFree := by
  induction ids generalizing left right with
  | nil => exact same
  | cons _ _ ih =>
    refine ih ?_
    unfold MetaPage.pushFreeUndo
    rw [same]
    split
    · rfl
    · exact same

variable {ids : List PageId} {metaPage : MetaPage}

theorem freePages_run {fuel : Nat}
    (chained : Chained store.pages ids) (nonzero : ∀ id ∈ ids, id ≠ 0)
    (enough : ids.length < fuel) :
    store.freePages fuel (ids.headD 0) metaPage =
      some (.ok (ids.foldl MetaPage.pushFreeUndo metaPage)) := by
  induction ids generalizing fuel metaPage with
  | nil =>
    cases fuel with
    | zero => cases enough
    | succ _ => rfl
  | cons id rest ih =>
    cases fuel with
    | zero => cases enough
    | succ fuel =>
      rcases chained with ⟨⟨_, stored, next⟩, below⟩
      have later : store.freePages fuel (rest.headD 0) (metaPage.pushFreeUndo id) = _ :=
        ih below (fun other member => nonzero other (mem_cons_of_mem id member))
          (Nat.lt_of_succ_lt_succ enough)
      rw [← next] at later
      unfold freePages
      simp only [headD_cons, nonzero id mem_cons_self, if_false, getPage, stored, foldl_cons]
      exact later

/-- The state of the purge when the segments in `done` are purged and those in
`remaining` are not. -/
structure Purging (store : UndoStore Value) (done remaining : List Segment)
    (purge : UndoStore.Purge Value) : Prop where
  next : purge.metaPage.nextUndoPageId = store.metaPage.nextUndoPageId
  free : purge.metaPage.undoFree =
    ((done.flatMap Segment.pages).foldl MetaPage.pushFreeUndo store.metaPage).undoFree
  head : purge.metaPage.undoHistoryHead = headOf remaining
  tail : purge.metaPage.undoHistoryTail = tailOf remaining
  purged : purge.purged = done.map Segment.first
  closed : ∀ segment ∈ done, ∃ page, purge.dirtyPages[segment.first]? = some page
  front : done ≠ [] -> remaining ≠ [] -> ∃ page', purge.dirtyPages[headOf remaining]? = some page'
  dirty : ∀ (id : PageId) (page' : UndoPage Value), purge.dirtyPages[id]? = some page' ->
    ∃ page, store.pages[id]? = some page ∧ page'.nextId = page.nextId ∧
      page'.records = page.records ∧
      ((id ∈ done.map Segment.first ∧ ∃ header, page'.segment = some header ∧
          header.state = .purged) ∨
        (done ≠ [] ∧ remaining ≠ [] ∧ id = headOf remaining ∧ ∃ header,
          page.segment = some header ∧ page'.segment = some { header with historyPrev := 0 }))

theorem stored_insert {pages : TreeMap PageId (UndoPage Value)} {written : PageId}
    {new page : UndoPage Value} (stored : pages[id]? = some page) :
    ∃ page', (pages.insert written new)[id]? = some page' := by
  rw [lookup_insert]
  split
  · exact ⟨new, rfl⟩
  · exact ⟨page, stored⟩

theorem unlinkNext_run {purge : UndoStore.Purge Value} {rest : List Segment}
    (linked : HistoryLinked store.pages 0 rest)
    (nonzero : ∀ segment ∈ rest, segment.first ≠ 0) :
    ∃ unlinked, store.unlinkNext purge (headOf rest) = .ok unlinked ∧
      unlinked.metaPage.nextUndoPageId = purge.metaPage.nextUndoPageId ∧
      unlinked.metaPage.undoFree = purge.metaPage.undoFree ∧
      unlinked.metaPage.undoHistoryHead = headOf rest ∧
      unlinked.metaPage.undoHistoryTail = (if rest = [] then 0 else purge.metaPage.undoHistoryTail) ∧
      unlinked.purged = purge.purged ∧
      (rest ≠ [] -> ∃ page', unlinked.dirtyPages[headOf rest]? = some page') ∧
      (∀ (id : PageId) page, purge.dirtyPages[id]? = some page ->
        ∃ page', unlinked.dirtyPages[id]? = some page') ∧
      (∀ (id : PageId) page', unlinked.dirtyPages[id]? = some page' ->
        purge.dirtyPages[id]? = some page' ∨
          ∃ page, store.pages[id]? = some page ∧ page'.nextId = page.nextId ∧
            page'.records = page.records ∧ rest ≠ [] ∧ id = headOf rest ∧
            ∃ header, page.segment = some header ∧
              page'.segment = some { header with historyPrev := 0 }) := by
  cases rest with
  | nil =>
    refine ⟨_, rfl, rfl, rfl, rfl, rfl, rfl, fun impossible => absurd rfl impossible,
      fun id page found => ⟨page, found⟩, ?_⟩
    intro id page' found
    exact .inl found
  | cons segment =>
    have present : segment.first ≠ 0 := nonzero segment mem_cons_self
    rcases linked.1.header with ⟨page, header, stored, own, _⟩
    have run : store.unlinkNext purge segment.first = .ok { purge with
        metaPage := { purge.metaPage with undoHistoryHead := segment.first }
        dirtyPages := purge.dirtyPages.insert segment.first
          { page with segment := some { header with historyPrev := 0 } } } := by
      unfold unlinkNext
      simp only [present, if_false, getPage, stored, UndoPage.readSegmentHeader, own,
        UndoPage.writeSegmentHeader, bind, Except.bind, pure, Except.pure]
    refine ⟨_, run, rfl, rfl, rfl, (if_neg (cons_ne_nil _ _)).symm, rfl,
      fun _ => ⟨_, TreeMap.getElem?_insert_self⟩,
      fun id page found => stored_insert found, ?_⟩
    intro id page' found
    rcases lookup_insert_cases found with ⟨rfl, rfl⟩ | ⟨_, before⟩
    · exact .inr ⟨page, stored, rfl, rfl, cons_ne_nil _ _, rfl, header, own, rfl⟩
    · exact .inl before

theorem purgeLoop_run {gcLsn fuel : Nat} {done remaining : List Segment}
    {purge : UndoStore.Purge Value} (purging : Purging store done remaining purge)
    (linked : HistoryLinked store.pages 0 remaining)
    (nonzero : ∀ segment id, segment ∈ remaining -> id ∈ segment.pages -> id ≠ 0)
    (distinct : (remaining.map Segment.first).Nodup)
    (small : ∀ segment ∈ remaining, segment.pages.length ≤ store.pages.size)
    (enough : remaining.length < fuel) :
    ∃ taken rest result, store.purgeLoop gcLsn fuel purge = some (.ok result) ∧
      remaining = taken ++ rest ∧ (∀ segment ∈ taken, segment.commitLsn ≤ gcLsn) ∧
      (∀ segment, rest.head? = some segment -> gcLsn < segment.commitLsn) ∧
      Purging store (done ++ taken) rest result := by
  induction remaining generalizing done purge fuel with
  | nil =>
    cases fuel with
    | zero => cases enough
    | succ _ =>
      refine ⟨[], [], purge, ?_, rfl, ?_, ?_, ?_⟩
      · unfold purgeLoop
        simp [purging.head, headOf]
      · exact forall_mem_nil _
      · intro _ isHead
        cases isHead
      · rw [append_nil]
        exact purging
  | cons segment rest ih =>
    cases fuel with
    | zero => cases enough
    | succ fuel =>
      have atHead : purge.metaPage.undoHistoryHead = segment.first := purging.head
      have present : segment.first ≠ 0 :=
        nonzero segment segment.first mem_cons_self mem_cons_self
      rcases linked.1.header with ⟨page, header, stored, own, state, lsn, isFirst, link⟩
      by_cases young : gcLsn < segment.commitLsn
      · refine ⟨[], segment :: rest, purge, ?_, rfl, ?_, ?_, ?_⟩
        · unfold purgeLoop
          simp [atHead, present, getPage, stored, UndoPage.readSegmentHeader, own, lsn, young]
        · exact forall_mem_nil _
        · intro other isHead
          cases isHead
          exact young
        · rw [append_nil]
          exact purging
      · rcases @unlinkNext_run Value store purge rest linked.2 (fun other member =>
            nonzero other _ (mem_cons_of_mem segment member) mem_cons_self) with
          ⟨unlinked, run, next, free, head, tail, purged, front, keeps, dirty⟩
        have freeing : store.freePages (store.pages.size + 1) segment.first unlinked.metaPage =
            some (.ok (segment.pages.foldl MetaPage.pushFreeUndo unlinked.metaPage)) :=
          freePages_run linked.1.chained (fun id inside => nonzero segment id mem_cons_self inside)
            (Nat.lt_succ_of_le (small segment mem_cons_self))
        rcases pushed_eq unlinked.metaPage segment.pages with ⟨_, _, pushed⟩
        have notNext : rest ≠ [] -> segment.first ≠ headOf rest := by
          intro present same
          cases rest with
          | nil => exact present rfl
          | cons _ =>
            exact (nodup_cons.mp distinct).1 (same ▸ mem_map_of_mem mem_cons_self)
        have advanced : Purging store (done ++ [segment]) rest
            { metaPage := segment.pages.foldl MetaPage.pushFreeUndo unlinked.metaPage
              dirtyPages := unlinked.dirtyPages.insert segment.first { page with
                segment := some { header with
                  state := .purged, historyPrev := 0, historyNext := 0 } }
              purged := unlinked.purged ++ [segment.first] } := by
          refine ⟨?_, ?_, ?_, ?_, ?_, ?_, ?_, ?_⟩
          · rw [pushed]
            exact next.trans purging.next
          · rw [flatMap_append, flatMap_singleton, foldl_append]
            exact pushed_free (free.trans purging.free) segment.pages
          · rw [pushed]
            exact head
          · rw [pushed]
            refine tail.trans ?_
            rw [purging.tail]
            cases rest <;> rfl
          · rw [purged, purging.purged, map_append]
            rfl
          · intro other member
            rcases mem_append.mp member with before | isNew
            · rcases purging.closed other before with ⟨old, found⟩
              rcases keeps other.first old found with ⟨_, keptFound⟩
              exact stored_insert keptFound
            · cases mem_singleton.mp isNew
              exact ⟨_, TreeMap.getElem?_insert_self⟩
          · intro _ present
            rcases front present with ⟨page', found⟩
            exact ⟨page', (lookup_insert_of_ne _ _ (notNext present)).trans found⟩
          · intro id page' found
            rw [map_append]
            rcases lookup_insert_cases found with ⟨rfl, rfl⟩ | ⟨different, before⟩
            · exact ⟨page, stored, rfl, rfl, .inl ⟨mem_concat_self, _, rfl, rfl⟩⟩
            · rcases dirty id page' before with earlier | ⟨old, oldStored, same, records, relinked⟩
              · rcases purging.dirty id page' earlier with ⟨old, oldStored, same, records, place⟩
                refine ⟨old, oldStored, same, records, .inl ?_⟩
                rcases place with ⟨isDone, closed⟩ | ⟨_, _, isHead, _⟩
                · exact ⟨mem_append_left _ isDone, closed⟩
                · exact absurd isHead different
              · exact ⟨old, oldStored, same, records,
                  .inr ⟨append_ne_nil_of_right_ne_nil _ (cons_ne_nil _ _), relinked⟩⟩
        have shorter : rest.length < fuel := Nat.lt_of_succ_lt_succ enough
        rcases ih advanced linked.2
            (fun other id member => nonzero other id (mem_cons_of_mem segment member))
            (nodup_cons.mp distinct).2
            (fun other member => small other (mem_cons_of_mem segment member)) shorter with
          ⟨taken, last, result, finished, shape, old, youngRest, final⟩
        refine ⟨segment :: taken, last, result, ?_, ?_, ?_, youngRest, ?_⟩
        · rw [← finished]
          have behind : header.historyNext = headOf rest := link
          conv => lhs; unfold purgeLoop
          simp only [atHead, present, if_false, getPage, stored,
            UndoPage.readSegmentHeader, own, lsn, young, state, behind, isFirst, run, freeing,
            ne_eq, not_true_eq_false, or_self]
        · rw [shape]
          rfl
        · exact forall_mem_cons.mpr ⟨Nat.le_of_not_lt young, old⟩
        · rw [append_assoc] at final
          exact final

theorem length_le_size {pages : TreeMap PageId (UndoPage Value)} (distinct : ids.Nodup)
    (stored : ∀ id ∈ ids, ∃ page, pages[id]? = some page) :
    ids.length ≤ pages.size := by
  rw [← TreeMap.length_keys]
  apply (subperm_of_subset distinct ?_).length_le
  intro id member
  rcases stored id member with ⟨_, found⟩
  rw [TreeMap.mem_keys, TreeMap.mem_iff_isSome_getElem?, found]
  rfl

section

variable {log next : UndoLog Value} {owner : PageId -> Owner}

theorem Inv.firsts_distinct (inv : log.Inv owner) : (log.history.map Segment.first).Nodup := by
  apply List.Nodup.of_map owner
  have owners : (log.history.map Segment.first).map owner =
      (log.history.map Segment.txnId).map Owner.txn := by
    rw [map_map, map_map]
    apply map_congr_left
    intro segment member
    exact inv.committed segment _ member mem_cons_self
  rw [owners]
  exact inv.histories.map (fun _ _ same => Owner.txn.inj same)

theorem Inv.small (inv : log.Inv owner) {segment : Segment} (member : segment ∈ log.history) :
    segment.pages.length ≤ log.store.pages.size := by
  rcases inv.linked.sealed member with ⟨_, sealed⟩
  exact length_le_size (inv.segmentDistinct segment member) (fun id inside => sealed.chained.stored inside)

theorem Inv.history_le_size (inv : log.Inv owner) : log.history.length ≤ log.store.pages.size := by
  rw [← @length_map _ _ log.history Segment.first]
  apply length_le_size inv.firsts_distinct
  intro _ member
  rcases mem_map.mp member with ⟨_, inside, rfl⟩
  rcases inv.linked.sealed inside with ⟨_, sealed⟩
  exact sealed.chained.stored mem_cons_self

variable {store : UndoStore Value} {taken rest : List Segment} {result : UndoStore.Purge Value}

/-- The batch of the purge changes headers only: it closes what it has purged and
cuts the link back of the first segment that stays. -/
theorem Purging.pages (purging : Purging store taken rest result) (nonempty : taken ≠ []) {page' : UndoPage Value}
    (found : (store.pages ∪ result.dirtyPages)[id]? = some page') :
    ∃ page, store.pages[id]? = some page ∧ page'.nextId = page.nextId ∧
      page'.records = page.records ∧
      ((id ∈ taken.map Segment.first ∧ ∃ header, page'.segment = some header ∧
          header.state = .purged) ∨
        (rest ≠ [] ∧ id = headOf rest ∧ ∃ header, page.segment = some header ∧
          page'.segment = some { header with historyPrev := 0 }) ∨
        (page'.segment = page.segment ∧ id ∉ taken.map Segment.first ∧
          (rest ≠ [] -> id ≠ headOf rest))) := by
  rw [lookup_batch] at found
  cases dirty : result.dirtyPages[id]? with
  | none =>
    rw [dirty, Option.none_or] at found
    refine ⟨page', found, rfl, rfl, .inr (.inr ⟨rfl, ?_, ?_⟩)⟩
    · intro isTaken
      rcases mem_map.mp isTaken with ⟨segment, inside, rfl⟩
      rcases purging.closed segment inside with ⟨_, written⟩
      cases dirty.symm.trans written
    · rintro remains rfl
      rcases purging.front nonempty remains with ⟨_, written⟩
      cases dirty.symm.trans written
  | some =>
    rw [dirty, Option.some_or] at found
    cases found
    rcases purging.dirty id page' dirty with ⟨page, stored, next, records, closed | ⟨_, relinked⟩⟩
    · exact ⟨page, stored, next, records, .inl closed⟩
    · exact ⟨page, stored, next, records, .inr (.inl relinked)⟩

theorem Purging.kept (purging : Purging store taken rest result) :
    Kept store.pages (store.pages ∪ result.dirtyPages) := by
  intro id page stored
  rw [lookup_batch]
  cases dirty : result.dirtyPages[id]? with
  | none => exact ⟨page, stored, rfl, rfl⟩
  | some page' =>
    rcases purging.dirty id page' dirty with ⟨_, wasStored, next, records, _⟩
    cases stored.symm.trans wasStored
    exact ⟨page', rfl, next, records⟩

/-- What the purge leaves: the old segments are gone, every page keeps its
records. -/
structure Purged (log next : UndoLog Value) (gcLsn : Nat) (taken : List Segment) : Prop where
  history : log.history = taken ++ next.history
  old : ∀ segment ∈ taken, segment.commitLsn ≤ gcLsn
  young : ∀ segment, next.history.head? = some segment -> gcLsn < segment.commitLsn
  txns : next.txns = log.txns
  allocated : next.allocated = log.allocated
  kept : ∀ (id : PageId) (page : UndoPage Value), log.store.pages[id]? = some page ->
    ∃ page', next.store.pages[id]? = some page' ∧ page'.records = page.records

theorem Inv.notTaken (inv : log.Inv owner) (shape : log.history = taken ++ rest)
    {txnId : TxnId} (isOwner : owner id = .txn txnId)
    (other : ∀ segment ∈ taken, segment.txnId ≠ txnId) :
    id ∉ taken.flatMap Segment.pages := by
  intro member
  rcases mem_flatMap.mp member with ⟨segment, inside, isPage⟩
  have ofSegment := inv.committed segment id (shape ▸ mem_append_left rest inside) isPage
  rw [isOwner] at ofSegment
  exact other segment inside (Owner.txn.inj ofSegment).symm

def ownerAfterPurge (owner : PageId -> Owner) (freed gone : List PageId) (id : PageId) : Owner :=
  if id ∈ freed then .free else if id ∈ gone then .lost else owner id

section

variable (inv : log.Inv owner)

include inv

section

variable (shape : log.history = taken ++ rest)

include shape

theorem Inv.metaOwned_purge {freed : List PageId} (sublist : freed.Sublist (taken.flatMap Segment.pages))
    (sameNext : metaPage.nextUndoPageId = log.store.metaPage.nextUndoPageId)
    (free : metaPage.undoFree = log.store.metaPage.undoFree ++ freed) :
    MetaOwned metaPage (ownerAfterPurge owner freed (taken.flatMap Segment.pages)) := by
  have ofTaken : ∀ id ∈ taken.flatMap Segment.pages, ∃ txnId, owner id = .txn txnId := by
    intro id member
    rcases mem_flatMap.mp member with ⟨segment, inside, isPage⟩
    exact ⟨_, inv.committed segment id (shape ▸ mem_append_left rest inside) isPage⟩
  have kept : ∀ {id state}, owner id = state -> (∀ txnId, state ≠ .txn txnId) ->
      ownerAfterPurge owner freed (taken.flatMap Segment.pages) id = state := by
    rintro id _ rfl unowned
    have notGone : id ∉ taken.flatMap Segment.pages := by
      intro member
      rcases ofTaken id member with ⟨txnId, isOwner⟩
      exact unowned txnId isOwner
    rw [ownerAfterPurge, if_neg (fun member => notGone (sublist.subset member)), if_neg notGone]
  refine ⟨kept inv.metaOwned.zero nofun, ?_, ?_, ?_⟩
  · intro id above
    refine kept (inv.metaOwned.fresh id ?_) nofun
    unfold MetaPage.raised at above ⊢
    rw [sameNext] at above
    exact above
  · rw [free]
    exact forall_mem_append.mpr ⟨fun id before => kept (inv.metaOwned.free id before) nofun,
      fun id isFreed => if_pos isFreed⟩
  · rw [free, nodup_append]
    refine ⟨inv.metaOwned.distinct, ?_, ?_⟩
    · apply sublist.nodup
      rw [nodup_flatMap]
      constructor
      · intro segment inside
        exact inv.segmentDistinct segment (shape ▸ mem_append_left rest inside)
      · have distinct := inv.histories
        rw [shape, map_append] at distinct
        have apart := pairwise_map.mp (nodup_append.mp distinct).1
        refine List.Pairwise.imp_of_mem ?_ apart
        intro _ _ leftInside rightInside different id inLeft inRight
        exact different (inv.noSharedPage _ _ id
          (.committed (shape ▸ mem_append_left rest leftInside) inLeft)
          (.committed (shape ▸ mem_append_left rest rightInside) inRight))
    · rintro id inFree _ inFreed rfl
      rcases ofTaken id (sublist.subset inFreed) with ⟨_, isOwner⟩
      rw [inv.metaOwned.free id inFree] at isOwner
      cases isOwner

theorem Inv.filter_purged :
    log.history.filter (fun segment => segment.first ∉ taken.map Segment.first) = rest := by
  have firsts := inv.firsts_distinct
  rw [shape, map_append, nodup_append] at firsts
  have noneTaken : taken.filter (fun segment => segment.first ∉ taken.map Segment.first) = [] := by
    rw [filter_eq_nil_iff]
    intro segment member
    simp only [decide_eq_true_eq, not_not]
    exact mem_map_of_mem member
  have allKept : rest.filter (fun segment => segment.first ∉ taken.map Segment.first) = rest := by
    rw [filter_eq_self]
    intro segment member
    rw [decide_eq_true_eq]
    intro inside
    exact firsts.2.2 segment.first inside segment.first (mem_map_of_mem member) rfl
  rw [shape, filter_append, noneTaken, allKept, nil_append]

theorem Inv.afterPurge (purging : Purging log.store taken rest result) :
    ∃ owner', Inv { log with
        store := { metaPage := result.metaPage, pages := log.store.pages ∪ result.dirtyPages }
        history := rest } owner' ∧
      ∀ id txnId, owner id = .txn txnId ->
        (∀ segment ∈ taken, segment.txnId ≠ txnId) -> owner' id = .txn txnId := by
  have restMember : ∀ segment ∈ rest, segment ∈ log.history := by
    intro segment member
    rw [shape]
    exact mem_append_right taken member
  have distinctIds := inv.histories
  rw [shape, map_append, nodup_append] at distinctIds
  have apart : ∀ segment ∈ rest, ∀ other ∈ taken,
      other.txnId ≠ segment.txnId := by
    intro segment member other inside same
    exact distinctIds.2.2 other.txnId (mem_map_of_mem inside) segment.txnId
      (mem_map_of_mem member) same
  rcases pushed_eq log.store.metaPage (taken.flatMap Segment.pages) with ⟨freed, sublist, pushed⟩
  have free : result.metaPage.undoFree = log.store.metaPage.undoFree ++ freed := by
    rw [purging.free, pushed]
  have keptOwner : ∀ id txnId, owner id = .txn txnId ->
      (∀ segment ∈ taken, segment.txnId ≠ txnId) ->
      ownerAfterPurge owner freed (taken.flatMap Segment.pages) id = .txn txnId := by
    intro id txnId isOwner other
    have notGone := inv.notTaken shape isOwner other
    rw [ownerAfterPurge, if_neg (fun member => notGone (sublist.subset member)), if_neg notGone]
    exact isOwner
  refine ⟨ownerAfterPurge owner freed (taken.flatMap Segment.pages),
    ⟨inv.metaOwned_purge shape sublist purging.next free, ?_, ?_, inv.ended, ?_, ?_, ?_,
      distinctIds.2.1, ?_, purging.head, purging.tail⟩, keptOwner⟩
  · intro txnId ids id isAllocated member
    apply keptOwner id txnId (inv.allocated txnId ids id isAllocated member)
    intro segment inside
    exact inv.running isAllocated (shape ▸ mem_append_left rest inside)
  · intro txnId txn found
    rcases inv.inProgress txnId txn found with ⟨ids, isAllocated, progress⟩
    refine ⟨ids, isAllocated, progress.frame ?_⟩
    intro id member
    rw [lookup_batch]
    cases dirty : result.dirtyPages[id]? with
    | none => rfl
    | some page' =>
      -- the purge writes heads of segments only
      exfalso
      have head : ∃ segment ∈ log.history, id = segment.first := by
        rcases purging.dirty id page' dirty with ⟨_, _, _, _, ⟨isTaken, _⟩ | ⟨_, present, isHead, _⟩⟩
        · rcases mem_map.mp isTaken with ⟨segment, inside, isFirst⟩
          exact ⟨segment, shape ▸ mem_append_left rest inside, isFirst.symm⟩
        · cases rest with
          | nil => exact absurd rfl present
          | cons segment => exact ⟨segment, restMember segment mem_cons_self, isHead⟩
      rcases head with ⟨_, inside, rfl⟩
      exact inv.not_shared isAllocated inside mem_cons_self member
  · intro segment id member inside
    exact keptOwner id segment.txnId (inv.committed segment id (restMember segment member) inside)
      (apart segment member)
  · intro segment member
    exact inv.segmentDistinct segment (restMember segment member)
  · intro segment member
    exact inv.done segment (restMember segment member)
  · have linked := inv.linked
    rw [shape] at linked
    apply (HistoryLinked.append.mp linked).2.frame
    intro segment id page member inside stored
    rw [lookup_batch]
    cases dirty : result.dirtyPages[id]? with
    | none => exact ⟨page, stored, rfl, fun header own => ⟨header, own, rfl, rfl, rfl, rfl⟩⟩
    | some page' =>
      rcases purging.dirty id page' dirty with ⟨_, wasStored, next, _, place⟩
      cases stored.symm.trans wasStored
      refine ⟨page', rfl, next, ?_⟩
      intro header own
      rcases place with ⟨isTaken, _⟩ | ⟨_, _, _, _, wasOwn, relinked⟩
      · rcases mem_map.mp isTaken with ⟨other, otherInside, rfl⟩
        exact absurd (inv.noSharedPage _ _ _
          (.committed (shape ▸ mem_append_left rest otherInside) mem_cons_self)
          (.committed (restMember segment member) inside)) (apart segment member other otherInside)
      · cases own.symm.trans wasOwn
        exact ⟨_, relinked, rfl, rfl, rfl, rfl⟩

end

omit inv in
theorem Purging.isEmpty_iff (purging : Purging store taken rest result) :
    result.dirtyPages.isEmpty = true <-> taken = [] := by
  rw [isEmpty_iff_lookup]
  constructor
  · intro nothing
    cases taken with
    | nil => rfl
    | cons segment =>
      rcases purging.closed segment mem_cons_self with ⟨_, found⟩
      rw [nothing] at found
      cases found
  · rintro rfl id
    cases found : result.dirtyPages[id]? with
    | none => rfl
    | some page' =>
      rcases purging.dirty id page' found with ⟨_, _, _, _, ⟨isTaken, _⟩ | ⟨some, _⟩⟩
      · cases isTaken
      · exact absurd rfl some

/-- The purge ends without a change when the oldest segment is too young, else it
writes what its loop has collected. -/
theorem Inv.purge_cases (gcLsn : Nat) :
    ∃ taken rest result, log.store.purgeLoop gcLsn (log.store.pages.size + 1)
        ⟨log.store.metaPage, ∅, []⟩ = some (.ok result) ∧
      log.history = taken ++ rest ∧ (∀ segment ∈ taken, segment.commitLsn ≤ gcLsn) ∧
      (∀ segment, rest.head? = some segment -> gcLsn < segment.commitLsn) ∧
      Purging log.store taken rest result ∧
      ((taken = [] ∧ log.purge gcLsn = some (.ok log)) ∨
        (taken ≠ [] ∧ log.purge gcLsn = some (.ok { log with
          store := { metaPage := result.metaPage, pages := log.store.pages ∪ result.dirtyPages }
          history := rest }))) := by
  have start : Purging log.store [] log.history ⟨log.store.metaPage, ∅, []⟩ :=
    ⟨rfl, rfl, inv.historyHead, inv.historyTail, rfl, nofun, fun impossible => absurd rfl impossible,
      forall_empty⟩
  have nonzero : ∀ segment id, segment ∈ log.history -> id ∈ segment.pages -> id ≠ 0 := by
    intro segment id member inside
    apply inv.ne_zero
    rw [inv.committed segment id member inside]
    exact Owner.noConfusion
  rcases @purgeLoop_run Value log.store gcLsn (log.store.pages.size + 1) [] log.history _ start
      inv.linked nonzero inv.firsts_distinct (fun segment member => inv.small member)
      (Nat.lt_succ_of_le inv.history_le_size) with
    ⟨taken, rest, result, run, shape, old, young, purging⟩
  refine ⟨taken, rest, result, run, shape, old, young, purging, ?_⟩
  by_cases nothing : result.dirtyPages.isEmpty = true
  · refine .inl ⟨purging.isEmpty_iff.mp nothing, ?_⟩
    unfold purge gcPurgeUndoSegments
    rw [run]
    simp [nothing]
  · refine .inr ⟨fun none => nothing (purging.isEmpty_iff.mpr none), ?_⟩
    unfold purge gcPurgeUndoSegments
    rw [run]
    dsimp only
    rw [if_neg nothing]
    dsimp only
    rw [purging.purged, nil_append, inv.filter_purged shape]

/-- The purge always succeeds and keeps the invariant; it takes pages only from
the transactions whose segments it purges. -/
theorem Inv.purges (gcLsn : Nat) :
    ∃ taken next owner', log.purge gcLsn = some (.ok next) ∧ Purged log next gcLsn taken ∧
      next.Inv owner' ∧ ∀ id txnId, owner id = .txn txnId ->
        (∀ segment ∈ taken, segment.txnId ≠ txnId) -> owner' id = .txn txnId := by
  rcases inv.purge_cases gcLsn with
    ⟨taken, _, _, _, shape, old, young, purging, ⟨rfl, purged⟩ | ⟨_, purged⟩⟩
  · refine ⟨[], log, owner, purged, ⟨rfl, old, ?_, rfl, rfl, fun id page found => ⟨page, found, rfl⟩⟩,
      inv, fun _ _ isOwner _ => isOwner⟩
    rw [shape]
    exact young
  · rcases inv.afterPurge shape purging with ⟨owner', kept, owners⟩
    refine ⟨taken, _, owner', purged, ⟨shape, old, young, rfl, rfl, ?_⟩, kept, owners⟩
    intro id page stored
    rcases purging.kept id page stored with ⟨page', stored', _, records⟩
    exact ⟨page', stored', records⟩

end

end

end UndoLog

end Compute
end ScaleKv
