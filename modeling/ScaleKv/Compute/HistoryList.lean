import ScaleKv.Compute.SnapshotReads

namespace ScaleKv
namespace Compute

open Foundation List Option OrderedMap

/-!
# The history list

The history is a doubly linked list whose links are on the first pages of the
segments and whose ends are on the META page.  When writers come one at a time,
the list is exact: both ways along it visit the committed segments that have not
been purged, every header counts the records of its segment, and no page of a
segment is free before the segment is purged.

A transaction that aborts leaves its pages behind.  They stay on no list, and
the invariant remembers them to say that nobody writes to them.
-/

section Walks

variable {link other : PageId -> PageId}

/-- The pages on the way along a link.  The page id 0 ends the way. -/
def follow (link : PageId -> PageId) : Nat -> PageId -> List PageId
  | 0, _ => []
  | fuel + 1, id => if id = 0 then [] else id :: follow link fuel (link id)

/-- The link leads from every page to the next one. -/
def LinkedBy (link : PageId -> PageId) : List PageId -> Prop
  | [] => True
  | id :: rest => link id = rest.headD 0 ∧ LinkedBy link rest

variable {ids : List PageId}

theorem follow_of_linked {fuel : Nat} (linked : LinkedBy link ids)
    (nonzero : ∀ id ∈ ids, id ≠ 0) (enough : ids.length < fuel) :
    follow link fuel (ids.headD 0) = ids := by
  induction ids generalizing fuel with
  | nil =>
    cases fuel with
    | zero => cases enough
    | succ => rfl
  | cons id _ ih =>
    cases fuel with
    | zero => cases enough
    | succ =>
      have below := ih linked.2 (fun later member => nonzero later (mem_cons_of_mem id member))
        (Nat.lt_of_succ_lt_succ enough)
      rw [headD_cons, follow, if_neg (nonzero id mem_cons_self), linked.1, below]

theorem mem_of_follow {fuel : Nat} {id : PageId} (linked : LinkedBy link ids)
    (visited : id ∈ follow link fuel (ids.headD 0)) : id ∈ ids := by
  induction ids generalizing fuel with
  | nil => cases fuel <;> cases visited
  | cons first _ ih =>
    cases fuel with
    | zero => cases visited
    | succ =>
      rw [headD_cons, follow] at visited
      split at visited
      · cases visited
      · rcases mem_cons.mp visited with same | later
        · exact same ▸ mem_cons_self
        · rw [linked.1] at later
          exact mem_cons_of_mem first (ih linked.2 later)

theorem LinkedBy.congr (linked : LinkedBy link ids)
    (same : ∀ id ∈ ids, other id = link id) : LinkedBy other ids := by
  induction ids with
  | nil => trivial
  | cons first _ ih =>
    exact ⟨(same first mem_cons_self).trans linked.1,
      ih linked.2 (fun id member => same id (mem_cons_of_mem first member))⟩

/-- The front of a list stays linked when its last page gets the end as its link. -/
theorem LinkedBy.cut {front back : List PageId} {last : PageId}
    (linked : LinkedBy link (front ++ last :: back))
    (same : ∀ id ∈ front, other id = link id) (ends : other last = 0) :
    LinkedBy other (front ++ [last]) := by
  induction front with
  | nil => exact ⟨ends, trivial⟩
  | cons first rest ih =>
    refine ⟨(same first mem_cons_self).trans (linked.1.trans ?_),
      ih linked.2 (fun id member => same id (mem_cons_of_mem first member))⟩
    cases rest <;> rfl

end Walks

namespace UndoStore

variable {Value : Type}

/-- A number of the segment header on the page, 0 if there is none. -/
def headerField (store : UndoStore Value) (field : UndoSegmentHeader -> Nat) (id : PageId) : Nat :=
  ((store.pages[id]?.bind UndoPage.segment).map field).getD 0

/-- The pages of the segment that starts at the page. -/
def chainFrom (store : UndoStore Value) (first : PageId) : List PageId :=
  follow (fun id => (store.pages[id]?.map UndoPage.nextId).getD 0) (store.pages.size + 1) first

/-- The segments from the head of the history on. -/
def historyForward (store : UndoStore Value) : List PageId :=
  follow (store.headerField UndoSegmentHeader.historyNext) (store.pages.size + 1)
    store.metaPage.undoHistoryHead

/-- The segments from the tail of the history back. -/
def historyBackward (store : UndoStore Value) : List PageId :=
  follow (store.headerField UndoSegmentHeader.historyPrev) (store.pages.size + 1)
    store.metaPage.undoHistoryTail

/-- The page is the first one of a segment with this header. -/
def HeadedBy (store : UndoStore Value) (id : PageId) (header : UndoSegmentHeader) : Prop :=
  ∃ page, store.pages[id]? = some page ∧ page.segment = some header

variable {store : UndoStore Value}

theorem HeadedBy.field {id : PageId} {header : UndoSegmentHeader}
    (headed : store.HeadedBy id header) (field : UndoSegmentHeader -> Nat) :
    store.headerField field id = field header := by
  rcases headed with ⟨_, stored, own⟩
  rw [headerField, stored, bind_some, own]
  rfl

theorem linkedBy_of_chained {ids : List PageId} (chained : Chained store.pages ids) :
    LinkedBy (fun id => (store.pages[id]?.map UndoPage.nextId).getD 0) ids := by
  induction ids with
  | nil => trivial
  | cons _ _ ih =>
    rcases chained with ⟨⟨_, stored, next⟩, below⟩
    refine ⟨?_, ih below⟩
    dsimp only
    rw [stored]
    exact next

theorem linkedBy_of_history {segments : List Segment}
    (linked : HistoryLinked store.pages 0 segments) :
    LinkedBy (store.headerField UndoSegmentHeader.historyNext) (segments.map Segment.first) := by
  induction segments with
  | nil => trivial
  | cons _ rest ih =>
    rcases linked.1.header with ⟨page, _, stored, own, _, _, _, link⟩
    refine ⟨(HeadedBy.field ⟨page, stored, own⟩ _).trans (link.trans ?_), ih linked.2⟩
    cases rest <;> rfl

end UndoStore

namespace UndoLog

variable {Value : Type}

/-- The history list, the record counts and the free list are exact. -/
structure HistoryExact (log : UndoLog Value) : Prop where
  forward : log.store.historyForward = log.history.map Segment.first
  backward : log.store.historyBackward = (log.history.map Segment.first).reverse
  once : (log.history.map Segment.first).Nodup
  last : log.store.metaPage.undoHistoryTail = tailOf log.history
  listed : ∀ id header, log.store.HeadedBy id header -> header.state = .committed ->
    id ∈ log.history.map Segment.first
  counted : ∀ segment ∈ log.history, ∃ header,
    log.store.HeadedBy segment.first header ∧ header.state = .committed ∧
      header.commitLsn = segment.commitLsn ∧
      log.store.chainFrom segment.first = segment.pages ∧
      recordsOn log.store.pages (log.store.chainFrom segment.first) = header.recordCount
  freeOnce : log.store.metaPage.undoFree.Nodup
  freeApart : ∀ id first header, id ∈ log.store.metaPage.undoFree ->
    log.store.HeadedBy first header -> header.state ≠ .purged -> id ∉ log.store.chainFrom first

/-! ## The invariant -/

/-- Pages that a transaction has left behind. -/
structure Abandoned (log : UndoLog Value) (id : PageId) : Prop where
  notFree : id ∉ log.store.metaPage.undoFree
  used : id < log.store.metaPage.raised.nextUndoPageId
  notCommitted : ∀ segment ∈ log.history, id ∉ segment.pages
  notAllocated : ∀ (txnId : TxnId) ids, log.allocated[txnId]? = some ids -> id ∉ ids

/-- What the list needs besides the owners of the pages; `left` are the segments
of transactions that did not commit. -/
structure Tracked (log : UndoLog Value) (left : List (List PageId)) : Prop where
  back : LinkedBy (log.store.headerField UndoSegmentHeader.historyPrev)
    (log.history.map Segment.first).reverse
  committed : ∀ segment ∈ log.history,
    log.store.headerField UndoSegmentHeader.recordCount segment.first =
      recordsOn log.store.pages segment.pages
  counted : ∀ (txnId : TxnId) (txn : TxnUndo Value) ids, log.txns[txnId]? = some txn ->
    log.allocated[txnId]? = some ids -> txn.recordCount = recordsOn log.store.pages ids
  heads : ∀ id header, log.store.HeadedBy id header -> header.state ≠ .purged ->
    id ∈ log.history.map Segment.first ∨
      (header.state = .inProgress ∧ ∃ ids, ids.head? = some id ∧
        (ids ∈ left ∨ ∃ txnId : TxnId, log.allocated[txnId]? = some ids))
  chained : ∀ ids ∈ left, Chained log.store.pages ids
  abandoned : ∀ ids id, ids ∈ left -> id ∈ ids -> log.Abandoned id

variable {log next : UndoLog Value} {owner : PageId -> Owner} {left : List (List PageId)}

variable {txnId : TxnId} {ids : List PageId} {id : PageId} {ptr : UndoPtr}

theorem Inv.cachedChain (inv : log.Inv owner) (owned : log.allocated[txnId]? = some ids) :
    ∃ txn, log.txns[txnId]? = some txn ∧ InProgress log.store txn ids ∧
      Chained log.store.pages ids := by
  cases found : log.txns[txnId]? with
  | none => cases owned.symm.trans (inv.ended txnId found)
  | some txn =>
    rcases inv.inProgress txnId txn found with ⟨_, isOwn, progress⟩
    cases owned.symm.trans isOwn
    refine ⟨txn, rfl, progress, progress.chained.frame ?_⟩
    intro id page member stored
    exact ⟨page, (progress.cached id member).trans stored, rfl⟩

theorem Inv.notFree (inv : log.Inv owner) (owned : owner id = .txn txnId) :
    id ∉ log.store.metaPage.undoFree := by
  intro free
  rw [inv.metaOwned.free id free] at owned
  cases owned

theorem Tracked.historyExact (tracked : log.Tracked left) (inv : log.Inv owner) : log.HistoryExact := by
  have fits : (log.history.map Segment.first).length < log.store.pages.size + 1 := by
    rw [length_map]
    exact Nat.lt_succ_of_le inv.history_le_size
  have nonzero : ∀ id ∈ log.history.map Segment.first, id ≠ 0 := by
    intro id member
    rcases mem_map.mp member with ⟨_, inside, rfl⟩
    exact inv.first_ne_zero inside
  refine ⟨?_, ?_, inv.firsts_distinct, inv.historyTail, ?_, ?_, inv.metaOwned.distinct, ?_⟩
  · have walked := follow_of_linked (UndoStore.linkedBy_of_history inv.linked) nonzero fits
    rw [UndoStore.historyForward, inv.historyHead]
    refine Eq.trans (congrArg _ ?_) walked
    cases log.history <;> rfl
  · have walked := follow_of_linked tracked.back
      (fun id member => nonzero id (mem_reverse.mp member))
      (by rw [length_reverse]; exact fits)
    rw [UndoStore.historyBackward, inv.historyTail]
    refine Eq.trans (congrArg _ ?_) walked
    rw [tailOf, ← map_reverse, List.getLast?_eq_head?_reverse]
    cases log.history.reverse <;> rfl
  · intro id header headed committed
    rcases tracked.heads id header headed (by rw [committed]; exact SegmentState.noConfusion) with
      member | ⟨inProgress, _⟩
    · exact member
    · rw [committed] at inProgress
      cases inProgress
  · intro segment member
    rcases inv.linked.sealed member with ⟨_, sealed⟩
    rcases sealed.header with ⟨page, header, stored, own, state, lsn, _⟩
    have chain : log.store.chainFrom segment.first = segment.pages := by
      refine follow_of_linked (UndoStore.linkedBy_of_chained sealed.chained) ?_
        (Nat.lt_succ_of_le (inv.small member))
      intro id inside
      apply inv.ne_zero
      rw [inv.committed segment id member inside]
      exact Owner.noConfusion
    have headed : log.store.HeadedBy segment.first header := ⟨page, stored, own⟩
    refine ⟨header, headed, state, lsn, chain, ?_⟩
    rw [chain, ← tracked.committed segment member]
    exact headed.field _
  · intro id first header free headed unpurged visited
    rcases tracked.heads first header headed unpurged with
      member | ⟨_, _, isFirst, abandoned | ⟨txnId, owned⟩⟩
    · rcases mem_map.mp member with ⟨segment, inside, rfl⟩
      rcases inv.linked.sealed inside with ⟨_, sealed⟩
      have isPage := mem_of_follow (UndoStore.linkedBy_of_chained sealed.chained) visited
      exact inv.notFree (inv.committed segment id inside isPage) free
    · rcases List.head?_eq_some_iff.mp isFirst with ⟨_, rfl⟩
      have isPage := mem_of_follow (UndoStore.linkedBy_of_chained (tracked.chained _ abandoned)) visited
      exact (tracked.abandoned _ id abandoned isPage).notFree free
    · rcases List.head?_eq_some_iff.mp isFirst with ⟨_, rfl⟩
      rcases inv.cachedChain owned with ⟨_, _, _, chained⟩
      have isPage := mem_of_follow (UndoStore.linkedBy_of_chained chained) visited
      exact inv.notFree (inv.allocated txnId _ id owned isPage) free

theorem tracked_created : (created : UndoLog Value).Tracked [] := by
  refine ⟨trivial, ?_, ?_, ?_, ?_, ?_⟩
  · nofun
  · intro _ _ _ found
    cases found.symm.trans Std.TreeMap.getElem?_emptyc
  · rintro _ _ ⟨_, stored, _⟩
    cases stored.symm.trans Std.TreeMap.getElem?_emptyc
  · nofun
  · nofun

/-! ## The calls -/

theorem Tracked.begins (tracked : log.Tracked left) (inv : log.Inv owner)
    (taken : log.beginTx txnId = some next) : next.Tracked left := by
  unfold beginTx at taken
  split at taken
  · cases taken
  · next fresh =>
    cases taken
    rw [not_or] at fresh
    have unused : log.allocated[txnId]? = none := by
      apply inv.ended
      cases found : log.txns[txnId]? with
      | none => rfl
      | some =>
        exact absurd (Std.TreeMap.mem_iff_isSome_getElem?.mpr (by rw [found]; rfl)) fresh.1
    refine ⟨tracked.back, tracked.committed, ?_, ?_, tracked.chained, ?_⟩
    · intro other txn ids found owned
      rcases lookup_insert_cases found with ⟨rfl, rfl⟩ | ⟨different, before⟩
      · rcases lookup_insert_cases owned with ⟨_, rfl⟩ | ⟨different, _⟩
        · rfl
        · exact absurd rfl different
      · exact tracked.counted other txn ids before
          ((lookup_insert_of_ne _ _ (Ne.symm different)).symm.trans owned)
    · intro id header headed unpurged
      rcases tracked.heads id header headed unpurged with
        member | ⟨state, ids, isFirst, abandoned | ⟨other, owned⟩⟩
      · exact .inl member
      · exact .inr ⟨state, ids, isFirst, .inl abandoned⟩
      · refine .inr ⟨state, ids, isFirst, .inr ⟨other, ?_⟩⟩
        refine (lookup_insert_of_ne _ _ ?_).trans owned
        rintro rfl
        cases unused.symm.trans owned
    · intro ids id member inside
      have before := tracked.abandoned ids id member inside
      refine { before with notAllocated := ?_ }
      exact forall_insert not_mem_nil before.notAllocated

theorem Tracked.caches (tracked : log.Tracked left) {own : TxnUndo Value}
    (found : log.txns[txnId]? = some own) (roCache : Std.TreeMap PageId (UndoPage Value)) :
    Tracked { log with txns := log.txns.insert txnId { own with roCache := roCache } } left := by
  refine { tracked with counted := ?_, abandoned := fun ids id member inside => ?_ }
  · intro other txn ids present owned
    rcases lookup_insert_cases present with ⟨rfl, rfl⟩ | ⟨_, before⟩
    · exact tracked.counted _ own ids found owned
    · exact tracked.counted other txn ids before owned
  · have before := tracked.abandoned ids id member inside
    exact { before with }

theorem Appended.allocator {view after : UndoView Value} {grown : List PageId}
    {record : UndoRecord Value} (appended : Appended view after ids grown record ptr) :
    after.store.metaPage.undoFree ⊆ view.store.metaPage.undoFree ∧
      view.store.metaPage.raised.nextUndoPageId ≤ after.store.metaPage.raised.nextUndoPageId ∧
      ∀ id ∈ grown, id ∈ ids ∨ id ∈ view.store.metaPage.undoFree ∨
        view.store.metaPage.raised.nextUndoPageId ≤ id := by
  rcases appended.allocates with ⟨rfl, sameMeta, _⟩ | ⟨rfl, _, allocation⟩
  · rw [sameMeta]
    exact ⟨List.Subset.refl _, le_max_left .., fun _ member => .inl member⟩
  · have member : ∀ id ∈ ids ++ [ptr.pageId], id ∈ ids ∨ id = ptr.pageId := by
      simp
    rcases allocPageId_cases allocation with ⟨front, shape, after⟩ | ⟨_, isNext, after⟩
    · have free : view.store.metaPage.undoFree = front ++ [ptr.pageId] := shape
      rw [after, free]
      refine ⟨subset_append_left _ _, le_max_left .., ?_⟩
      intro id inside
      rcases member id inside with before | rfl
      · exact .inl before
      · exact .inr (.inl (mem_concat_self))
    · rw [after]
      refine ⟨List.Subset.refl _, ?_, ?_⟩
      · exact le_trans (isNext ▸ Nat.le_succ _) (le_max_left ..)
      · intro id inside
        rcases member id inside with before | rfl
        · exact .inl before
        · exact .inr (.inr (le_of_eq isNext.symm))

theorem Tracked.appends (tracked : log.Tracked left) (inv : log.Inv owner)
    {prev : Option UndoPtr} {oldCommitLsn : Nat} {oldFlags : Flags} {oldValue : Value}
    (taken : log.append txnId prev oldCommitLsn oldFlags oldValue = some (.ok (ptr, next))) :
    next.Tracked left := by
  rcases map_eq_some_iff.mp taken with ⟨txn, found, _⟩
  rcases inv.appends found prev oldCommitLsn oldFlags oldValue with
    ⟨_, _, _, ids, grown, owner', run, owned, appended, store, txns, allocated, history, kept,
      owners⟩
  cases run.symm.trans taken
  have ownGrown : ∀ id ∈ grown, owner' id = .txn txnId := by
    intro id member
    exact kept.allocated txnId grown id ((allocated txnId).trans (if_pos rfl)) member
  -- the pages of other transactions and the pages left behind stay as they are
  have ofOther : ∀ id other, owner id = .txn other -> other ≠ txnId ->
      next.store.pages[id]? = log.store.pages[id]? := by
    intro id other isOwner different
    rw [store]
    apply appended.outside
    intro member
    exact different (Owner.txn.inj ((owners id other isOwner).symm.trans (ownGrown id member)))
  have ofLeft : ∀ others id, others ∈ left -> id ∈ others -> id ∉ grown := by
    intro others id member inside isGrown
    have before := tracked.abandoned others id member inside
    rcases appended.allocator.2.2 id isGrown with isOwn | free | fresh
    · exact before.notAllocated txnId ids owned isOwn
    · exact before.notFree free
    · exact not_lt.mpr fresh before.used
  have ofHistory : ∀ segment id, segment ∈ log.history -> id ∈ segment.pages ->
      next.store.pages[id]? = log.store.pages[id]? := by
    intro segment id member inside
    exact ofOther id segment.txnId (inv.committed segment id member inside)
      (inv.running owned member)
  have field : ∀ segment ∈ log.history, ∀ read : UndoSegmentHeader -> Nat,
      next.store.headerField read segment.first = log.store.headerField read segment.first := by
    intro segment member read
    rw [UndoStore.headerField, ofHistory segment _ member mem_cons_self]
    rfl
  refine ⟨?_, ?_, ?_, ?_, ?_, ?_⟩
  · rw [history]
    apply tracked.back.congr
    intro id member
    rcases mem_map.mp (mem_reverse.mp member) with ⟨segment, inside, rfl⟩
    exact field segment inside _
  · intro segment member
    rw [history] at member
    rw [field segment member, tracked.committed segment member]
    apply Eq.symm
    apply recordsOn_congr
    intro id inside
    rw [ofHistory segment id member inside]
  · intro other otherTxn otherIds present isAllocated
    rw [txns] at present
    rw [allocated] at isAllocated
    rcases lookup_insert_cases present with ⟨rfl, rfl⟩ | ⟨different, before⟩
    · rw [if_pos rfl] at isAllocated
      cases isAllocated
      rw [store, appended.counted.1, appended.counted.2]
      exact congrArg (· + 1) (tracked.counted _ txn ids found owned)
    · rw [if_neg (Ne.symm different)] at isAllocated
      rw [tracked.counted other otherTxn otherIds before isAllocated]
      apply Eq.symm
      apply recordsOn_congr
      intro id inside
      rw [ofOther id other (inv.allocated other otherIds id isAllocated inside) different]
  · rintro id header ⟨page, stored, own⟩ unpurged
    rw [store] at stored
    rw [history]
    rcases appended.headers id page header stored own with ⟨old, wasStored, wasOwn⟩ | ⟨rfl, rfl, state⟩
    · rcases tracked.heads id header ⟨old, wasStored, wasOwn⟩ unpurged with
        member | ⟨state, others, isFirst, abandoned | ⟨other, isAllocated⟩⟩
      · exact .inl member
      · exact .inr ⟨state, others, isFirst, .inl abandoned⟩
      · by_cases same : txnId = other
        · subst same
          cases owned.symm.trans isAllocated
          refine .inr ⟨state, grown, ?_, .inr ⟨txnId, (allocated txnId).trans (if_pos rfl)⟩⟩
          rcases appended.allocates with ⟨rfl, _⟩ | ⟨rfl, _⟩
          · exact isFirst
          · rw [List.head?_append, isFirst]
            rfl
        · exact .inr ⟨state, others, isFirst,
            .inr ⟨other, (allocated other).trans ((if_neg same).trans isAllocated)⟩⟩
    · refine .inr ⟨state, grown, ?_, .inr ⟨txnId, (allocated txnId).trans (if_pos rfl)⟩⟩
      rcases appended.allocates with ⟨rfl, _⟩ | ⟨rfl, _⟩
      · cases appended.inside
      · rfl
  · intro others member
    apply (tracked.chained others member).frame
    intro id page inside stored
    rw [store, appended.outside id (ofLeft others id member inside)]
    exact ⟨page, stored, rfl⟩
  · intro others id member inside
    have before := tracked.abandoned others id member inside
    refine ⟨?_, ?_, ?_, ?_⟩
    · rw [store]
      exact fun free => before.notFree (appended.allocator.1 free)
    · rw [store]
      exact lt_of_lt_of_le before.used appended.allocator.2.1
    · rw [history]
      exact before.notCommitted
    · intro other otherIds isAllocated
      rw [allocated] at isAllocated
      split at isAllocated
      · cases isAllocated
        exact ofLeft others id member inside
      · exact before.notAllocated other otherIds isAllocated

theorem allocated_of_drop {other : TxnId} (owned : (log.drop txnId).allocated[other]? = some ids) :
    txnId ≠ other ∧ log.allocated[other]? = some ids := by
  rw [lookup_drop_allocated] at owned
  split at owned
  · cases owned
  · next different => exact ⟨different, owned⟩

theorem Abandoned.of_drop (before : log.Abandoned id) (txnId : TxnId) :
    (log.drop txnId).Abandoned id :=
  { before with
    notAllocated := fun other ids owned => before.notAllocated other ids (allocated_of_drop owned).2 }

theorem Inv.abandons (inv : log.Inv owner) (owned : log.allocated[txnId]? = some ids)
    (inside : id ∈ ids) : (log.drop txnId).Abandoned id := by
  have isOwner := inv.allocated txnId ids id owned inside
  refine ⟨inv.notFree isOwner, ?_, ?_, ?_⟩
  · apply Nat.lt_of_not_le
    intro above
    rw [inv.metaOwned.fresh id above] at isOwner
    cases isOwner
  · exact fun segment isCommitted isPage => inv.not_shared owned isCommitted isPage inside
  · intro other others isAllocated isPage
    rcases allocated_of_drop isAllocated with ⟨different, before⟩
    rw [inv.allocated other others id before isPage] at isOwner
    exact different (Owner.txn.inj isOwner).symm

variable (tracked : log.Tracked left) (inv : log.Inv owner)

include tracked inv

theorem Tracked.drops (txnId : TxnId) :
    (log.drop txnId).Tracked ((log.allocated[txnId]?).toList ++ left) := by
  refine ⟨tracked.back, tracked.committed, ?_, ?_, ?_, ?_⟩
  · intro other txn ids found owned
    rw [lookup_drop_txns] at found
    split at found
    · cases found
    · exact tracked.counted other txn ids found (allocated_of_drop owned).2
  · intro id header headed unpurged
    rcases tracked.heads id header headed unpurged with
      member | ⟨state, ids, isFirst, abandoned | ⟨other, owned⟩⟩
    · exact .inl member
    · exact .inr ⟨state, ids, isFirst, .inl (mem_append_right _ abandoned)⟩
    · by_cases same : txnId = other
      · subst same
        refine .inr ⟨state, ids, isFirst, .inl (mem_append_left _ ?_)⟩
        rw [owned]
        exact mem_cons_self
      · exact .inr ⟨state, ids, isFirst,
          .inr ⟨other, (lookup_drop_allocated txnId other).trans ((if_neg same).trans owned)⟩⟩
  · intro ids member
    rcases mem_append.mp member with own | before
    · rcases inv.cachedChain (mem_toList.mp own) with ⟨_, _, _, chained⟩
      exact chained
    · exact tracked.chained ids before
  · intro ids id member inside
    rcases mem_append.mp member with own | before
    · exact inv.abandons (mem_toList.mp own) inside
    · exact (tracked.abandoned ids id before inside).of_drop txnId

/-- A batch that keeps the links and the records of all pages, as those of a
commit and of a purge do. -/
theorem Tracked.rewritten (kept : Kept log.store.pages next.store.pages)
    (back : LinkedBy (next.store.headerField UndoSegmentHeader.historyPrev)
      (next.history.map Segment.first).reverse)
    (committed : ∀ segment ∈ next.history, Chained log.store.pages segment.pages ∧
      next.store.headerField UndoSegmentHeader.recordCount segment.first =
        recordsOn log.store.pages segment.pages) (running : ∀ txnId : TxnId,
      (next.txns[txnId]? = log.txns[txnId]? ∧ next.allocated[txnId]? = log.allocated[txnId]?) ∨
        (next.allocated[txnId]? = none ∧ ∀ ids id, log.allocated[txnId]? = some ids ->
          ids.head? = some id -> id ∈ next.history.map Segment.first))
    (headers : ∀ id header', next.store.HeadedBy id header' -> header'.state ≠ .purged ->
      id ∈ next.history.map Segment.first ∨ (id ∉ log.history.map Segment.first ∧
        ∃ header, log.store.HeadedBy id header ∧ header'.state = header.state))
    (abandoned : ∀ id, log.Abandoned id -> next.Abandoned id) : next.Tracked left := by
  refine ⟨back, ?_, ?_, ?_, ?_, ?_⟩
  · intro segment member
    rcases committed segment member with ⟨chained, count⟩
    exact count.trans (kept.recordsOn chained).symm
  · intro txnId txn ids found owned
    rcases running txnId with ⟨sameTxn, sameIds⟩ | ⟨ended, _⟩
    · rw [sameIds] at owned
      rcases inv.cachedChain owned with ⟨_, _, _, chained⟩
      exact (tracked.counted txnId txn ids (sameTxn.symm.trans found) owned).trans
        (kept.recordsOn chained).symm
    · cases ended.symm.trans owned
  · intro id header' headed unpurged
    rcases headers id header' headed unpurged with member | ⟨notListed, header, before, sameState⟩
    · exact .inl member
    · rw [sameState] at unpurged ⊢
      rcases tracked.heads id header before unpurged with
        member | ⟨state, ids, isFirst, abandoned | ⟨txnId, owned⟩⟩
      · exact absurd member notListed
      · exact .inr ⟨state, ids, isFirst, .inl abandoned⟩
      · rcases running txnId with ⟨_, sameIds⟩ | ⟨_, listed⟩
        · exact .inr ⟨state, ids, isFirst, .inr ⟨txnId, sameIds.trans owned⟩⟩
        · exact .inl (listed ids id owned isFirst)
  · intro ids member
    exact kept.chained (tracked.chained ids member)
  · intro ids id member inside
    exact abandoned id (tracked.abandoned ids id member inside)

/-- The segments that were there keep what their headers say of the past, and
the new one is linked back to the last of them. -/
theorem Tracked.back_commit {after : UndoStore Value} {endLsn count : Nat} {first : PageId}
    {rest : List PageId} (committed : Committed log.store after endLsn first count)
    (sameHeader : ∀ segment ∈ log.history,
      after.headerField UndoSegmentHeader.historyPrev segment.first =
        log.store.headerField UndoSegmentHeader.historyPrev segment.first) :
    LinkedBy (after.headerField UndoSegmentHeader.historyPrev)
      ((log.history ++ [(⟨txnId, endLsn, first, rest⟩ : Segment)]).map Segment.first).reverse := by
  have shape : ((log.history ++ [(⟨txnId, endLsn, first, rest⟩ : Segment)]).map Segment.first).reverse =
      first :: (log.history.map Segment.first).reverse := by
    rw [map_append, reverse_append]
    rfl
  rcases committed.counted with ⟨page, _, stored, own, prev, _⟩
  rw [shape]
  constructor
  · rw [UndoStore.HeadedBy.field ⟨page, stored, own⟩, prev, inv.historyTail, tailOf, ← map_reverse,
      List.getLast?_eq_head?_reverse]
    cases log.history.reverse <;> rfl
  · apply tracked.back.congr
    intro _ member
    rcases mem_map.mp (mem_reverse.mp member) with ⟨segment, inside, rfl⟩
    exact sameHeader segment inside

theorem Tracked.commits {startLsn endLsn : Nat}
    (current : log.ownMetaCurrent (.commit txnId startLsn endLsn))
    (taken : log.commit txnId startLsn endLsn = some (.ok next)) : next.Tracked left := by
  rcases map_eq_some_iff.mp taken with ⟨txn, found, _⟩
  rcases inv.inProgress txnId txn found with ⟨ids, owned, progress⟩
  have sealedHistory : next.Inv owner := inv.commits current taken
  have running : ∀ firsts : List PageId, (∀ id, ids.head? = some id -> id ∈ firsts) ->
      ∀ other : TxnId, ((log.drop txnId).txns[other]? = log.txns[other]? ∧
          (log.drop txnId).allocated[other]? = log.allocated[other]?) ∨
        ((log.drop txnId).allocated[other]? = none ∧ ∀ others id,
          log.allocated[other]? = some others -> others.head? = some id -> id ∈ firsts) := by
    intro firsts listed other
    rw [lookup_drop_txns, lookup_drop_allocated]
    by_cases isOwn : txnId = other
    · subst isOwn
      refine .inr ⟨if_pos rfl, fun others id isAllocated => ?_⟩
      cases owned.symm.trans isAllocated
      exact listed id
    · exact .inl ⟨if_neg isOwn, if_neg isOwn⟩
  rcases inv.commit_cases current found owned progress with
    ⟨rfl, after, run, sameMeta, same⟩ | ⟨first, _, after, rfl, run, committed⟩
  · cases run.symm.trans taken
    have sameField : ∀ read : UndoSegmentHeader -> Nat, ∀ id,
        after.headerField read id = log.store.headerField read id := by
      intro read id
      rw [UndoStore.headerField, same id]
      rfl
    refine tracked.rewritten inv ?_ (tracked.back.congr (fun id _ => sameField _ id)) ?_ ?_ ?_ ?_
    · exact fun id page stored => ⟨page, (same id).trans stored, rfl, rfl⟩
    · intro segment member
      rcases inv.linked.sealed member with ⟨_, sealed⟩
      exact ⟨sealed.chained, (sameField _ _).trans (tracked.committed segment member)⟩
    · exact running _ nofun
    · rintro id header ⟨page, stored, own⟩ _
      by_cases listed : id ∈ log.history.map Segment.first
      · exact .inl listed
      · exact .inr ⟨listed, header, ⟨page, (same id).symm.trans stored, own⟩, rfl⟩
    · intro id before
      have dropped := before.of_drop txnId
      exact { dropped with notFree := sameMeta ▸ dropped.notFree, used := sameMeta ▸ dropped.used }
  · cases run.symm.trans taken
    -- the headers of the segments that were there keep what they say of the past
    have sameHeader : ∀ segment ∈ log.history,
        after.headerField UndoSegmentHeader.historyPrev segment.first =
            log.store.headerField UndoSegmentHeader.historyPrev segment.first ∧
          after.headerField UndoSegmentHeader.recordCount segment.first =
            log.store.headerField UndoSegmentHeader.recordCount segment.first := by
      intro segment member
      rcases sealedHistory.linked.sealed (mem_append_left _ member) with ⟨_, sealed⟩
      rcases sealed.header with ⟨page', header', stored', own', _⟩
      rcases committed.headers segment.first page' header' stored' own' with
        isFirst | ⟨page, header, stored, own, _, prev, count⟩
      · exact absurd (isFirst ▸ mem_cons_self)
          (@Inv.not_shared _ _ _ segment.first _ _ inv segment owned member mem_cons_self)
      · have before : log.store.HeadedBy segment.first header := ⟨page, stored, own⟩
        have now : after.HeadedBy segment.first header' := ⟨page', stored', own'⟩
        rw [now.field, now.field, before.field, before.field]
        exact ⟨prev, count⟩
    refine tracked.rewritten inv committed.keeps
      (tracked.back_commit inv committed (fun segment member => (sameHeader segment member).1)) ?_ ?_ ?_ ?_
    · intro segment member
      rcases mem_append.mp member with before | isNew
      · rcases inv.linked.sealed before with ⟨_, sealed⟩
        exact ⟨sealed.chained, (sameHeader segment before).2.trans (tracked.committed segment before)⟩
      · cases mem_singleton.mp isNew
        rcases inv.cachedChain owned with ⟨_, _, _, chained⟩
        rcases committed.counted with ⟨page, _, stored, own, _, count⟩
        exact ⟨chained, (UndoStore.HeadedBy.field ⟨page, stored, own⟩ _).trans
          (count.trans (tracked.counted txnId txn _ found owned))⟩
    · refine running _ ?_
      rintro _ ⟨⟩
      exact mem_map_of_mem mem_concat_self
    · rintro id header' ⟨page', stored', own'⟩ _
      rw [map_append]
      rcases committed.headers id page' header' stored' own' with
        isFirst | ⟨page, header, stored, own, sameState, _⟩
      · exact .inl (mem_append_right _ (mem_singleton.mpr isFirst))
      · by_cases listed : id ∈ log.history.map Segment.first
        · exact .inl (mem_append_left _ listed)
        · exact .inr ⟨listed, header, ⟨page, stored, own⟩, sameState⟩
    · intro id before
      have dropped := before.of_drop txnId
      refine ⟨?_, ?_, ?_, dropped.notAllocated⟩
      · rw [committed.metaPage]
        exact before.notFree
      · rw [committed.metaPage]
        exact before.used
      · exact forall_mem_append.mpr ⟨before.notCommitted,
          forall_mem_singleton.mpr (before.notAllocated txnId _ owned)⟩

theorem Tracked.purges {gcLsn : Nat} (called : log.purge gcLsn = some (.ok next)) :
    next.Tracked left := by
  rcases inv.purge_cases gcLsn with
    ⟨taken, rest, result, _, shape, _, _, purging, ⟨_, purged⟩ | ⟨nonempty, purged⟩⟩
  · cases purged.symm.trans called
    exact tracked
  · cases purged.symm.trans called
    have restMember : ∀ segment ∈ rest, segment ∈ log.history := by
      intro segment member
      rw [shape]
      exact mem_append_right taken member
    have firsts := inv.firsts_distinct
    rw [shape, map_append, nodup_append] at firsts
    -- the first segment that stays loses its link back, the others keep theirs
    have sameHeader : ∀ segment ∈ rest,
        UndoStore.headerField ⟨result.metaPage, log.store.pages ∪ result.dirtyPages⟩
            UndoSegmentHeader.recordCount segment.first =
          log.store.headerField UndoSegmentHeader.recordCount segment.first ∧
        UndoStore.headerField ⟨result.metaPage, log.store.pages ∪ result.dirtyPages⟩
            UndoSegmentHeader.historyPrev segment.first =
          if segment.first = headOf rest then 0
          else log.store.headerField UndoSegmentHeader.historyPrev segment.first := by
      intro segment member
      rcases inv.linked.sealed (restMember segment member) with ⟨_, sealed⟩
      rcases sealed.header with ⟨page, header, stored, own, _⟩
      have before : log.store.HeadedBy segment.first header := ⟨page, stored, own⟩
      rcases purging.kept segment.first page stored with ⟨page', stored', _⟩
      rcases purging.pages nonempty stored' with ⟨_, wasStored, _, _,
        ⟨isTaken, _⟩ | ⟨_, isHead, _, wasOwn, relinked⟩ | ⟨same, _, notHead⟩⟩
      · exact absurd rfl (firsts.2.2 _ isTaken _ (mem_map_of_mem member))
      · cases stored.symm.trans wasStored
        cases own.symm.trans wasOwn
        have now : UndoStore.HeadedBy ⟨result.metaPage, log.store.pages ∪ result.dirtyPages⟩
            segment.first { header with historyPrev := 0 } := ⟨page', stored', relinked⟩
        rw [now.field, now.field, before.field, if_pos isHead]
        exact ⟨rfl, rfl⟩
      · cases stored.symm.trans wasStored
        have now : UndoStore.HeadedBy ⟨result.metaPage, log.store.pages ∪ result.dirtyPages⟩
            segment.first header := ⟨page', stored', same.trans own⟩
        rw [now.field, now.field, before.field, before.field,
          if_neg (notHead (ne_nil_of_mem member))]
        exact ⟨rfl, rfl⟩
    refine tracked.rewritten inv purging.kept ?_ ?_ (fun _ => .inl ⟨rfl, rfl⟩) ?_ ?_
    · cases rest with
      | nil => trivial
      | cons segment =>
        have linked := tracked.back
        rw [shape, map_append, reverse_append, map_cons, reverse_cons, append_assoc] at linked
        rw [map_cons, reverse_cons]
        refine LinkedBy.cut linked ?_ ?_
        · intro id member
          rcases mem_map.mp (mem_reverse.mp member) with ⟨later, inside, rfl⟩
          refine (sameHeader later (mem_cons_of_mem _ inside)).2.trans (if_neg ?_)
          intro isHead
          have same : later.first = segment.first := isHead
          exact (nodup_cons.mp firsts.2.1).1 (same ▸ mem_map_of_mem inside)
        · exact (sameHeader segment mem_cons_self).2.trans (if_pos rfl)
    · intro segment member
      rcases inv.linked.sealed (restMember segment member) with ⟨_, sealed⟩
      exact ⟨sealed.chained,
        (sameHeader segment member).1.trans (tracked.committed segment (restMember segment member))⟩
    · rintro id header' ⟨_, stored', own'⟩ unpurged
      rcases purging.pages nonempty stored' with ⟨page, stored, _, _,
        ⟨_, _, own, state⟩ | ⟨remains, isHead, _⟩ | ⟨same, notTaken, _⟩⟩
      · cases own'.symm.trans own
        exact absurd state unpurged
      · cases rest with
        | nil => exact absurd rfl remains
        | cons => exact .inl (isHead ▸ mem_map_of_mem mem_cons_self)
      · by_cases listed : id ∈ rest.map Segment.first
        · exact .inl listed
        · refine .inr ⟨?_, header', ⟨page, stored, same.symm.trans own'⟩, rfl⟩
          rw [shape, map_append, mem_append]
          exact not_or.mpr ⟨notTaken, listed⟩
    · intro id before
      rcases pushed_eq log.store.metaPage (taken.flatMap Segment.pages) with ⟨_, sublist, pushed⟩
      refine ⟨?_, ?_, fun segment isLater => before.notCommitted segment (restMember segment isLater),
        before.notAllocated⟩
      · dsimp only
        rw [purging.free, pushed]
        intro isFree
        rcases mem_append.mp isFree with earlier | isFreed
        · exact before.notFree earlier
        · rcases mem_flatMap.mp (sublist.subset isFreed) with ⟨segment, isTaken, isPage⟩
          exact before.notCommitted segment (shape ▸ mem_append_left rest isTaken) isPage
      · have used := before.used
        unfold MetaPage.raised at used ⊢
        rw [← purging.next] at used
        exact used

end UndoLog

/-! ## Runs with one writer at a time -/

namespace Embedded

variable {Value : Type} {state next : Embedded Value} {owner : PageId -> Owner} {horizon : Nat}

/-- The undo log with the segments that were left behind. -/
def HistoryTracked (state : Embedded Value) : Prop := ∃ left, state.undo.Tracked left

theorem HistoryTracked.step {action : Action Value} (tracked : state.HistoryTracked)
    (inv : Coherent state owner horizon) (taken : step state action = some next) :
    next.HistoryTracked := by
  have log := inv.log.undo
  rcases tracked with ⟨left, tracked⟩
  cases (effect_of_step taken).2 with
  | begins undo => exact ⟨left, tracked.begins log undo⟩
  | walks walk =>
    rcases walk_eq_some walk with ⟨_, _, present, _, _, _, rfl,
      ⟨_, rfl, _⟩ | ⟨_, _, ⟨_, rfl, _⟩ | ⟨_, found, _⟩⟩⟩
    · exact ⟨left, tracked⟩
    · exact ⟨left, tracked⟩
    · rcases pageForRead_eq_some inv.log present found with ⟨_, rfl | ⟨_, isOwn, rfl⟩⟩
      · exact ⟨left, tracked⟩
      · exact ⟨left, tracked.caches isOwn _⟩
  | appends undo => exact ⟨left, tracked.appends log undo⟩
  | looks undo | sets undo => exact ⟨left, undo ▸ tracked⟩
  | @ends _ id undo => exact ⟨_, undo ▸ tracked.drops log id⟩
  | @ships _ id _ _ undo =>
    refine ⟨left, tracked.commits log ?_ undo⟩
    show (state.undo.txns[id]?.bind TxnUndo.dirtyMeta).all
      (fun staged => staged = state.undo.store.metaPage) = true
    rw [Option.all_eq_true]
    intro staged isStaged
    rcases bind_eq_some_iff.mp isStaged with ⟨own, present, own'⟩
    exact decide_eq_true (inv.log.metaCurrent id own staged present own').1
  | keeps undo =>
    rcases undo with same | purged
    · exact ⟨left, same ▸ tracked⟩
    · exact ⟨left, tracked.purges log purged⟩

/-- In every run with one writer at a time the history list is exact, whichever
snapshots are held and whenever garbage collection runs. -/
theorem history_exact_of_oneWriter {sequencer : Sequencer} {final : Embedded Value}
    (ordered : sequencer.durableLsn ≤ sequencer.nextLsn)
    (reached : Reaches step oneWriter (created sequencer) final) : final.undo.HistoryExact := by
  have kept : final.Consistent ∧ final.HistoryTracked := by
    refine @Reaches.invariant _ _ _ _ _ _
      (fun state => state.Consistent ∧ state.HistoryTracked) ?_ ?_ reached
    · exact ⟨consistent_created sequencer ordered, [], UndoLog.tracked_created⟩
    · rintro _ _ _ ⟨⟨_, _, inv⟩, tracked⟩ admitted taken
      exact ⟨inv.step_keeps admitted taken, tracked.step inv taken⟩
  rcases kept with ⟨⟨_, _, inv⟩, _, tracked⟩
  exact tracked.historyExact inv.log.undo

/-- Three commits with undo records, an abort after the second and a purge of the
oldest segment while a snapshot holds the others. -/
theorem history_exact_after_abort_and_purge : ∃ final : Embedded Nat,
    Reaches step oneWriter (created ofOneNode) final ∧
      (final.undo.history.map Segment.txnId = [5, 6] ∧
        final.undo.store.metaPage.undoFree = [undoBase]) ∧ final.undo.HistoryExact := by
  refine exists_reaches_with ([.begin 1 false] ++ putOf 1 (Key.ofNat 7) 10 ++ commitOf 1 2 ++
      [.begin 2 false] ++ putOf 2 (Key.ofNat 7) 11 ++ commitOf 2 3 ++ [.begin 3 true] ++
      [.begin 4 false] ++ putOf 4 (Key.ofNat 7) 12 ++ [.abort 4, .resolve 4 3, .resolve 4 3] ++
      [.begin 5 false] ++ putOf 5 (Key.ofNat 7) 13 ++ commitOf 5 3 ++
      [.begin 6 false] ++ putOf 6 (Key.ofNat 7) 14 ++ commitOf 6 3 ++
      [.gcOnce 7 100, .gcCommit 0 true, .gcPurge 3 true])
    (fun _ reached => history_exact_of_oneWriter (le_refl 0) reached) ?_
  decide +kernel

end Embedded

end Compute
end ScaleKv
