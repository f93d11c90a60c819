import ScaleKv.Compute.UndoLog
import Mathlib.Data.List.Nodup

namespace ScaleKv
namespace Compute

open Foundation OrderedMap UndoView List Option Function

/-!
# The owners of undo pages

Every page has one owner: it was never handed out, it is on the free list, it
was lost when the free list was full, or it belongs to a transaction.  The
invariant says that the META page, the chains of the segments and the history
agree with the owners.  It makes every append succeed, and an append keeps it.
-/

inductive Owner
  | fresh
  | free
  | lost
  | txn (id : TxnId)
deriving DecidableEq

section Chains

variable {Value : Type} {pages : Std.TreeMap PageId (UndoPage Value)} {id : PageId}

/-- The pages form a chain that ends with the last one. -/
def Chained (pages : Std.TreeMap PageId (UndoPage Value)) : List PageId -> Prop
  | [] => True
  | id :: rest => (∃ page, pages[id]? = some page ∧ page.nextId = rest.headD 0) ∧ Chained pages rest

/-- The page id that a list of segments starts with, 0 if there is none. -/
def headOf (segments : List Segment) : PageId := (segments.head?.map Segment.first).getD 0

/-- The head of the last segment, 0 if there is none. -/
def tailOf (segments : List Segment) : PageId := (segments.getLast?.map Segment.first).getD 0

/-- A sealed segment whose history link is `next`. -/
structure Sealed (pages : Std.TreeMap PageId (UndoPage Value)) (segment : Segment) (next : PageId) :
    Prop where
  chained : Chained pages segment.pages
  header : ∃ page header, pages[segment.first]? = some page ∧ page.segment = some header ∧
    header.state = .committed ∧ header.commitLsn = segment.commitLsn ∧
    header.firstPageId = segment.first ∧ header.historyNext = next

/-- The segments are linked in this order, the last one to `next`. -/
def HistoryLinked (pages : Std.TreeMap PageId (UndoPage Value)) (next : PageId) : List Segment -> Prop
  | [] => True
  | segment :: rest =>
    Sealed pages segment ((rest.head?.map Segment.first).getD next) ∧ HistoryLinked pages next rest

/-- How many records the pages hold together. -/
def recordsOn (pages : Std.TreeMap PageId (UndoPage Value)) (ids : List PageId) : Nat :=
  (ids.map (fun id => (pages[id]?.map (fun page => page.records.length)).getD 0)).sum

theorem recordsOn_append (front back : List PageId) :
    recordsOn pages (front ++ back) = recordsOn pages front + recordsOn pages back := by
  rw [recordsOn, map_append, sum_append]
  rfl

theorem recordsOn_single {page : UndoPage Value} (stored : pages[id]? = some page) :
    recordsOn pages [id] = page.records.length := by
  simp [recordsOn, stored]

variable {after : Std.TreeMap PageId (UndoPage Value)} {ids : List PageId} {next : PageId}
  {segment : Segment} {segments : List Segment}

theorem recordsOn_congr
    (same : ∀ id ∈ ids, after[id]?.map UndoPage.records = pages[id]?.map UndoPage.records) :
    recordsOn after ids = recordsOn pages ids := by
  refine congrArg List.sum (map_congr_left ?_)
  intro id member
  have lengths := congrArg (Option.map List.length) (same id member)
  rw [Option.map_map, Option.map_map] at lengths
  exact congrArg (fun length => Option.getD length 0) lengths

theorem Chained.stored (chained : Chained pages ids) (member : id ∈ ids) :
    ∃ page, pages[id]? = some page := by
  induction ids with
  | nil => cases member
  | cons head tail ih =>
    rcases chained with ⟨⟨page, stored, _⟩, rest⟩
    rcases mem_cons.mp member with same | below
    · exact ⟨page, same ▸ stored⟩
    · exact ih rest below

theorem Chained.frame (chained : Chained pages ids)
    (kept : ∀ id page, id ∈ ids -> pages[id]? = some page ->
      ∃ page', after[id]? = some page' ∧ page'.nextId = page.nextId) : Chained after ids := by
  induction ids with
  | nil => trivial
  | cons head tail ih =>
    rcases chained with ⟨⟨page, stored, next⟩, rest⟩
    constructor
    · rcases kept head page mem_cons_self stored with ⟨page', stored', same⟩
      exact ⟨page', stored', same.trans next⟩
    · apply ih rest
      intro id page member
      exact kept id page (mem_cons_of_mem head member)

/-- Every page that is there keeps its link and its records. -/
def Kept (pages after : Std.TreeMap PageId (UndoPage Value)) : Prop :=
  ∀ (id : PageId) (page : UndoPage Value), pages[id]? = some page ->
    ∃ page', after[id]? = some page' ∧ page'.nextId = page.nextId ∧ page'.records = page.records

theorem Kept.chained (kept : Kept pages after) (chained : Chained pages ids) :
    Chained after ids := by
  apply chained.frame
  intro id page _ stored
  rcases kept id page stored with ⟨page', stored', next, _⟩
  exact ⟨page', stored', next⟩

theorem Kept.recordsOn (kept : Kept pages after) (chained : Chained pages ids) :
    recordsOn after ids = Compute.recordsOn pages ids := by
  apply recordsOn_congr
  intro id inside
  rcases chained.stored inside with ⟨page, stored⟩
  rcases kept id page stored with ⟨_, stored', _, records⟩
  rw [stored, stored', map_some, map_some, records]

theorem Chained.snoc {last : PageId} {lastPage page : UndoPage Value}
    (chained : Chained pages (ids ++ [last])) (different : id ≠ last) (apart : id ∉ ids)
    (distinct : last ∉ ids) (linked : lastPage.nextId = id) (ends : page.nextId = 0) :
    Chained ((pages.insert last lastPage).insert id page) (ids ++ [last] ++ [id]) := by
  induction ids with
  | nil =>
    refine ⟨⟨lastPage, ?_, linked⟩, ⟨page, ?_, ends⟩, trivial⟩
    · rw [lookup_insert_of_ne _ _ different, lookup_insert, if_pos rfl]
    · rw [lookup_insert, if_pos rfl]
  | cons head tail ih =>
    rcases chained with ⟨⟨stored, lookup, next⟩, rest⟩
    rw [mem_cons, not_or] at apart distinct
    constructor
    · refine ⟨stored, ?_, ?_⟩
      · rw [lookup_insert_of_ne _ _ apart.1, lookup_insert_of_ne _ _ distinct.1]
        exact lookup
      · rw [next]
        cases tail <;> rfl
    · exact ih rest apart.2 distinct.2

theorem historyLinked_cons {rest : List Segment} :
    HistoryLinked pages next (segment :: rest) <->
      Sealed pages segment ((rest.head?.map Segment.first).getD next) ∧
        HistoryLinked pages next rest :=
  Iff.rfl

theorem HistoryLinked.append {front back : List Segment} :
    HistoryLinked pages next (front ++ back) <->
      HistoryLinked pages ((back.head?.map Segment.first).getD next) front ∧
        HistoryLinked pages next back := by
  induction front with
  | nil => simp [HistoryLinked]
  | cons head tail ih =>
    rw [cons_append, historyLinked_cons, historyLinked_cons, ih, and_assoc]
    cases tail <;> rfl

/-- A later image of a page keeps its link and what the history reads of its header. -/
def SamePlace (page page' : UndoPage Value) : Prop :=
  page'.nextId = page.nextId ∧
    ∀ header, page.segment = some header -> ∃ header', page'.segment = some header' ∧
      header'.state = header.state ∧ header'.commitLsn = header.commitLsn ∧
      header'.firstPageId = header.firstPageId ∧ header'.historyNext = header.historyNext

section

variable (linked : HistoryLinked pages next segments)

include linked

theorem HistoryLinked.sealed
    (member : segment ∈ segments) : ∃ link, Sealed pages segment link := by
  induction segments with
  | nil => cases member
  | cons head tail ih =>
    rcases linked with ⟨own, rest⟩
    rcases mem_cons.mp member with same | below
    · exact ⟨_, same ▸ own⟩
    · exact ih rest below

omit linked in
theorem Sealed.frame (sealed : Sealed pages segment next)
    (kept : ∀ id page, id ∈ segment.pages -> pages[id]? = some page ->
      ∃ page', after[id]? = some page' ∧ SamePlace page page') :
    Sealed after segment next := by
  constructor
  · apply sealed.chained.frame
    intro id page member stored
    rcases kept id page member stored with ⟨page', stored', same, _⟩
    exact ⟨page', stored', same⟩
  · rcases sealed.header with ⟨page, header, stored, own, state, lsn, first, link⟩
    rcases kept _ page mem_cons_self stored with ⟨page', stored', _, headers⟩
    rcases headers header own with ⟨header', own', state', lsn', first', link'⟩
    exact ⟨page', header', stored', own', state'.trans state, lsn'.trans lsn, first'.trans first,
      link'.trans link⟩

theorem HistoryLinked.frame
    (kept : ∀ segment id page, segment ∈ segments -> id ∈ segment.pages ->
      pages[id]? = some page -> ∃ page', after[id]? = some page' ∧ SamePlace page page') :
    HistoryLinked after next segments := by
  induction segments with
  | nil => trivial
  | cons head tail ih =>
    constructor
    · apply linked.1.frame
      intro id page
      exact kept head id page mem_cons_self
    · apply ih linked.2
      intro segment id page member
      exact kept segment id page (mem_cons_of_mem head member)

theorem HistoryLinked.frame_eq
    (same : ∀ segment id, segment ∈ segments -> id ∈ segment.pages -> after[id]? = pages[id]?) :
    HistoryLinked after next segments := by
  apply linked.frame
  intro segment id page member inside stored
  exact ⟨page, (same segment id member inside).trans stored, rfl,
    fun header own => ⟨header, own, rfl, rfl, rfl, rfl⟩⟩

end

end Chains

namespace UndoLog

variable {Value : Type}

/-! ## The invariant -/

/-- A transaction in progress and the chain of its pages. -/
structure InProgress (store : UndoStore Value) (txn : TxnUndo Value) (ids : List PageId) : Prop where
  first : txn.firstPageId = ids.head?
  last : txn.lastPageId = ids.getLast?
  distinct : ids.Nodup
  chained : Chained txn.dirty ids
  head : ∀ first, ids.head? = some first ->
    ∃ page header, txn.dirty[first]? = some page ∧ page.segment = some header
  filled : ∀ (id : PageId) (page : UndoPage Value), txn.dirty[id]? = some page ->
    page.records ≠ []
  own : ∀ (id : PageId) (page : UndoPage Value), txn.dirty[id]? = some page -> id ∈ ids
  cached : ∀ id ∈ ids, store.pages[id]? = txn.dirty[id]?

/-- The allocator agrees with the owners. -/
structure MetaOwned (metaPage : MetaPage) (owner : PageId -> Owner) : Prop where
  zero : owner 0 = .fresh
  fresh : ∀ id, metaPage.raised.nextUndoPageId ≤ id -> owner id = .fresh
  free : ∀ id ∈ metaPage.undoFree, owner id = .free
  distinct : metaPage.undoFree.Nodup

/-- The META page, the chains and the history agree with the owners. -/
structure Inv (log : UndoLog Value) (owner : PageId -> Owner) : Prop where
  metaOwned : MetaOwned log.store.metaPage owner
  allocated : ∀ (txnId : TxnId) (ids : List PageId) (id : PageId), log.allocated[txnId]? = some ids -> id ∈ ids ->
    owner id = .txn txnId
  inProgress : ∀ (txnId : TxnId) (txn : TxnUndo Value), log.txns[txnId]? = some txn ->
    ∃ ids, log.allocated[txnId]? = some ids ∧ InProgress log.store txn ids
  ended : ∀ txnId : TxnId, log.txns[txnId]? = none -> log.allocated[txnId]? = none
  committed : ∀ segment id, segment ∈ log.history -> id ∈ segment.pages ->
    owner id = .txn segment.txnId
  segmentDistinct : ∀ segment ∈ log.history, segment.pages.Nodup
  done : ∀ segment ∈ log.history, log.txns[segment.txnId]? = none
  histories : (log.history.map Segment.txnId).Nodup
  linked : HistoryLinked log.store.pages 0 log.history
  historyHead : log.store.metaPage.undoHistoryHead = headOf log.history
  historyTail : log.store.metaPage.undoHistoryTail = tailOf log.history

variable {log : UndoLog Value} {owner : PageId -> Owner} {id : PageId} {store : UndoStore Value}
  {metaPage after : MetaPage} {ids : List PageId} {txnId : TxnId} {record : UndoRecord Value}
  {txn : TxnUndo Value} {ptr : UndoPtr}

section

variable (inv : log.Inv owner) {segment : Segment}

include inv

theorem Inv.owns (owns : log.Owns txnId id) :
    owner id = .txn txnId := by
  cases owns with
  | inProgress found member => exact inv.allocated _ _ _ found member
  | committed member inside => exact inv.committed _ _ member inside

theorem Inv.noSharedPage : log.NoSharedPage := by
  intro _ _ _ ownedByFirst ownedBySecond
  have same := (inv.owns ownedByFirst).symm.trans (inv.owns ownedBySecond)
  exact Owner.txn.inj same

theorem Inv.running (owned : log.allocated[txnId]? = some ids) (member : segment ∈ log.history) :
    segment.txnId ≠ txnId := by
  rintro rfl
  cases owned.symm.trans (inv.ended _ (inv.done segment member))

theorem Inv.not_shared (owned : log.allocated[txnId]? = some ids) (member : segment ∈ log.history)
    (inside : id ∈ segment.pages) : id ∉ ids := by
  intro own
  have isOwner := inv.allocated txnId ids id owned own
  rw [inv.committed segment id member inside] at isOwner
  exact inv.running owned member (Owner.txn.inj isOwner)

omit inv in
theorem reachable_of_linked {segments : List Segment} {next : PageId}
    (linked : HistoryLinked store.pages next segments)
    (nonzero : ∀ segment ∈ segments, segment.first ≠ 0)
    (start : ∀ segment, segments.head? = some segment -> Reachable store segment.first) :
    ∀ segment ∈ segments, Reachable store segment.first := by
  induction segments with
  | nil =>
    nofun
  | cons head tail ih =>
    intro segment member
    rcases mem_cons.mp member with same | below
    · rw [same]
      exact start head rfl
    · refine ih linked.2
        (fun other inside => nonzero other (mem_cons_of_mem head inside)) ?_ segment below
      intro second isSecond
      rcases linked.1.header with ⟨_, header, stored, own, _, _, _, link⟩
      rw [isSecond] at link
      have behind : header.historyNext = second.first := link
      rw [← behind]
      apply Reachable.next (start head rfl) stored own
      rw [behind]
      exact nonzero second (mem_cons_of_mem head (mem_of_head? isSecond))

theorem Inv.ne_zero (owned : owner id ≠ .fresh) : id ≠ 0 := by
  rintro rfl
  exact owned inv.metaOwned.zero

theorem Inv.first_ne_zero (member : segment ∈ log.history) :
    segment.first ≠ 0 := by
  apply inv.ne_zero
  rw [inv.committed segment _ member mem_cons_self]
  exact Owner.noConfusion

theorem Inv.historyComplete : log.HistoryComplete := by
  apply reachable_of_linked inv.linked
  · intro segment member
    exact inv.first_ne_zero member
  · intro segment isHead
    have atHead : log.store.metaPage.undoHistoryHead = segment.first := by
      rw [inv.historyHead, headOf, isHead]
      rfl
    rw [← atHead]
    apply Reachable.head
    rw [atHead]
    exact inv.first_ne_zero (mem_of_head? isHead)

end

/-! ## Appending a record -/

section

variable {view : UndoView Value} {ptr : UndoPtr} {id : PageId} {page : UndoPage Value}
variable {metaPage : MetaPage}

theorem pages_writePage (other : PageId) : (view.writePage id page).store.pages[other]? =
    if id = other then some page else view.store.pages[other]? :=
  lookup_insert ..

theorem dirty_writePage (other : PageId) : (view.writePage id page).txn.dirty[other]? =
    if id = other then some page else view.txn.dirty[other]? :=
  lookup_insert ..

theorem pages_noteRecord (other : PageId) :
    (view.noteRecord ptr page metaPage).store.pages[other]? =
      if ptr.pageId = other then some page else view.store.pages[other]? :=
  lookup_insert ..

theorem dirty_noteRecord (other : PageId) :
    (view.noteRecord ptr page metaPage).txn.dirty[other]? =
      if ptr.pageId = other then some page else view.txn.dirty[other]? :=
  lookup_insert ..

end

/-- What `append_undo` does for a transaction in progress. -/
structure Appended (view after : UndoView Value) (ids grown : List PageId)
    (record : UndoRecord Value) (ptr : UndoPtr) : Prop where
  allocates : (grown = ids ∧ after.store.metaPage = view.store.metaPage.raised ∧ ptr.slotId ≠ 0) ∨
    (grown = ids ++ [ptr.pageId] ∧ ptr.slotId = 0 ∧
      view.store.metaPage.raised.allocPageId = (ptr.pageId, after.store.metaPage))
  inProgress : InProgress after.store after.txn grown
  outside : ∀ id, id ∉ grown -> after.store.pages[id]? = view.store.pages[id]?
  kept : ∀ (id : PageId) (page : UndoPage Value) (slot : Nat) (old : UndoRecord Value),
    id ∈ ids -> view.store.pages[id]? = some page -> page.records[slot]? = some old ->
    ∃ page', after.store.pages[id]? = some page' ∧ page'.records[slot]? = some old
  written : ∃ page, after.store.pages[ptr.pageId]? = some page ∧
    page.records[ptr.slotId]? = some record
  staged : after.txn.dirtyMeta = some after.store.metaPage
  roCache : after.txn.roCache = view.txn.roCache
  inside : ptr.pageId ∈ grown
  counted : after.txn.recordCount = view.txn.recordCount + 1 ∧
    recordsOn after.store.pages grown = recordsOn view.store.pages ids + 1
  headers : ∀ (id : PageId) (page : UndoPage Value) header,
    after.store.pages[id]? = some page -> page.segment = some header ->
    (∃ before, view.store.pages[id]? = some before ∧ before.segment = some header) ∨
      (ids = [] ∧ id = ptr.pageId ∧ header.state = .inProgress)

theorem allocPageId_cases (allocation : metaPage.allocPageId = (id, after)) :
    (∃ front, metaPage.undoFree = front ++ [id] ∧ after = { metaPage with undoFree := front }) ∨
      (metaPage.undoFree = [] ∧ id = metaPage.nextUndoPageId ∧
        after = { metaPage with nextUndoPageId := id + 1 }) := by
  unfold MetaPage.allocPageId at allocation
  split at allocation
  · next _ isLast =>
    cases allocation
    rcases List.getLast?_eq_some_iff.mp isLast with ⟨front, shape⟩
    exact .inl ⟨front, shape, by rw [shape, dropLast_concat]⟩
  · next empty =>
    cases allocation
    exact .inr ⟨List.getLast?_eq_none_iff.mp empty, rfl, rfl⟩

theorem Appended.history {view after : UndoView Value} {grown : List PageId}
    (appended : Appended view after ids grown record ptr) :
    after.store.metaPage.undoHistoryHead = view.store.metaPage.undoHistoryHead ∧
      after.store.metaPage.undoHistoryTail = view.store.metaPage.undoHistoryTail := by
  rcases appended.allocates with ⟨_, sameMeta, _⟩ | ⟨_, _, allocation⟩
  · rw [sameMeta]
    exact ⟨rfl, rfl⟩
  · rcases allocPageId_cases allocation with ⟨_, _, shape⟩ | ⟨_, _, shape⟩
    · rw [shape]
      exact ⟨rfl, rfl⟩
    · rw [shape]
      exact ⟨rfl, rfl⟩

theorem hasRoom_newSegment (txnId : TxnId) (id : PageId) :
    (UndoPage.newSegment txnId id : UndoPage Value).hasRoom = true := by
  simp [UndoPage.hasRoom, UndoPage.newSegment, UndoPage.hdrSize, undoSlotSize, undoRecordSize,
    valueSize, pageSize]

theorem hasRoom_new : (UndoPage.new : UndoPage Value).hasRoom = true := by
  simp [UndoPage.hasRoom, UndoPage.new, UndoPage.hdrSize, undoSlotSize, undoRecordSize, valueSize,
    pageSize]

section

variable {view : UndoView Value} {txnId : TxnId} {prev : Option UndoPtr} {oldCommitLsn : Nat}
variable {oldFlags : Flags} {oldValue : Value}

/-- The record that `append_undo` writes. -/
def recordOf (view : UndoView Value) (txnId : TxnId) (prev : Option UndoPtr) (oldCommitLsn : Nat)
    (oldFlags : Flags) (oldValue : Value) : UndoRecord Value :=
  ⟨prev, txnId, view.txn.lastRecord, oldCommitLsn, oldFlags, oldValue⟩

variable {id current : PageId} {metaPage : MetaPage} {page : UndoPage Value}

theorem appendUndo_of_none (unopened : view.txn.lastPageId = none)
    (allocation : view.store.metaPage.raised.allocPageId = (id, metaPage)) :
    view.appendUndo txnId prev oldCommitLsn oldFlags oldValue =
      .ok (⟨id, 0⟩, (({ view with txn := { view.txn with
          firstPageId := some id, lastPageId := some id } } : UndoView Value).writePage id
            (.newSegment txnId id)).noteRecord ⟨id, 0⟩
          ((UndoPage.newSegment txnId id).push
            (recordOf view txnId prev oldCommitLsn oldFlags oldValue)) metaPage) := by
  unfold appendUndo UndoView.openSegment
  rw [unopened, allocation]
  simp only [currentPage, writePage, lookup_insert, if_true,
    some_or, placeRecord, UndoPage.appendRecord, hasRoom_newSegment, bind,
    Except.bind, pure, Except.pure]
  rfl

theorem appendUndo_of_room (opened : view.txn.lastPageId = some current)
    (stored : view.txn.dirty[current]? = some page) (room : page.hasRoom = true) :
    view.appendUndo txnId prev oldCommitLsn oldFlags oldValue =
      .ok (⟨current, page.records.length⟩, view.noteRecord ⟨current, page.records.length⟩
        (page.push (recordOf view txnId prev oldCommitLsn oldFlags oldValue))
        view.store.metaPage.raised) := by
  unfold appendUndo UndoView.openSegment
  rw [opened]
  simp only [currentPage, stored, some_or, placeRecord,
    UndoPage.appendRecord, room, if_true, bind, Except.bind, pure, Except.pure]
  rfl

theorem appendUndo_of_full (opened : view.txn.lastPageId = some current)
    (stored : view.txn.dirty[current]? = some page) (full : page.hasRoom = false)
    (allocation : view.store.metaPage.raised.allocPageId = (id, metaPage)) :
    view.appendUndo txnId prev oldCommitLsn oldFlags oldValue =
      .ok (⟨id, 0⟩, (view.writePage current { page with nextId := id }).noteRecord ⟨id, 0⟩
        (UndoPage.new.push (recordOf view txnId prev oldCommitLsn oldFlags oldValue)) metaPage) := by
  unfold appendUndo UndoView.openSegment
  rw [opened]
  simp only [currentPage, stored, some_or, placeRecord,
    UndoPage.appendRecord, full, hasRoom_new, allocation, if_true, bind, Except.bind, pure,
    Except.pure]
  rfl

variable {record : UndoRecord Value}

theorem appended_first (progress : InProgress view.store view.txn [])
    (allocation : view.store.metaPage.raised.allocPageId = (id, metaPage)) :
    Appended view
      ((({ view with txn := { view.txn with
          firstPageId := some id, lastPageId := some id } } : UndoView Value).writePage id
            (.newSegment txnId id)).noteRecord ⟨id, 0⟩
          ((UndoPage.newSegment txnId id).push record) metaPage) [] [id] record ⟨id, 0⟩ := by
  refine ⟨.inr ⟨rfl, rfl, allocation⟩,
    ⟨rfl, rfl, nodup_singleton id, ⟨⟨_, (dirty_noteRecord id).trans (if_pos rfl), rfl⟩, trivial⟩,
      ?_, ?_, forall_insert mem_cons_self ?_, ?_⟩,
    ?_, nofun, ⟨_, (pages_noteRecord id).trans (if_pos rfl), rfl⟩, rfl, rfl, mem_cons_self,
    ⟨rfl, ?_⟩, ?_⟩
  · intro _ isFirst
    cases isFirst
    exact ⟨_, _, (dirty_noteRecord id).trans (if_pos rfl), rfl⟩
  · intro other page found
    rcases lookup_insert_cases found with ⟨_, rfl⟩ | ⟨different, before⟩
    · exact cons_ne_nil _ _
    · cases progress.own other page ((lookup_insert_of_ne _ _ (Ne.symm different)).symm.trans before)
  · exact forall_insert mem_cons_self
      (fun other page found => mem_cons_of_mem _ (progress.own other page found))
  · intro other member
    cases mem_singleton.mp member
    rw [pages_noteRecord, dirty_noteRecord, if_pos rfl, if_pos rfl]
  · intro other apart
    have different : id ≠ other := fun same => apart (mem_singleton.mpr same.symm)
    rw [pages_noteRecord, if_neg different, pages_writePage, if_neg different]
  · rw [recordsOn_single ((pages_noteRecord id).trans (if_pos rfl))]
    rfl
  · intro other page _ found own
    rw [pages_noteRecord, pages_writePage] at found
    split at found
    · next same =>
      cases found
      cases own
      exact .inr ⟨rfl, same.symm, rfl⟩
    · exact .inl ⟨page, found, own⟩

theorem appended_room (progress : InProgress view.store view.txn ids)
    (opened : view.txn.lastPageId = some current) (stored : view.txn.dirty[current]? = some page) :
    Appended view (view.noteRecord ⟨current, page.records.length⟩ (page.push record)
      view.store.metaPage.raised) ids ids record ⟨current, page.records.length⟩ := by
  have own : current ∈ ids := progress.own current page stored
  have cached : view.store.pages[current]? = some page := (progress.cached current own).trans stored
  refine ⟨.inl ⟨rfl, rfl, ?_⟩, ⟨progress.first, opened.symm.trans progress.last, progress.distinct, ?_, ?_,
    forall_insert (append_ne_nil_of_right_ne_nil _ (cons_ne_nil _ _)) progress.filled,
    forall_insert own progress.own, ?_⟩, ?_, ?_,
    ⟨_, (pages_noteRecord current).trans (if_pos rfl), List.getElem?_concat_length⟩, rfl, rfl, own,
    ⟨rfl, ?_⟩, ?_⟩
  · intro empty
    exact progress.filled current page stored (length_eq_zero_iff.mp empty)
  · apply progress.chained.frame
    intro id old member found
    rw [dirty_noteRecord]
    split
    · next same =>
      cases same
      cases stored.symm.trans found
      exact ⟨_, rfl, rfl⟩
    · exact ⟨old, found, rfl⟩
  · intro first isFirst
    rcases progress.head first isFirst with ⟨old, header, found, segment⟩
    rw [dirty_noteRecord]
    split
    · next same =>
      cases same
      cases stored.symm.trans found
      exact ⟨_, header, rfl, segment⟩
    · exact ⟨old, header, found, segment⟩
  · intro id member
    rw [pages_noteRecord, dirty_noteRecord, progress.cached id member]
  · intro id apart
    rw [pages_noteRecord, if_neg]
    rintro rfl
    exact apart own
  · intro id old _ _ _ found record
    rw [pages_noteRecord]
    split
    · next same =>
      cases same
      cases cached.symm.trans found
      exact ⟨_, rfl, List.getElem?_append_left (List.getElem?_eq_some_iff.mp record).1 ▸ record⟩
    · exact ⟨old, found, record⟩
  · rcases List.getLast?_eq_some_iff.mp (progress.last.symm.trans opened) with ⟨front, rfl⟩
    have apart := (nodup_append.mp progress.distinct).2.2
    have others : recordsOn (view.noteRecord ⟨current, page.records.length⟩ (page.push record)
        view.store.metaPage.raised).store.pages front = recordsOn view.store.pages front := by
      apply recordsOn_congr
      intro id member
      rw [pages_noteRecord, if_neg]
      intro same
      exact apart id member current (mem_singleton.mpr rfl) same.symm
    rw [recordsOn_append, recordsOn_append, others, recordsOn_single cached,
      recordsOn_single ((pages_noteRecord current).trans (if_pos rfl)), UndoPage.push,
      length_append]
    rfl
  · intro id image header found segment
    rw [pages_noteRecord] at found
    split at found
    · next same =>
      cases found
      exact .inl ⟨page, same ▸ cached, segment⟩
    · exact .inl ⟨image, found, segment⟩

theorem appended_full {front : List PageId}
    (progress : InProgress view.store view.txn (front ++ [current]))
    (stored : view.txn.dirty[current]? = some page) (new : id ∉ front ++ [current])
    (allocation : view.store.metaPage.raised.allocPageId = (id, metaPage)) :
    Appended view ((view.writePage current { page with nextId := id }).noteRecord ⟨id, 0⟩
      (UndoPage.new.push record) metaPage) (front ++ [current]) (front ++ [current] ++ [id]) record
      ⟨id, 0⟩ := by
  have different : id ≠ current := by
    rintro rfl
    exact new (mem_append_right front (mem_singleton.mpr rfl))
  have own : current ∈ front ++ [current] := progress.own current page stored
  have cached : view.store.pages[current]? = some page := (progress.cached current own).trans stored
  have distinct := progress.distinct
  rw [nodup_append] at distinct
  refine ⟨.inr ⟨rfl, rfl, allocation⟩, ⟨?_, ?_, ?_, ?_, ?_, forall_insert (cons_ne_nil _ _)
      (forall_insert (progress.filled current page stored) progress.filled),
    forall_insert mem_concat_self (forall_insert (mem_append_left _ own)
      (fun other old found => mem_append_left _ (progress.own other old found))), ?_⟩,
    ?_, ?_, ⟨_, (pages_noteRecord id).trans (if_pos rfl), rfl⟩, rfl, rfl, mem_concat_self,
    ⟨rfl, ?_⟩, ?_⟩
  · refine progress.first.trans ?_
    cases front <;> rfl
  · rw [List.getLast?_concat]
    rfl
  · exact nodup_append.mpr ⟨progress.distinct, nodup_singleton id,
      fun left inside right isId same => new (mem_singleton.mp isId ▸ same ▸ inside)⟩
  · apply progress.chained.snoc different
    · intro inside
      exact new (mem_append_left _ inside)
    · intro inside
      exact distinct.2.2 current inside current (mem_singleton.mpr rfl) rfl
    · rfl
    · rfl
  · intro first isFirst
    have isOldFirst : (front ++ [current]).head? = some first := by
      rw [← isFirst]
      cases front <;> rfl
    rcases progress.head first isOldFirst with ⟨old, header, found, segment⟩
    rw [dirty_noteRecord, if_neg, dirty_writePage]
    · split
      · next same =>
        cases same
        cases stored.symm.trans found
        exact ⟨_, header, rfl, segment⟩
      · exact ⟨old, header, found, segment⟩
    · rintro rfl
      exact new (mem_of_head? isOldFirst)
  · intro other member
    rw [pages_noteRecord, dirty_noteRecord, pages_writePage, dirty_writePage]
    split
    · rfl
    · next apart =>
      split
      · rfl
      · apply progress.cached
        rcases mem_append.mp member with inside | isNew
        · exact inside
        · exact absurd (mem_singleton.mp isNew).symm apart
  · intro other apart
    rw [pages_noteRecord, if_neg, pages_writePage, if_neg]
    · rintro rfl
      exact apart (mem_append_left _ own)
    · rintro rfl
      exact apart mem_concat_self
  · intro other old _ _ member found record
    rw [pages_noteRecord, if_neg, pages_writePage]
    · split
      · next same =>
        cases same
        cases cached.symm.trans found
        exact ⟨_, rfl, record⟩
      · exact ⟨old, found, record⟩
    · rintro rfl
      exact new member
  · rw [recordsOn_append, recordsOn_single ((pages_noteRecord id).trans (if_pos rfl))]
    refine congrArg (fun count => count + 1) (recordsOn_congr ?_)
    intro other member
    rw [pages_noteRecord, if_neg (fun same : id = other => new (same ▸ member)), pages_writePage]
    split
    · next same => rw [← same, cached, map_some, map_some]
    · rfl
  · intro other image header found segment
    rw [pages_noteRecord, pages_writePage] at found
    split at found
    · cases found
      cases segment
    · split at found
      · next same =>
        cases found
        exact .inl ⟨page, same ▸ cached, segment⟩
      · exact .inl ⟨image, found, segment⟩

theorem appendUndo_run {ids : List PageId} (progress : InProgress view.store view.txn ids)
    (new : view.store.metaPage.raised.allocPageId.1 ∉ ids) :
    ∃ ptr after grown, view.appendUndo txnId prev oldCommitLsn oldFlags oldValue =
        .ok (ptr, after) ∧
      Appended view after ids grown (recordOf view txnId prev oldCommitLsn oldFlags oldValue) ptr := by
  generalize allocation : view.store.metaPage.raised.allocPageId = allocated at new
  rcases eq_nil_or_concat ids with rfl | ⟨front, current, rfl⟩
  · exact ⟨_, _, _, appendUndo_of_none progress.last allocation, appended_first progress allocation⟩
  · have opened : view.txn.lastPageId = some current := by
      rw [progress.last, concat_eq_append, List.getLast?_concat]
    rw [concat_eq_append] at progress new ⊢
    have inside : current ∈ front ++ [current] :=
      mem_append_right front (mem_singleton.mpr rfl)
    rcases progress.chained.stored inside with ⟨page, stored⟩
    cases room : page.hasRoom with
    | true =>
      exact ⟨_, _, _, appendUndo_of_room opened stored room, appended_room progress opened stored⟩
    | false =>
      exact ⟨_, _, _, appendUndo_of_full opened stored room allocation,
        appended_full progress stored new allocation⟩

end

theorem InProgress.frame {after : UndoStore Value} (progress : InProgress store txn ids)
    (same : ∀ id ∈ ids, after.pages[id]? = store.pages[id]?) :
    InProgress after txn ids :=
  { progress with cached := fun id member => (same id member).trans (progress.cached id member) }

section

variable (owned : MetaOwned metaPage owner)

include owned

theorem MetaOwned.raised : MetaOwned metaPage.raised owner := by
  refine { owned with fresh := ?_ }
  intro _ above
  apply owned.fresh
  rw [← show metaPage.raised.raised.nextUndoPageId = metaPage.raised.nextUndoPageId by
    simp [MetaPage.raised]]
  exact above

theorem MetaOwned.unowned (allocation : metaPage.raised.allocPageId = (id, after)) (txnId : TxnId) :
    owner id ≠ .txn txnId := by
  rcases allocPageId_cases allocation with ⟨front, shape, _⟩ | ⟨_, isNext, _⟩
  · rw [owned.free id (shape ▸ mem_append_right front (mem_singleton.mpr rfl))]
    exact Owner.noConfusion
  · rw [owned.fresh id (le_of_eq isNext.symm)]
    exact Owner.noConfusion

theorem MetaOwned.allocated
    (allocation : metaPage.raised.allocPageId = (id, after)) (txnId : TxnId) :
    MetaOwned after (update owner id (.txn txnId)) := by
  rcases allocPageId_cases allocation with ⟨front, shape, rfl⟩ | ⟨empty, isNext, rfl⟩
  · have isFree : owner id = .free :=
      owned.free id (shape ▸ mem_append_right front (mem_singleton.mpr rfl))
    have distinct : (front ++ [id]).Nodup := shape ▸ owned.distinct
    have fresh : ∀ other, owner other = .fresh ->
        update owner id (.txn txnId) other = .fresh := by
      intro other isFresh
      rw [update_of_ne]
      · exact isFresh
      · rintro rfl
        rw [isFresh] at isFree
        cases isFree
    refine ⟨fresh 0 owned.zero, fun other above => fresh other (owned.raised.fresh other above), ?_, ?_⟩
    · intro other member
      rw [update_of_ne]
      · exact owned.free other (shape ▸ mem_append_left [id] member)
      · rintro rfl
        exact (nodup_append.mp distinct).2.2 other member other (mem_singleton.mpr rfl) rfl
    · exact (nodup_append.mp distinct).1
  · have above : undoBase ≤ id := by
      rw [isNext]
      exact le_max_right ..
    refine ⟨?_, ?_, ?_, ?_⟩
    · rw [update_of_ne]
      · exact owned.zero
      · rintro rfl
        cases above
    · intro other atLeast
      have beyond : id + 1 ≤ other := le_trans (le_max_left ..) atLeast
      rw [update_of_ne (Nat.ne_of_gt beyond)]
      apply owned.fresh
      rw [← isNext]
      exact Nat.le_of_succ_le beyond
    · intro other member
      have absurdMember : other ∈ metaPage.raised.undoFree := member
      rw [empty] at absurdMember
      cases absurdMember
    · exact owned.distinct

end

section

variable {log next : UndoLog Value} {owner : PageId -> Owner}

/-- Append changes the pages of its own transaction only, and no page goes from
one transaction to another. -/
theorem Inv.appended (inv : log.Inv owner) {ids grown : List PageId} {after : UndoView Value}
    (found : log.txns[txnId]? = some txn) (owned : log.allocated[txnId]? = some ids)
    (appended : Appended ⟨log.store, txn⟩ after ids grown record ptr)
    (allocated : ∀ id, next.allocated[id]? = if txnId = id then some grown else log.allocated[id]?)
    (txns : next.txns = log.txns.insert txnId after.txn) (store : next.store = after.store)
    (history : next.history = log.history) : ∃ owner', next.Inv owner' ∧
      ∀ id other, owner id = .txn other -> owner' id = .txn other := by
  -- the owners after the call: a page that is allocated goes over to the transaction
  have owners : ∃ owner', MetaOwned after.store.metaPage owner' ∧
      (∀ id other, owner id = .txn other -> owner' id = .txn other) ∧
      ∀ id ∈ grown, owner' id = .txn txnId := by
    rcases appended.allocates with ⟨rfl, sameMeta, _⟩ | ⟨rfl, _, allocation⟩
    · refine ⟨owner, ?_, fun _ _ same => same, fun id member => inv.allocated txnId _ id owned member⟩
      rw [sameMeta]
      exact inv.metaOwned.raised
    · have kept : ∀ id other, owner id = .txn other ->
          update owner ptr.pageId (.txn txnId) id = .txn other := by
        intro id other isOwner
        rw [update_of_ne]
        · exact isOwner
        · rintro rfl
          exact inv.metaOwned.unowned allocation other isOwner
      refine ⟨_, inv.metaOwned.allocated allocation txnId, kept, ?_⟩
      refine forall_mem_append.mpr
        ⟨fun id inside => kept id txnId (inv.allocated txnId ids id owned inside), forall_mem_singleton.mpr ?_⟩
      rw [update_self]
  rcases owners with ⟨owner', metaOwned, kept, ownGrown⟩
  rcases next with ⟨_, _⟩
  subst store txns history
  have apart : ∀ id other, owner id = .txn other -> other ≠ txnId ->
      after.store.pages[id]? = log.store.pages[id]? := by
    intro id other isOwner different
    apply appended.outside
    intro member
    have both := (kept id other isOwner).symm.trans (ownGrown id member)
    exact different (Owner.txn.inj both)
  have notFinished : ∀ segment ∈ log.history, segment.txnId ≠ txnId :=
    fun segment member => inv.running owned member
  refine ⟨owner', ⟨metaOwned, ?_, ?_, ?_, ?_, inv.segmentDistinct, ?_, inv.histories, ?_,
    appended.history.1.trans inv.historyHead, appended.history.2.trans inv.historyTail⟩, kept⟩
  · intro other otherIds id isAllocated member
    rw [allocated] at isAllocated
    split at isAllocated
    · next same =>
      cases isAllocated
      rw [← same]
      exact ownGrown id member
    · exact kept id other (inv.allocated other otherIds id isAllocated member)
  · intro other otherTxn inside
    rw [allocated]
    rcases lookup_insert_cases inside with ⟨rfl, rfl⟩ | ⟨different, before⟩
    · exact ⟨grown, if_pos rfl, appended.inProgress⟩
    · rcases inv.inProgress other otherTxn before with ⟨otherIds, isAllocated, progress⟩
      refine ⟨otherIds, (if_neg (Ne.symm different)).trans isAllocated, progress.frame ?_⟩
      intro id member
      exact apart id other (inv.allocated other otherIds id isAllocated member) different
  · intro other finished
    rw [lookup_insert] at finished
    rw [allocated]
    split at finished
    · cases finished
    · next different => exact (if_neg different).trans (inv.ended other finished)
  · intro segment id member inside
    exact kept id segment.txnId (inv.committed segment id member inside)
  · intro segment member
    rw [lookup_insert_of_ne _ _ (Ne.symm (notFinished segment member))]
    exact inv.done segment member
  · apply inv.linked.frame_eq
    intro segment id member inside
    exact apart id segment.txnId (inv.committed segment id member inside) (notFinished segment member)

end

end UndoLog

end Compute
end ScaleKv
