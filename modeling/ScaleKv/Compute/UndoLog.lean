import ScaleKv.Common
import ScaleKv.Foundation.OrderedMap
import ScaleKv.Foundation.Run

namespace ScaleKv
namespace Compute

/-!
# Undo segments

A read-write transaction keeps the old versions of the rows it overwrites in a
segment of undo pages of its own.  Which pages are free, and the list of the
committed segments from the oldest to the newest, is written on the META page.
Garbage collection takes committed segments from the front of that list and
puts their pages on the free list.

The META page has no lock.  A transaction that appends a record changes the
cached META page and keeps a copy of its own; when it commits, it starts from
its own copy and writes that one back.  Pages are modelled by their contents,
and the page cache is taken to keep every page.
-/

abbrev TxnId := Nat

/-- A record of an undo page. -/
structure UndoPtr where
  pageId : PageId
  slotId : Nat
deriving DecidableEq

/-- `FLAG_TOMBSTONE` and `FLAG_INTENT` of a row. -/
structure Flags where
  tombstone : Bool
  intent : Bool
deriving DecidableEq

/-- An overwritten version of a row, with the undo pointer that the row had. -/
structure UndoRecord (Value : Type) where
  prev : Option UndoPtr
  txnId : TxnId
  txnNext : Option UndoPtr
  oldCommitLsn : Nat
  oldFlags : Flags
  oldValue : Value

/-- The `SEGMENT_STATE_*` constants. -/
inductive SegmentState
  | inProgress
  | committed
  | aborted
  | purged
deriving DecidableEq

structure UndoSegmentHeader where
  txnId : TxnId
  beginLsn : Nat
  commitLsn : Nat
  state : SegmentState
  firstPageId : PageId
  lastPageId : PageId
  recordCount : Nat
  historyPrev : PageId
  historyNext : PageId

/-- An undo page; the first page of a segment carries the segment header.  The
page id 0 ends a chain. -/
structure UndoPage (Value : Type) where
  segment : Option UndoSegmentHeader
  nextId : PageId
  records : List (UndoRecord Value)

def undoRecordSize : Nat := 56 + valueSize

def undoSlotSize : Nat := 2

namespace UndoPage

variable {Value : Type}

/-- `BASE_HDR_SIZE` and `SEG_PAGE_HDR_SIZE`. -/
def hdrSize (page : UndoPage Value) : Nat := if page.segment.isSome then 16 + 72 else 16

/-- `new_undo_page`. -/
def new : UndoPage Value := { segment := none, nextId := 0, records := [] }

/-- `new_undo_segment_page`. -/
def newSegment (txnId : TxnId) (pageId : PageId) : UndoPage Value :=
  { segment := some
      { txnId := txnId
        beginLsn := 0
        commitLsn := 0
        state := .inProgress
        firstPageId := pageId
        lastPageId := pageId
        recordCount := 0
        historyPrev := 0
        historyNext := 0 }
    nextId := 0
    records := [] }

/-- The records grow down from the end of the page, the slots up from the header. -/
def hasRoom (page : UndoPage Value) : Bool :=
  page.hdrSize + (page.records.length + 1) * undoSlotSize + undoRecordSize ≤
    pageSize - page.records.length * undoRecordSize

def push (page : UndoPage Value) (record : UndoRecord Value) : UndoPage Value :=
  { page with records := page.records ++ [record] }

/-- `append_record`. -/
def appendRecord (page : UndoPage Value) (record : UndoRecord Value) :
    Except Error (Nat × UndoPage Value) :=
  if page.hasRoom then .ok (page.records.length, page.push record)
  else .error (.io .other "undo page full")

/-- `read_record_ref`. -/
def readRecord (page : UndoPage Value) (slotId : Nat) : Except Error (UndoRecord Value) :=
  match page.records[slotId]? with
  | some record => .ok record
  | none => .error (.io .invalidInput "undo slot out of range")

/-- `read_segment_header`. -/
def readSegmentHeader (page : UndoPage Value) : Except Error UndoSegmentHeader :=
  match page.segment with
  | some header => .ok header
  | none => .error (.io .invalidInput "not a segment-head undo page")

/-- `write_segment_header`. -/
def writeSegmentHeader (page : UndoPage Value) (header : UndoSegmentHeader) :
    Except Error (UndoPage Value) :=
  match page.segment with
  | some _ => .ok { page with segment := some header }
  | none => .error (.io .invalidInput "not a segment-head undo page")

end UndoPage

/-- `UNDO_BASE`. -/
def undoBase : PageId := 2000000

def undoFreeCap : Nat := 1024

/-- The part of `MetaPage` that concerns undo pages. -/
structure MetaPage where
  nextUndoPageId : PageId
  undoFree : List PageId
  undoHistoryHead : PageId
  undoHistoryTail : PageId
deriving DecidableEq

namespace MetaPage

/-- The page that a new database starts with. -/
def initial : MetaPage :=
  { nextUndoPageId := undoBase, undoFree := [], undoHistoryHead := 0, undoHistoryTail := 0 }

/-- `push_free_undo`: a page that does not fit is lost. -/
def pushFreeUndo (metaPage : MetaPage) (pageId : PageId) : MetaPage :=
  if metaPage.undoFree.length < undoFreeCap then
    { metaPage with undoFree := metaPage.undoFree ++ [pageId] }
  else metaPage

/-- What `append_undo` does to a META page of an older version. -/
def raised (metaPage : MetaPage) : MetaPage :=
  { metaPage with nextUndoPageId := max metaPage.nextUndoPageId undoBase }

/-- `alloc_page_id` of `append_undo`: the last free page, else a new one. -/
def allocPageId (metaPage : MetaPage) : PageId × MetaPage :=
  match metaPage.undoFree.getLast? with
  | some free => (free, { metaPage with undoFree := metaPage.undoFree.dropLast })
  | none => (metaPage.nextUndoPageId, { metaPage with nextUndoPageId := metaPage.nextUndoPageId + 1 })

end MetaPage

/-- The cached META page and the cached undo pages. -/
structure UndoStore (Value : Type) where
  metaPage : MetaPage
  pages : Std.TreeMap PageId (UndoPage Value)

/-- What a transaction knows about undo pages: its staged images, the pages it
has read, and its own segment. -/
structure TxnUndo (Value : Type) where
  dirtyMeta : Option MetaPage
  dirty : Std.TreeMap PageId (UndoPage Value)
  roCache : Std.TreeMap PageId (UndoPage Value)
  firstPageId : Option PageId
  lastPageId : Option PageId
  lastRecord : Option UndoPtr
  recordCount : Nat

def TxnUndo.begun {Value : Type} : TxnUndo Value :=
  { dirtyMeta := none
    dirty := ∅
    roCache := ∅
    firstPageId := none
    lastPageId := none
    lastRecord := none
    recordCount := 0 }

/-- The cache together with the pages of one transaction. -/
structure UndoView (Value : Type) where
  store : UndoStore Value
  txn : TxnUndo Value

namespace UndoView

variable {Value : Type}

/-- `EmbeddedTxn::write_page` of an undo page. -/
def writePage (view : UndoView Value) (id : PageId) (page : UndoPage Value) : UndoView Value :=
  { store := { view.store with pages := view.store.pages.insert id page }
    txn := { view.txn with dirty := view.txn.dirty.insert id page } }

/-- `EmbeddedTxn::write_page` of the META page. -/
def writeMeta (view : UndoView Value) (metaPage : MetaPage) : UndoView Value :=
  { store := { view.store with metaPage := metaPage }
    txn := { view.txn with dirtyMeta := some metaPage } }

/-- The start of `append_undo`: the last page of the segment, which is created
if there is none. -/
def openSegment (view : UndoView Value) (txnId : TxnId) (metaPage : MetaPage) :
    PageId × MetaPage × UndoView Value :=
  match view.txn.lastPageId with
  | some current => (current, metaPage, view)
  | none =>
    let allocated := metaPage.allocPageId
    let txn := { view.txn with
      firstPageId := some allocated.1
      lastPageId := some allocated.1 }
    (allocated.1, allocated.2,
      { view with txn := txn }.writePage allocated.1 (.newSegment txnId allocated.1))

/-- The page that `append_undo` goes on with. -/
def currentPage (view : UndoView Value) (current : PageId) : Except Error (UndoPage Value) :=
  match (view.txn.dirty[current]?.or view.store.pages[current]?).or view.txn.roCache[current]? with
  | some page => .ok page
  | none => .error (.inMemoryPageMissing current)

/-- The middle of `append_undo`: the record goes on the current page, or on a
new one behind it when that is full. -/
def placeRecord (view : UndoView Value) (metaPage : MetaPage) (current : PageId)
    (page : UndoPage Value) (record : UndoRecord Value) :
    Except Error (UndoPtr × UndoPage Value × MetaPage × UndoView Value) :=
  match page.appendRecord record with
  | .ok (slot, filled) => .ok (⟨current, slot⟩, filled, metaPage, view)
  | .error _ =>
    let allocated := metaPage.allocPageId
    match UndoPage.new.appendRecord record with
    | .ok (slot, filled) =>
      .ok (⟨allocated.1, slot⟩, filled, allocated.2,
        view.writePage current { page with nextId := allocated.1 })
    | .error error => .error error

/-- The end of `append_undo`. -/
def noteRecord (view : UndoView Value) (ptr : UndoPtr) (page : UndoPage Value) (metaPage : MetaPage) :
    UndoView Value :=
  let txn := { view.txn with
    lastPageId := some ptr.pageId
    lastRecord := some ptr
    recordCount := view.txn.recordCount + 1 }
  ({ view with txn := txn }.writePage ptr.pageId page).writeMeta metaPage

/-- `append_undo`. -/
def appendUndo (view : UndoView Value) (txnId : TxnId) (prev : Option UndoPtr) (oldCommitLsn : Nat)
    (oldFlags : Flags) (oldValue : Value) : Except Error (UndoPtr × UndoView Value) := do
  let opened := view.openSegment txnId view.store.metaPage.raised
  let page <- opened.2.2.currentPage opened.1
  let record : UndoRecord Value :=
    { prev := prev
      txnId := txnId
      txnNext := view.txn.lastRecord
      oldCommitLsn := oldCommitLsn
      oldFlags := oldFlags
      oldValue := oldValue }
  let placed <- opened.2.2.placeRecord opened.2.1 opened.1 page record
  return (placed.1, placed.2.2.2.noteRecord placed.1 placed.2.1 placed.2.2.1)

/-! ## Commit and purge -/

/-- The META page that a commit starts from: its own copy, if it has one. -/
def baseMeta (view : UndoView Value) : MetaPage := view.txn.dirtyMeta.getD view.store.metaPage

/-- A page for the batch of a commit. -/
def commitPage (view : UndoView Value) (id : PageId) : Except Error (UndoPage Value) :=
  match (view.txn.dirty[id]?.or view.store.pages[id]?).or view.txn.roCache[id]? with
  | some page => .ok page
  | none => .error (.inMemoryPageMissing id)

/-- The header that a commit writes on the first page of its segment. -/
def sealedHeader (view : UndoView Value) (txnId : TxnId) (startLsn endLsn : Nat) (first : PageId) :
    UndoSegmentHeader :=
  { txnId := txnId
    beginLsn := startLsn
    commitLsn := endLsn
    state := .committed
    firstPageId := first
    lastPageId := view.txn.lastPageId.getD first
    recordCount := view.txn.recordCount
    historyPrev := view.baseMeta.undoHistoryTail
    historyNext := 0 }

/-- The history part of `EmbeddedTxn::commit`: the segment is sealed and linked
behind the tail of the history. -/
def sealSegment (view : UndoView Value) (txnId : TxnId) (startLsn endLsn : Nat) :
    Except Error (MetaPage × Std.TreeMap PageId (UndoPage Value)) :=
  let base := view.baseMeta
  match view.txn.firstPageId with
  | none => .ok (base, view.txn.dirty)
  | some first => do
      let head <- view.commitPage first
      let oldTail := base.undoHistoryTail
      let head <- head.writeSegmentHeader (view.sealedHeader txnId startLsn endLsn first)
      let batch := view.txn.dirty.insert first head
      if oldTail = 0 then
        return ({ base with undoHistoryHead := first, undoHistoryTail := first }, batch)
      else
        let tail <- { view with txn := { view.txn with dirty := batch } }.commitPage oldTail
        let header <- tail.readSegmentHeader
        let tail <- tail.writeSegmentHeader { header with historyNext := first }
        return ({ base with undoHistoryTail := first }, batch.insert oldTail tail)

/-- A commit that is shipped puts its META page and its batch into the cache. -/
def commit (view : UndoView Value) (txnId : TxnId) (startLsn endLsn : Nat) :
    Except Error (UndoStore Value) := do
  let batch <- view.sealSegment txnId startLsn endLsn
  return { metaPage := batch.1, pages := view.store.pages ∪ batch.2 }

end UndoView

namespace UndoStore

variable {Value : Type}

/-- `get_page`. -/
def getPage (store : UndoStore Value) (id : PageId) : Except Error (UndoPage Value) :=
  match store.pages[id]? with
  | some page => .ok page
  | none => .error (.inMemoryPageMissing id)

/-- The loop of the purge over the pages of one segment.  A chain that does not
end within the fuel has no end. -/
def freePages (store : UndoStore Value) : Nat -> PageId -> MetaPage -> Option (Except Error MetaPage)
  | 0, _, _ => none
  | fuel + 1, pageId, metaPage =>
    if pageId = 0 then some (.ok metaPage)
    else
      match store.getPage pageId with
      | .error error => some (.error error)
      | .ok page => store.freePages fuel page.nextId (metaPage.pushFreeUndo pageId)

/-- What the purge has collected: the META page, the pages to write and the
heads of the segments it has purged. -/
structure Purge (Value : Type) where
  metaPage : MetaPage
  dirtyPages : Std.TreeMap PageId (UndoPage Value)
  purged : List PageId

/-- The link of the history to the segment behind the purged one. -/
def unlinkNext (store : UndoStore Value) (purge : Purge Value) (next : PageId) :
    Except Error (Purge Value) :=
  if next = 0 then
    .ok { purge with
      metaPage := { purge.metaPage with undoHistoryHead := 0, undoHistoryTail := 0 } }
  else do
    let page <- store.getPage next
    let header <- page.readSegmentHeader
    let page <- page.writeSegmentHeader { header with historyPrev := 0 }
    return { purge with
      metaPage := { purge.metaPage with undoHistoryHead := next }
      dirtyPages := purge.dirtyPages.insert next page }

/-- The loop of `gc_purge_undo_segments`. -/
def purgeLoop (store : UndoStore Value) (gcLsn : Nat) :
    Nat -> Purge Value -> Option (Except Error (Purge Value))
  | 0, _ => none
  | fuel + 1, purge =>
    let head := purge.metaPage.undoHistoryHead
    if head = 0 then some (.ok purge)
    else
      match store.getPage head with
      | .error error => some (.error error)
      | .ok page =>
        match page.readSegmentHeader with
        | .error error => some (.error error)
        | .ok header =>
          if header.state ≠ .committed ∨ gcLsn < header.commitLsn then some (.ok purge)
          else
            match store.unlinkNext purge header.historyNext with
            | .error error => some (.error error)
            | .ok unlinked =>
              match store.freePages (store.pages.size + 1) header.firstPageId
                unlinked.metaPage with
              | none => none
              | some (.error error) => some (.error error)
              | some (.ok metaPage) =>
                let closed := { page with segment := some { header with
                  state := .purged
                  historyPrev := 0
                  historyNext := 0 } }
                store.purgeLoop gcLsn fuel
                  { metaPage := metaPage
                    dirtyPages := unlinked.dirtyPages.insert head closed
                    purged := unlinked.purged ++ [head] }

/-- `reserve_n` of `gc_purge_undo_segments`, 0 if it returns before. -/
def purgeBatch (store : UndoStore Value) (gcLsn : Nat) : Nat :=
  match store.purgeLoop gcLsn (store.pages.size + 1) ⟨store.metaPage, ∅, []⟩ with
  | some (.ok purge) => if purge.dirtyPages.isEmpty then 0 else purge.dirtyPages.size + 1
  | _ => 0

/-- `gc_purge_undo_segments` when its batch is committed. -/
def gcPurgeUndoSegments (store : UndoStore Value) (gcLsn : Nat) :
    Option (Except Error (List PageId × UndoStore Value)) :=
  match store.purgeLoop gcLsn (store.pages.size + 1) ⟨store.metaPage, ∅, []⟩ with
  | none => none
  | some (.error error) => some (.error error)
  | some (.ok purge) =>
    if purge.dirtyPages.isEmpty then some (.ok ([], store))
    else
      some (.ok (purge.purged,
        { metaPage := purge.metaPage, pages := store.pages ∪ purge.dirtyPages }))

end UndoStore

/-! ## Transactions side by side -/

/-- A committed segment that has not been purged. -/
structure Segment where
  txnId : TxnId
  commitLsn : Nat
  first : PageId
  rest : List PageId

def Segment.pages (segment : Segment) : List PageId := segment.first :: segment.rest

/-- The undo pages with the transactions in progress.  The last two fields
record the past and are read by no step: the pages allocated to every
transaction in progress, and the segments of the committed transactions from
the oldest to the newest. -/
structure UndoLog (Value : Type) where
  store : UndoStore Value
  txns : Std.TreeMap TxnId (TxnUndo Value)
  allocated : Std.TreeMap TxnId (List PageId)
  history : List Segment

namespace UndoLog

variable {Value : Type}

def created : UndoLog Value :=
  { store := { metaPage := .initial, pages := ∅ }
    txns := ∅
    allocated := ∅
    history := [] }

/-- Transaction ids are request ids, so no two transactions share one. -/
def beginTx (log : UndoLog Value) (txnId : TxnId) : Option (UndoLog Value) :=
  if log.txns.contains txnId ∨ log.history.any (fun segment => segment.txnId = txnId) then none
  else
    some { log with
      txns := log.txns.insert txnId .begun
      allocated := log.allocated.insert txnId [] }

/-- `append_undo` of a transaction.  The first record of a page tells that the
page was allocated by this call. -/
def append (log : UndoLog Value) (txnId : TxnId) (prev : Option UndoPtr) (oldCommitLsn : Nat)
    (oldFlags : Flags) (oldValue : Value) : Option (Except Error (UndoPtr × UndoLog Value)) :=
  log.txns[txnId]?.map (fun txn =>
    match (UndoView.mk log.store txn).appendUndo txnId prev oldCommitLsn oldFlags oldValue with
    | .error error => .error error
    | .ok (ptr, view) =>
      .ok (ptr, { log with
        store := view.store
        txns := log.txns.insert txnId view.txn
        allocated := log.allocated.modify txnId (fun pages =>
          if ptr.slotId = 0 then pages ++ [ptr.pageId] else pages) }))

/-- The segment that a commit adds to the history. -/
def newSegment (log : UndoLog Value) (txnId : TxnId) (commitLsn : Nat) : List Segment :=
  match log.allocated[txnId]? with
  | some (first :: rest) => [⟨txnId, commitLsn, first, rest⟩]
  | _ => []

/-- The end of a transaction, which leaves its pages where they are. -/
def drop (log : UndoLog Value) (txnId : TxnId) : UndoLog Value :=
  { log with txns := log.txns.erase txnId, allocated := log.allocated.erase txnId }

/-- A commit whose batch is shipped. -/
def commit (log : UndoLog Value) (txnId : TxnId) (startLsn endLsn : Nat) :
    Option (Except Error (UndoLog Value)) :=
  log.txns[txnId]?.map (fun txn =>
    match (UndoView.mk log.store txn).commit txnId startLsn endLsn with
    | .error error => .error error
    | .ok store =>
      .ok { log.drop txnId with
        store := store
        history := log.history ++ log.newSegment txnId endLsn })

/-- `gc_purge_undo_segments`. -/
def purge (log : UndoLog Value) (gcLsn : Nat) : Option (Except Error (UndoLog Value)) :=
  match log.store.gcPurgeUndoSegments gcLsn with
  | none => none
  | some (.error error) => some (.error error)
  | some (.ok (purged, store)) =>
    some (.ok { log with
      store := store
      history := log.history.filter (fun segment => segment.first ∉ purged) })

/-- The pages of a purge come into the cache, over whatever is there by then. -/
def overwrite (log : UndoLog Value) (batch : UndoStore.Purge Value) : UndoLog Value :=
  { log with
    store := { metaPage := batch.metaPage, pages := log.store.pages ∪ batch.dirtyPages }
    history := log.history.filter (fun segment => segment.first ∉ batch.purged) }

inductive Action (Value : Type)
  | begin (txnId : TxnId)
  | appendUndo (txnId : TxnId) (prev : Option UndoPtr) (oldCommitLsn : Nat) (oldFlags : Flags)
      (oldValue : Value)
  | commit (txnId : TxnId) (startLsn endLsn : Nat)
  | drop (txnId : TxnId)
  | purge (gcLsn : Nat)

/-- A call that fails changes nothing; `drop` is an abort or a commit that
fails. -/
def step (log : UndoLog Value) : Action Value -> Option (UndoLog Value)
  | .begin txnId => log.beginTx txnId
  | .appendUndo txnId prev oldCommitLsn oldFlags oldValue =>
    (log.append txnId prev oldCommitLsn oldFlags oldValue).bind (fun result =>
      result.toOption.map Prod.snd)
  | .commit txnId startLsn endLsn => (log.commit txnId startLsn endLsn).bind Except.toOption
  | .drop txnId => if log.txns.contains txnId then some (log.drop txnId) else none
  | .purge gcLsn => (log.purge gcLsn).bind Except.toOption

/-- The pages that belong to the transaction or to the committed segment. -/
inductive Owns (log : UndoLog Value) : TxnId -> PageId -> Prop
  | inProgress {txnId : TxnId} {pages : List PageId} {id : PageId} :
      log.allocated[txnId]? = some pages -> id ∈ pages -> Owns log txnId id
  | committed {segment : Segment} {id : PageId} :
      segment ∈ log.history -> id ∈ segment.pages -> Owns log segment.txnId id

/-- A page belongs to one transaction at most. -/
def NoSharedPage (log : UndoLog Value) : Prop :=
  ∀ first second id, log.Owns first id -> log.Owns second id -> first = second

/-- The segments that the history leads to. -/
inductive Reachable (store : UndoStore Value) : PageId -> Prop
  | head : store.metaPage.undoHistoryHead ≠ 0 -> Reachable store store.metaPage.undoHistoryHead
  | next {id : PageId} {page : UndoPage Value} {header : UndoSegmentHeader} :
      Reachable store id -> store.pages[id]? = some page -> page.segment = some header ->
      header.historyNext ≠ 0 -> Reachable store header.historyNext

/-- Every committed segment that has not been purged is in the history. -/
def HistoryComplete (log : UndoLog Value) : Prop :=
  ∀ segment ∈ log.history, Reachable log.store segment.first

/-- The discipline of the commits: nothing has changed the cached META page
since the transaction staged its copy. -/
def ownMetaCurrent (log : UndoLog Value) : Action Value -> Prop
  | .commit txnId _ _ => (log.txns[txnId]?.bind TxnUndo.dirtyMeta).all
      (fun staged => staged = log.store.metaPage) = true
  | _ => True

instance ownMetaCurrentDecidable (log : UndoLog Value) (action : Action Value) :
    Decidable (log.ownMetaCurrent action) := by
  cases action <;> unfold ownMetaCurrent <;> infer_instance

end UndoLog

end Compute
end ScaleKv
