import ScaleKv.BTree.Page
import ScaleKv.Foundation.Program

namespace ScaleKv
namespace BTree

open Foundation

/-!
# Operations of the B+Tree

`PageBPlusTree` reads and writes its pages through a page provider.  Its
operations are programs over the requests of that provider, so that they can be
run over the in-memory provider as well as over the shared page cache.  Latches
order concurrent calls and are left out: a call runs alone here.

The loops of the source that have no bound of their own take one as an
argument.  A call that needs more rounds does not return.
-/

/-- How a call ends that gives no value. -/
inductive Stop
  | fault (fault : Fault)
  | diverged
deriving DecidableEq

/-- `AsyncPageProvider`, and the counter behind `len`. -/
inductive PageRequest (Value : Type)
  | readPage (id : PageId)
  | writePage (id : PageId) (page : Page Value)
  | allocPageId
  | rootPageId
  | setRootPageId (id : PageId)
  | addLen
  | subLen

def PageRequest.Response {Value : Type} : PageRequest Value -> Type
  | .readPage _ => Option (Page Value)
  | .writePage _ _ => Unit
  | .allocPageId => PageId
  | .rootPageId => PageId
  | .setRootPageId _ => Unit
  | .addLen => Unit
  | .subLen => Unit

abbrev TreeProgram (Value : Type) := Program (PageRequest Value) PageRequest.Response Stop

section Operations

variable {Value : Type}

def readPage (id : PageId) : TreeProgram Value (Option (Page Value)) :=
  Program.request (PageRequest.readPage id)

def writePage (id : PageId) (page : Page Value) : TreeProgram Value Unit :=
  Program.request (PageRequest.writePage id page)

def allocPageId : TreeProgram Value PageId := Program.request PageRequest.allocPageId

def rootPageId : TreeProgram Value PageId := Program.request PageRequest.rootPageId

def setRootPageId (id : PageId) : TreeProgram Value Unit := Program.request (PageRequest.setRootPageId id)

def addLen : TreeProgram Value Unit := Program.request PageRequest.addLen

def subLen : TreeProgram Value Unit := Program.request PageRequest.subLen

def fails {Answer : Type} (error : Error) : TreeProgram Value Answer := .fail (.fault (.error error))

def panics {Answer : Type} : TreeProgram Value Answer := .fail (.fault .panicked)

def computes {Answer : Type} (computation : Result Answer) : TreeProgram Value Answer :=
  .ofExcept (computation.mapError .fault)

/-- `read_page(id).await.ok_or(InvalidPageSize(id, PAGE_SIZE))`. -/
def readPageOrFail (id : PageId) : TreeProgram Value (Page Value) := do
  match <- readPage id with
  | some page => return page
  | none => fails (.invalidPageSize id pageSize)

/-! ## Lookup -/

def maxTraversalRetries : Nat := 8

def maxRightLinkHops : Nat := 256

def maxScanLeafHops : Nat := 8192

/-- The inner loop of `find_leaf_for_read`; `none` asks for another try. -/
def descendForRead (key : Key) : Nat -> PageId -> TreeProgram Value (Option PageId)
  | 0, _ => return none
  | hops + 1, current => do
      match <- readPage current with
      | none => return none
      | some (.leaf ..) => return some current
      | some (.internal header entries) =>
        descendForRead key hops (childIdAtPos header entries (childInsertPosForKey entries key))

/-- The outer loop of `find_leaf_for_read`. -/
def findLeafForRead (key : Key) : Nat -> TreeProgram Value (Option PageId)
  | 0 => return none
  | retries + 1 => do
      let rootId <- rootPageId
      match <- descendForRead key maxScanLeafHops rootId with
      | some leafId => return some leafId
      | none => findLeafForRead key retries

/-- How the inner loop of `get` ends: with the answer, or with another try. -/
inductive LeafRead (Value : Type)
  | answer (value : Option Value)
  | retry

/-- The inner loop of `get`, which follows right links past the high key. -/
def readLeaf (key : Key) : Nat -> PageId -> TreeProgram Value (LeafRead Value)
  | 0, _ => return .retry
  | hops + 1, leafId => do
      match <- readPage leafId with
      | none => return .answer none
      | some (.internal ..) => return .retry
      | some (.leaf header entries) =>
        match header.highKey.filter (fun highKey => highKey < key), header.nextLeaf with
        | some _, some next =>
          if next = leafId then return .retry else readLeaf key hops next
        | _, _ =>
          match findKeyPos entries key with
          | (true, pos) => return .answer (entries[pos]?.map Prod.snd)
          | (false, _) => return .answer none

/-- The outer loop of `get`. -/
def getLoop (key : Key) : Nat -> TreeProgram Value (Option Value)
  | 0 => return none
  | retries + 1 => do
      match <- findLeafForRead key maxTraversalRetries with
      | none => return none
      | some leafId =>
        match <- readLeaf key maxRightLinkHops leafId with
        | .answer value => return value
        | .retry => getLoop key retries

def get (key : Key) : TreeProgram Value (Option Value) := getLoop key maxTraversalRetries

/-- The fields of a row as a leaf stores them. -/
structure StoredRow (Content : Type) where
  value : Content
  commitLsn : Nat
  undoPageId : PageId
  undoSlotId : Nat
  flags : Nat
  intentTxnId : Nat
  intentLsn : Nat

structure LeafValueMeta where
  commitLsn : Nat
  undoPtr : Option (PageId × Nat)
  flags : Nat
  intentTxnId : Nat
  intentLsn : Nat

structure LeafValueRef (Content : Type) where
  metadata : LeafValueMeta
  value : Content

/-- An undo pointer to page 0 counts as none. -/
def decodeLeafValueMeta {Content : Type} (row : StoredRow Content) : LeafValueMeta where
  commitLsn := row.commitLsn
  undoPtr := if row.undoPageId = 0 then none else some (row.undoPageId, row.undoSlotId)
  flags := row.flags
  intentTxnId := row.intentTxnId
  intentLsn := row.intentLsn

def decodeLeafValueRef {Content : Type} (row : StoredRow Content) : LeafValueRef Content :=
  ⟨decodeLeafValueMeta row, row.value⟩

/-- `get`, with the row decoded by `find_in_leaf`. -/
def getRow {Content : Type} (key : Key) :
    TreeProgram (StoredRow Content) (Option (LeafValueRef Content)) := do
  let row <- get key
  return row.map decodeLeafValueRef

/-! ## Insertion -/

/-- `ensure_root_not_full`. -/
def ensureRootNotFull : TreeProgram Value Unit := do
  let rootId <- rootPageId
  let root <- readPageOrFail rootId
  if root.hasRoomForOneMore then return ()
  else
    let rightId <- allocPageId
    let (separator, left, right) <- computes (root.split rootId rightId)
    writePage rootId left
    writePage rightId right
    let newRoot <- computes (Page.encodeInternal
      { PageHeader.new (min 255 (root.header.level + 1)) with leftChild := rootId }
      [(separator, rightId)])
    let newRootId <- allocPageId
    writePage newRootId newRoot
    setRootPageId newRootId

/-- `split_child_and_update_parent`. -/
def splitChildAndUpdateParent (parentId : PageId) (parentHeader : PageHeader)
    (parentEntries : List (Key × PageId)) (childId : PageId) (child : Page Value) (childPos : Nat) :
    TreeProgram Value (Key × PageId) := do
  let rightId <- allocPageId
  let (separator, left, right) <- computes (child.split childId rightId)
  writePage childId left
  writePage rightId right
  let parent <- computes (Page.encodeInternal parentHeader
    (parentEntries.insertIdx childPos (separator, rightId)))
  writePage parentId parent
  return (separator, rightId)

/-- The insertion into the leaf in which the descent ends. -/
def insertIntoLeaf (id : PageId) (header : PageHeader) (entries : List (Key × Value)) (key : Key)
    (value : Value) : TreeProgram Value Unit :=
  match findKeyPos entries key with
  | (true, pos) => writePage id (.leaf header (entries.set pos (key, value)))
  | (false, pos) => do
      let rebuilt <- computes (Page.rebuildWithInsert header entries pos key value)
      writePage id rebuilt
      addLen

/-- The loop of `insert`, which splits a full child before it descends. -/
def insertLoop (key : Key) (value : Value) : Nat -> PageId -> TreeProgram Value Unit
  | 0, _ => .fail .diverged
  | rounds + 1, currentId => do
      match <- readPageOrFail currentId with
      | .leaf header entries => insertIntoLeaf currentId header entries key value
      | .internal header entries =>
        let childPos := childInsertPosForKey entries key
        let childId := childIdAtPos header entries childPos
        let child <- readPageOrFail childId
        if child.hasRoomForOneMore then insertLoop key value rounds childId
        else if !pageHasRoomForOneMore .internal entries.length then
          fails (.invalidPageSize currentId pageSize)
        else
          let (separator, rightId) <-
            splitChildAndUpdateParent currentId header entries childId child childPos
          if separator ≤ key then insertLoop key value rounds rightId
          else insertLoop key value rounds childId

/-- `insert`; the key has its size by its type. -/
def insert (rounds : Nat) (key : Key) (value : Value) : TreeProgram Value Unit := do
  ensureRootNotFull
  let rootId <- rootPageId
  insertLoop key value rounds rootId

/-! ## Borrowing and merging

The child that a removal descends to has too few keys.  All pages of one level
have one type; a sibling of the other type would be refused when its entries
are encoded. -/

def wrongSibling {Answer : Type} (child sibling : Page Value) : TreeProgram Value Answer :=
  fails (.invalidValueSize (entryValueSize sibling.pageType) (entryValueSize child.pageType))

/-- `parent_entries[index].0 = key`. -/
def setSeparator (entries : List (Key × PageId)) (index : Nat) (key : Key) :
    List (Key × PageId) :=
  entries.modify index (fun entry => (key, entry.2))

/-- Move the last entry of the left sibling to the child.  The sibling and the
parent are written; the rebuilt child is not. -/
def borrowFromLeft (parentId : PageId) (header : PageHeader) (entries : List (Key × PageId))
    (childPos : Nat) (leftId : PageId) (left child : Page Value) : TreeProgram Value Unit :=
  match left, child with
  | .leaf leftHeader leftEntries, .leaf childHeader childEntries =>
    match leftEntries.getLast? with
    | none => fails (.invalidPageSize leftId pageSize)
    | some borrowed => do
        let _ <- computes (Page.encodeLeaf { childHeader with prevLeaf := some leftId }
          (borrowed :: childEntries))
        let lender <- computes (Page.encodeLeaf
          { leftHeader with highKey := some borrowed.1 } leftEntries.dropLast)
        writePage leftId lender
        let parent <- computes (Page.encodeInternal header
          (setSeparator entries (childPos - 1) borrowed.1))
        writePage parentId parent
  | .internal leftHeader leftEntries, .internal childHeader childEntries =>
    match entries[childPos - 1]?, leftEntries.getLast? with
    | none, _ => panics
    | some _, none => fails (.invalidPageSize leftId pageSize)
    | some separator, some lent => do
        let lender <- computes (Page.encodeInternal
          { leftHeader with highKey := some lent.1 } leftEntries.dropLast)
        let _ : Page Value <- computes (Page.encodeInternal { childHeader with leftChild := lent.2 }
          ((separator.1, childHeader.leftChild) :: childEntries))
        writePage leftId lender
        let parent <- computes (Page.encodeInternal header
          (setSeparator entries (childPos - 1) lent.1))
        writePage parentId parent
  | left, child => wrongSibling child left

/-- Move the first entry of the right sibling to the child, with the same
omission. -/
def borrowFromRight (parentId : PageId) (header : PageHeader) (entries : List (Key × PageId))
    (childPos : Nat) (childId : PageId) (child : Page Value) (rightId : PageId)
    (right : Page Value) : TreeProgram Value Unit :=
  match child, right with
  | .leaf childHeader childEntries, .leaf rightHeader rightEntries =>
    match rightEntries with
    | borrowed :: first :: rest => do
        let _ <- computes (Page.encodeLeaf { childHeader with highKey := some first.1 }
          (childEntries ++ [borrowed]))
        let lender <- computes (Page.encodeLeaf { rightHeader with prevLeaf := some childId }
          (first :: rest))
        writePage rightId lender
        let parent <- computes (Page.encodeInternal header (setSeparator entries childPos first.1))
        writePage parentId parent
    | _ => panics
  | .internal childHeader childEntries, .internal rightHeader rightEntries =>
    match entries[childPos]?, rightEntries with
    | some separator, promoted :: rest => do
        let lender <- computes (Page.encodeInternal
          { rightHeader with leftChild := promoted.2 } rest)
        let _ : Page Value <- computes (Page.encodeInternal
          { childHeader with highKey := some promoted.1 }
          (childEntries ++ [(separator.1, rightHeader.leftChild)]))
        writePage rightId lender
        let parent <- computes (Page.encodeInternal header
          (setSeparator entries childPos promoted.1))
        writePage parentId parent
    | _, _ => panics
  | child, right => wrongSibling child right

/-- The page that takes in the entries of its right neighbour. -/
def mergePages (separator : Key) (left right : Page Value) : TreeProgram Value (Page Value) :=
  match left, right with
  | .leaf leftHeader leftEntries, .leaf rightHeader rightEntries =>
    computes (Page.encodeLeaf
      { leftHeader with nextLeaf := rightHeader.nextLeaf, highKey := rightHeader.highKey }
      (leftEntries ++ rightEntries))
  | .internal leftHeader leftEntries, .internal rightHeader rightEntries =>
    computes (Page.encodeInternal { leftHeader with highKey := rightHeader.highKey }
      (leftEntries ++ (separator, rightHeader.leftChild) :: rightEntries))
  | left, right => wrongSibling left right

/-- Merge the two children around the separator at `index` into the left one. -/
def mergeChildren (parentId : PageId) (header : PageHeader) (entries : List (Key × PageId))
    (index : Nat) (leftId : PageId) (left right : Page Value) : TreeProgram Value Unit :=
  match entries[index]? with
  | none => panics
  | some separator => do
      let merged <- mergePages separator.1 left right
      let parent <- computes (Page.encodeInternal header (entries.eraseIdx index))
      writePage parentId parent
      writePage leftId merged

/-! ## Repairs after a removal -/

/-- A leaf has a new first key: it becomes the separator in front of the leaf
and the high key of the leaf before. -/
def raiseSeparator (parentId : PageId) (header : PageHeader) (entries : List (Key × PageId))
    (index : Nat) (newFirst : Key) : TreeProgram Value Unit := do
  let parent <- computes (Page.encodeInternal header (setSeparator entries index newFirst))
  writePage parentId parent
  let leftId := childIdAtPos header entries index
  match <- readPage leftId with
  | none => return ()
  | some left => writePage leftId (left.withHeader { left.header with highKey := some newFirst })

/-- `repair_parent_separator_after_leaf_first_key_change`. -/
def repairParentSeparator (parentId : PageId) (hintPos : Nat) (childId : PageId) (newFirst : Key) :
    TreeProgram Value Unit := do
  match <- readPage parentId with
  | none => return ()
  | some (.leaf ..) => return ()
  | some (.internal header entries) =>
    if entries.isEmpty then return ()
    else
      let found :=
        if hintPos ≤ entries.length ∧ childIdAtPos header entries hintPos = childId then
          some hintPos
        else
          (List.range (entries.length + 1)).find?
            (fun index => childIdAtPos header entries index = childId)
      match found with
      | none => return ()
      | some 0 => return ()
      | some (index + 1) => raiseSeparator parentId header entries index newFirst

/-- The first key of the page that a leaf is linked to. -/
def firstKeyOf (linked : Option PageId) : TreeProgram Value (Option Key) := do
  match linked with
  | none => return none
  | some id =>
    let page <- readPage id
    return page.bind Page.firstKey

/-- `repair_leaf_boundary_after_delete`. -/
def repairLeafBoundary (leafId : PageId) : TreeProgram Value Unit := do
  match <- readPage leafId with
  | none => return ()
  | some (.internal ..) => return ()
  | some (.leaf header entries) =>
    let nextFirst <- firstKeyOf header.nextLeaf
    writePage leafId (.leaf { header with highKey := nextFirst } entries)
    match header.prevLeaf, entries.head? with
    | some prevId, some first => do
        match <- readPage prevId with
        | some (.leaf prevHeader prevEntries) =>
          if prevHeader.nextLeaf = some leafId then
            writePage prevId (.leaf { prevHeader with highKey := some first.1 } prevEntries)
          else return ()
        | _ => return ()
    | _, _ => return ()

/-- The first loop of `refresh_leaf_high_keys`; a missing page ends the call. -/
def leftmostLeaf : Nat -> PageId -> TreeProgram Value (Option PageId)
  | 0, current => return some current
  | hops + 1, current => do
      match <- readPage current with
      | none => return none
      | some (.leaf ..) => return some current
      | some (.internal header _) => leftmostLeaf hops header.leftChild

/-- The second loop of `refresh_leaf_high_keys`. -/
def refreshChain : Nat -> PageId -> TreeProgram Value Unit
  | 0, _ => return ()
  | hops + 1, current => do
      match <- readPage current with
      | some (.leaf header entries) =>
        let newHighKey <- firstKeyOf header.nextLeaf
        if header.highKey ≠ newHighKey then
          writePage current (.leaf { header with highKey := newHighKey } entries)
        match header.nextLeaf with
        | none => return ()
        | some next => if next = current then return () else refreshChain hops next
      | _ => return ()

def refreshLeafHighKeys : TreeProgram Value Unit := do
  let rootId <- rootPageId
  match <- leftmostLeaf maxScanLeafHops rootId with
  | none => return ()
  | some first => refreshChain maxScanLeafHops first

/-- `maybe_collapse_root_after_delete`. -/
def maybeCollapseRoot : Nat -> TreeProgram Value Unit
  | 0 => .fail .diverged
  | rounds + 1 => do
      let rootId <- rootPageId
      match <- readPage rootId with
      | some (.internal header entries) =>
        if entries.isEmpty ∧ header.leftChild ≠ 0 then
          setRootPageId header.leftChild
          maybeCollapseRoot rounds
        else return ()
      | _ => return ()

/-! ## Removal -/

/-- How the descent of a removal ends, and what is left to repair. -/
inductive RemoveEnd
  | missing
  | absent
  | removed (leafId : PageId)

/-- The leaf is the current page of the descent. -/
def removeFromLeaf (leafId : PageId) (parentHint : Option (PageId × Nat)) (header : PageHeader)
    (entries : List (Key × Value)) (key : Key) : TreeProgram Value RemoveEnd :=
  match findKeyPos entries key with
  | (false, _) => return .absent
  | (true, pos) => do
      let rebuilt := Page.rebuildWithRemove header entries pos
      writePage leafId rebuilt
      subLen
      match parentHint, (if pos = 0 then rebuilt.firstKey else none) with
      | some (parentId, hintPos), some newFirst =>
        repairParentSeparator parentId hintPos leafId newFirst
      | _, _ => pure ()
      return .removed leafId

/-- The leaf is a child of the current page and keeps enough keys. -/
def removeFromChildLeaf (parentId : PageId) (parentHeader : PageHeader)
    (parentEntries : List (Key × PageId)) (childPos : Nat) (leafId : PageId) (header : PageHeader)
    (entries : List (Key × Value)) (key : Key) : TreeProgram Value RemoveEnd :=
  match findKeyPos entries key with
  | (false, _) => return .absent
  | (true, pos) => do
      let rebuilt := Page.rebuildWithRemove header entries pos
      writePage leafId rebuilt
      match (if 0 < childPos ∧ pos = 0 then rebuilt.firstKey else none) with
      | none => pure ()
      | some newFirst =>
        raiseSeparator parentId parentHeader parentEntries (childPos - 1) newFirst
      subLen
      return .removed leafId

/-- What the descent does at an internal page: it ends in a leaf child, or goes
on with a child and the hint where its separator is. -/
inductive Descent
  | done (ending : RemoveEnd)
  | next (id : PageId) (parentHint : PageId × Nat)

def readLeftSibling (header : PageHeader) (entries : List (Key × PageId)) (childPos : Nat) :
    TreeProgram Value (Option (PageId × Page Value)) :=
  if 0 < childPos then do
    let leftId := childIdAtPos header entries (childPos - 1)
    let left <- readPageOrFail leftId
    return some (leftId, left)
  else return none

/-- The left sibling has nothing to lend: borrow from the right, merge with the
right, merge with the left. -/
def fixWithoutLender (currentId : PageId) (header : PageHeader) (entries : List (Key × PageId))
    (childPos : Nat) (childId : PageId) (child : Page Value) (left : Option (PageId × Page Value)) :
    TreeProgram Value (Option Descent) :=
  if childPos < entries.length then do
    let rightId := childIdAtPos header entries (childPos + 1)
    let right <- readPageOrFail rightId
    if minKeysNonRoot child.pageType < right.keyCount then
      borrowFromRight currentId header entries childPos childId child rightId right
    else mergeChildren currentId header entries childPos childId child right
    return some (.next childId (currentId, childPos))
  else
    match left with
    | some (leftId, left) => do
        mergeChildren currentId header entries (childPos - 1) leftId left child
        return some (.next leftId (currentId, childPos - 1))
    | none => return none

/-- Make the child safe if it has too few keys and a sibling. -/
def fixChild (currentId : PageId) (header : PageHeader) (entries : List (Key × PageId))
    (childPos : Nat) (childId : PageId) (child : Page Value) :
    TreeProgram Value (Option Descent) := do
  let left <- readLeftSibling header entries childPos
  match left.filter (fun sibling => minKeysNonRoot child.pageType < sibling.2.keyCount) with
  | some (leftId, left) =>
    borrowFromLeft currentId header entries childPos leftId left child
    return some (.next childId (currentId, childPos))
  | none => fixWithoutLender currentId header entries childPos childId child left

/-- The child is left as it is: a leaf ends the descent, an internal page is
its next page. -/
def enterChild (currentId : PageId) (header : PageHeader) (entries : List (Key × PageId))
    (childPos : Nat) (childId : PageId) (child : Page Value) (key : Key) :
    TreeProgram Value Descent :=
  match child with
  | .leaf leafHeader leafEntries => do
      let ending <- removeFromChildLeaf currentId header entries childPos childId leafHeader
        leafEntries key
      return .done ending
  | .internal .. => return .next childId (currentId, childPos)

/-- One round of the descent at an internal page. -/
def removeRound (currentId : PageId) (header : PageHeader) (entries : List (Key × PageId))
    (key : Key) : TreeProgram Value Descent := do
  let childPos := childInsertPosForKey entries key
  let childId := childIdAtPos header entries childPos
  let child <- readPageOrFail childId
  if child.keyCount ≤ minKeysNonRoot child.pageType then
    match <- fixChild currentId header entries childPos childId child with
    | some descent => return descent
    | none => enterChild currentId header entries childPos childId child key
  else enterChild currentId header entries childPos childId child key

/-- The loop of `remove` up to the repairs. -/
def removeLoop (key : Key) :
    Nat -> PageId -> Option (PageId × Nat) -> TreeProgram Value RemoveEnd
  | 0, _, _ => .fail .diverged
  | rounds + 1, currentId, parentHint => do
      match <- readPage currentId with
      | none => return .missing
      | some (.leaf header entries) => removeFromLeaf currentId parentHint header entries key
      | some (.internal header entries) =>
        match <- removeRound currentId header entries key with
        | .done ending => return ending
        | .next id hint => removeLoop key rounds id (some hint)

/-- `remove`; the key has its size by its type. -/
def remove (rounds : Nat) (key : Key) : TreeProgram Value Unit := do
  let rootId <- rootPageId
  match <- removeLoop key rounds rootId none with
  | .missing => return ()
  | .absent => maybeCollapseRoot rounds
  | .removed leafId =>
    repairLeafBoundary leafId
    refreshLeafHighKeys
    maybeCollapseRoot rounds

end Operations

end BTree
end ScaleKv
