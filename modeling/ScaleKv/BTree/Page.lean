import ScaleKv.Common
import ScaleKv.Foundation.BinarySearch

namespace ScaleKv
namespace BTree

open Foundation

/-!
# Pages of the B+Tree

A page has a header and a sorted run of entries.  The entries of a leaf carry
the row values, those of an internal page the ids of its children; the child
left of the first separator is in the header.

Pages are modelled by their contents.  The page type decides the type of the
entries, the number of keys is the length of the run, and the bytes of a page
appear only in the rules that say when a run fits.
-/

inductive PageType
  | internal
  | leaf
deriving DecidableEq

def headerSize : Nat := 48

def offsetEntrySize : Nat := 2

/-- The row, its commit LSN, its undo pointer, its flags and its intent. -/
def leafValueSize : Nat := valueSize + 8 + 8 + 2 + 2 + 8 + 8

def childIdSize : Nat := 8

def entryValueSize : PageType -> Nat
  | .leaf => leafValueSize
  | .internal => childIdSize

def entrySize (pageType : PageType) : Nat := keySize + entryValueSize pageType

def dataStart (keyCount : Nat) : Nat := headerSize + keyCount * offsetEntrySize

def pageHasRoomForOneMore (pageType : PageType) (keyCount : Nat) : Bool :=
  headerSize + (keyCount + 1) * offsetEntrySize + (keyCount + 1) * entrySize pageType ≤ pageSize

def maxKeysForPageType (pageType : PageType) : Nat :=
  (pageSize - headerSize) / (offsetEntrySize + entrySize pageType)

def minKeysNonRoot (pageType : PageType) : Nat := maxKeysForPageType pageType / 2

/-- `PageHeader` without the page type and the number of keys. -/
structure PageHeader where
  level : Nat
  prevLeaf : Option PageId
  nextLeaf : Option PageId
  leftChild : PageId
  highKey : Option Key

inductive Page (Value : Type)
  | leaf (header : PageHeader) (entries : List (Key × Value))
  | internal (header : PageHeader) (entries : List (Key × PageId))

/-- The header that `new_page` writes. -/
def PageHeader.new (level : Nat) : PageHeader :=
  { level := level, prevLeaf := none, nextLeaf := none, leftChild := 0, highKey := none }

/-- The encoding stops at the first entry that ends behind the page. -/
def checkFits (pageType : PageType) (keyCount : Nat) : Result Unit :=
  let fitting := (pageSize - dataStart keyCount) / entrySize pageType
  if keyCount ≤ fitting then .ok ()
  else .error (.error (.invalidPageSize
    (dataStart keyCount + fitting * entrySize pageType) pageSize))

/-- `find_key_pos`. -/
def findKeyPos {Value : Type} (entries : List (Key × Value)) (key : Key) : Bool × Nat :=
  BinarySearch.find (fun index => entries[index]?.elim .gt (fun entry => compare entry.1 key))
    entries.length 0 entries.length

/-- `child_insert_pos_for_key`: the number of separators up to the key. -/
def childInsertPosForKey (entries : List (Key × PageId)) (key : Key) : Nat :=
  BinarySearch.partitionPoint (fun index => entries[index]?.any (fun entry => entry.1 ≤ key))
    entries.length 0 entries.length

/-- `child_id_at_pos`. -/
def childIdAtPos (header : PageHeader) (entries : List (Key × PageId)) (pos : Nat) : PageId :=
  if pos = 0 then header.leftChild else (entries[pos - 1]?.map Prod.snd).getD header.leftChild

namespace Page

variable {Value : Type}

def pageType : Page Value -> PageType
  | .leaf .. => .leaf
  | .internal .. => .internal

def keyCount : Page Value -> Nat
  | .leaf _ entries => entries.length
  | .internal _ entries => entries.length

def header : Page Value -> PageHeader
  | .leaf header _ => header
  | .internal header _ => header

/-- `write_header`, which leaves the entries as they are. -/
def withHeader (page : Page Value) (header : PageHeader) : Page Value :=
  match page with
  | .leaf _ entries => .leaf header entries
  | .internal _ entries => .internal header entries

/-- `entry_key_at` for the first entry. -/
def firstKey : Page Value -> Option Key
  | .leaf _ entries => entries.head?.map Prod.fst
  | .internal _ entries => entries.head?.map Prod.fst

/-- `!page_is_full_for_insert`. -/
def hasRoomForOneMore (page : Page Value) : Bool :=
  pageHasRoomForOneMore page.pageType page.keyCount

/-- `encode_entries` into a leaf. -/
def encodeLeaf (header : PageHeader) (entries : List (Key × Value)) : Result (Page Value) := do
  checkFits .leaf entries.length
  return .leaf header entries

/-- `encode_entries` into an internal page. -/
def encodeInternal (header : PageHeader) (entries : List (Key × PageId)) : Result (Page Value) := do
  checkFits .internal entries.length
  return .internal header entries

/-- `rebuild_page_with_insert`: writing behind the end of the page panics. -/
def rebuildWithInsert (header : PageHeader) (entries : List (Key × Value)) (pos : Nat) (key : Key)
    (value : Value) : Result (Page Value) :=
  if pageHasRoomForOneMore .leaf entries.length then
    .ok (.leaf header (entries.insertIdx pos (key, value)))
  else .error .panicked

/-- `rebuild_page_with_remove`. -/
def rebuildWithRemove (header : PageHeader) (entries : List (Key × Value)) (pos : Nat) :
    Page Value :=
  .leaf header (entries.eraseIdx pos)

/-- `split_leaf`, and the links that its callers write into the halves. -/
def splitLeaf (id rightId : PageId) (header : PageHeader) (entries : List (Key × Value)) :
    Result (Key × Page Value × Page Value) :=
  match entries[entries.length / 2]? with
  | none => .error .panicked
  | some (separator, _) => do
      let left <- encodeLeaf { header with highKey := some separator, nextLeaf := some rightId }
        (entries.take (entries.length / 2))
      let right <- encodeLeaf { header with prevLeaf := some id }
        (entries.drop (entries.length / 2))
      return (separator, left, right)

/-- `split_internal`: the middle separator moves up. -/
def splitInternal (header : PageHeader) (entries : List (Key × PageId)) :
    Result (Key × Page Value × Page Value) :=
  match entries[entries.length / 2]? with
  | none => .error .panicked
  | some (separator, child) => do
      let left <- encodeInternal { header with highKey := some separator }
        (entries.take (entries.length / 2))
      let right <- encodeInternal { header with leftChild := child }
        (entries.drop (entries.length / 2 + 1))
      return (separator, left, right)

def split (id rightId : PageId) : Page Value -> Result (Key × Page Value × Page Value)
  | .leaf header entries => splitLeaf id rightId header entries
  | .internal header entries => splitInternal header entries

end Page

end BTree
end ScaleKv
