import ScaleKv.BTree.Operations
import ScaleKv.Foundation.OrderedMap
import ScaleKv.Foundation.Rebalancing

namespace ScaleKv
namespace BTree

open Foundation.SearchTree

/-!
# The tree over the in-memory provider

`InMemoryPageProvider` keeps the pages in a map, hands out ids from a counter
and remembers the root.  The counter behind `len` belongs to the tree itself.

A page is a node of a search tree once its header is forgotten, apart from the
first child of an internal page.  The level, the links between the leaves and
the high keys steer searches but hold no pairs.
-/

/-- What a page contributes to the tree. -/
def Page.node {Value : Type} : Page Value -> Node PageId Key Value
  | .leaf _ entries => .leaf entries
  | .internal header entries => .branch header.leftChild entries

/-- A tree over `InMemoryPageProvider`. -/
structure Memory (Value : Type) where
  pages : Std.TreeMap PageId (Page Value)
  nextPageId : PageId
  root : PageId
  len : Nat

namespace Memory

variable {Value : Type}

/-- `PageBPlusTree::new`: an empty leaf as the root. -/
def empty : Memory Value :=
  { pages := (∅ : Std.TreeMap PageId (Page Value)).insert 1 (.leaf (.new 0) [])
    nextPageId := 2
    root := 1
    len := 0 }

/-- `write_page` of the provider. -/
def write (memory : Memory Value) (id : PageId) (page : Page Value) : Memory Value :=
  { memory with pages := memory.pages.insert id page }

def handle : (request : PageRequest Value) -> Memory Value -> request.Response × Memory Value
  | .readPage id, memory => (memory.pages[id]?, memory)
  | .writePage id page, memory => ((), memory.write id page)
  | .allocPageId, memory => (memory.nextPageId, { memory with nextPageId := memory.nextPageId + 1 })
  | .rootPageId, memory => (memory.root, memory)
  | .setRootPageId id, memory => ((), { memory with root := id })
  | .addLen, memory => ((), { memory with len := memory.len + 1 })
  | .subLen, memory => ((), { memory with len := memory.len - 1 })

def heap (memory : Memory Value) : Heap PageId Key Value :=
  fun id => memory.pages[id]?.map Page.node

/-- The pairs in the leaves reachable from the root.  No tree is deeper than
the number of ids handed out. -/
def pairs (memory : Memory Value) : List (Key × Value) :=
  itemsBelow memory.heap memory.nextPageId memory.root

end Memory

end BTree
end ScaleKv
