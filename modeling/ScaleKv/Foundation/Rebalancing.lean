import ScaleKv.Foundation.SearchTree

namespace ScaleKv
namespace Foundation
namespace SearchTree

open List

/-!
# Rebalancing a search tree

Neighbouring nodes of one depth can be merged, and a node can give up its first
or its last entry: an item if it is a leaf, a whole subtree if it is a branch.
The lemmas say which items the nodes hold afterwards and where the separator
between them has to be.

`Drops` compares the items of a tree before and after some of them were given
up and not taken in anywhere.
-/

variable {Id Key Value : Type} [LinearOrder Key]

/-- The items below a cell, from left to right, down to a depth. -/
def itemsBelow (heap : Heap Id Key Value) : Nat -> Id -> List (Key × Value)
  | 0, _ => []
  | depth + 1, id =>
    match heap id with
    | none => []
    | some (.leaf items) => items
    | some (.branch first rest) => (first :: rest.map Prod.snd).flatMap (itemsBelow heap depth)

/-- What a node holds, whatever cell it is in. -/
def Holds (heap : Heap Id Key Value) : Nat -> Node Id Key Value -> WithBot Key -> WithTop Key ->
    List (Key × Value) -> List Id -> Prop
  | 0, .leaf own, low, high, items, below => own = items ∧ Ordered low high items ∧ below = []
  | depth + 1, .branch first rest, low, high, items, below =>
    Row (Represents heap depth) low high first rest items below
  | _, _, _, _, _, _ => False

namespace Node

def keyCount : Node Id Key Value -> Nat
  | .leaf items => items.length
  | .branch _ rest => rest.length

/-- The node that takes in its right neighbour. -/
def merge (separator : Key) : Node Id Key Value -> Node Id Key Value -> Node Id Key Value
  | .leaf left, .leaf right => .leaf (left ++ right)
  | .branch first left, .branch middle right => .branch first (left ++ (separator, middle) :: right)
  | left, _ => left

def withoutLast : Node Id Key Value -> Node Id Key Value
  | .leaf items => .leaf items.dropLast
  | .branch first rest => .branch first rest.dropLast

def withoutFirst : Node Id Key Value -> Node Id Key Value
  | .leaf items => .leaf items.tail
  | .branch first rest => .branch (rest.head?.elim first Prod.snd) rest.tail

/-- The separator in front of the entry that `withoutLast` gives up. -/
def lastKey : Node Id Key Value -> Option Key
  | .leaf items => items.getLast?.map Prod.fst
  | .branch _ rest => rest.getLast?.map Prod.fst

/-- The separator behind the entry that `withoutFirst` gives up. -/
def secondKey : Node Id Key Value -> Option Key
  | .leaf items => items.tail.head?.map Prod.fst
  | .branch _ rest => rest.head?.map Prod.fst

/-- The items of the last entry. -/
def lastItems (heap : Heap Id Key Value) (depth : Nat) : Node Id Key Value -> List (Key × Value)
  | .leaf items => items.getLast?.toList
  | .branch _ rest => rest.getLast?.elim [] (fun entry => itemsBelow heap depth entry.2)

/-- The items of the first entry. -/
def firstItems (heap : Heap Id Key Value) (depth : Nat) : Node Id Key Value -> List (Key × Value)
  | .leaf items => items.head?.toList
  | .branch first _ => itemsBelow heap depth first

end Node

section Nodes

variable {heap changed : Heap Id Key Value} {depth : Nat} {node : Node Id Key Value} {id : Id}
variable {low lower : WithBot Key} {high higher : WithTop Key} {items others : List (Key × Value)}
variable {ids below cells : List Id} {separator : Key}

theorem represents_iff : Represents heap depth id low high items ids <->
    ∃ node below, heap id = some node ∧ Holds heap depth node low high items below ∧
      ids = id :: below := by
  cases depth with
  | zero =>
    constructor
    · rintro ⟨stored, ordered, idsEq⟩
      exact ⟨_, [], stored, ⟨rfl, ordered, rfl⟩, idsEq⟩
    · rintro ⟨node, _, stored, holds, idsEq⟩
      cases node with
      | branch => exact holds.elim
      | leaf =>
        rcases holds with ⟨same, ordered, isNil⟩
        exact ⟨same ▸ stored, ordered, isNil ▸ idsEq⟩
  | succ =>
    constructor
    · rintro ⟨_, _, below, stored, row, idsEq⟩
      exact ⟨_, below, stored, row, idsEq⟩
    · rintro ⟨node, below, stored, holds, idsEq⟩
      cases node with
      | leaf => exact holds.elim
      | branch first rest => exact ⟨first, rest, below, stored, holds, idsEq⟩

section

variable (holds : Holds heap depth node low high items below)

include holds

theorem Holds.leaf_or_branch :
    (∃ own, depth = 0 ∧ node = .leaf own) ∨
      ∃ rounds first rest, depth = rounds + 1 ∧ node = .branch first rest := by
  cases depth with
  | zero =>
    cases node with
    | branch => exact holds.elim
    | leaf own => exact .inl ⟨own, rfl, rfl⟩
  | succ depth =>
    cases node with
    | leaf => exact holds.elim
    | branch first rest => exact .inr ⟨depth, first, rest, rfl, rfl⟩

theorem Holds.ordered : Ordered low high items := by
  rcases holds.leaf_or_branch with ⟨_, rfl, rfl⟩ | ⟨_, _, _, rfl, rfl⟩
  · exact holds.2.1
  · exact Row.ordered holds (fun _ _ _ _ _ tree => tree.ordered)

theorem Holds.widen (isBelow : lower ≤ low) (isAbove : high ≤ higher) :
    Holds heap depth node lower higher items below := by
  rcases holds.leaf_or_branch with ⟨_, rfl, rfl⟩ | ⟨_, _, _, rfl, rfl⟩
  · exact ⟨holds.1, holds.2.1.widen isBelow isAbove, holds.2.2⟩
  · exact holds.widen isBelow isAbove (fun _ _ _ _ _ _ _ isBelow isAbove tree =>
      tree.widen isBelow isAbove)

theorem Holds.frame (agree : ∀ cell ∈ below, changed cell = heap cell) :
    Holds changed depth node low high items below := by
  rcases holds.leaf_or_branch with ⟨_, rfl, rfl⟩ | ⟨_, _, _, rfl, rfl⟩
  · exact holds
  · exact holds.map (fun _ _ _ _ _ inside tree =>
      tree.frame (fun cell member => agree cell (inside cell member)))

end

theorem row_pair {next : Id} (row : Row (Represents heap depth) low high id [(separator, next)] items ids) :
    ∃ left right leftItems rightItems leftIds rightIds, heap id = some left ∧
      heap next = some right ∧ Holds heap depth left low separator leftItems leftIds ∧
      Holds heap depth right separator high rightItems rightIds ∧
      items = leftItems ++ rightItems ∧ ids = (id :: leftIds) ++ (next :: rightIds) ∧
      Between low high separator := by
  cases row with
  | cons leftTree between row =>
    rcases represents_iff.mp leftTree with ⟨left, leftIds, leftNode, leftHolds, leftEq⟩
    rcases represents_iff.mp (row_nil.mp row) with ⟨right, rightIds, rightNode, rightHolds, rightEq⟩
    exact ⟨left, right, _, _, leftIds, rightIds, leftNode, rightNode, leftHolds, rightHolds, rfl,
      by rw [leftEq, rightEq], between⟩

variable {sub : Id -> WithBot Key -> WithTop Key -> List (Key × Value) -> List Id -> Prop}
  {rest : List (Key × Id)}

theorem Row.child_of_mem {first : Id} (row : Row sub low high first rest items ids) :
    ∀ child, child ∈ first :: rest.map Prod.snd -> ∃ low high items part,
      sub child low high items part ∧ ∀ cell ∈ part, cell ∈ ids := by
  induction row with
  | last holds =>
    intro child member
    rw [map_nil, mem_singleton] at member
    exact ⟨_, _, _, _, member ▸ holds, fun _ member => member⟩
  | cons holds _ _ ih =>
    intro child member
    rcases mem_cons.mp member with same | inRest
    · exact ⟨_, _, _, _, same ▸ holds, fun _ member => mem_append_left _ member⟩
    · rcases ih child inRest with ⟨low, high, items, part, childHolds, inside⟩
      exact ⟨low, high, items, part, childHolds,
        fun cell member => mem_append_right _ (inside cell member)⟩

/-! ## Merging -/

theorem Holds.merge {right : Node Id Key Value} (left : Holds heap depth node low separator items below)
    (holds : Holds heap depth right separator high others cells) (between : Between low high separator) :
    Holds heap depth (node.merge separator right) low high (items ++ others) (below ++ cells) := by
  rcases left.leaf_or_branch with ⟨_, rfl, rfl⟩ | ⟨_, _, _, rfl, rfl⟩
  · cases right with
    | branch => exact holds.elim
    | leaf =>
      rcases left with ⟨same, ordered, isNil⟩
      rcases holds with ⟨rightSame, rightOrdered, rightNil⟩
      exact ⟨by rw [same, rightSame], ordered.append rightOrdered between,
        by rw [isNil, rightNil]; rfl⟩
  · cases right with
    | leaf => exact holds.elim
    | branch =>
      exact row_append.mpr ⟨items, others, below, cells, rfl, rfl, between, left, holds⟩

/-! ## Collecting -/

theorem Row.flatMap_eq {first : Id} {collect : Id -> List (Key × Value)}
    (row : Row sub low high first rest items ids)
    (each : ∀ id low high items part, sub id low high items part -> collect id = items) :
    (first :: rest.map Prod.snd).flatMap collect = items := by
  induction row with
  | last holds => simp [each _ _ _ _ _ holds]
  | cons holds _ _ ih =>
    rw [flatMap_cons, each _ _ _ _ _ holds]
    exact congrArg _ ih

theorem Represents.itemsBelow_eq {rounds : Nat} (tree : Represents heap depth id low high items ids)
    (enough : depth < rounds) : itemsBelow heap rounds id = items := by
  induction depth generalizing id low high items ids rounds with
  | zero =>
    cases rounds with
    | zero => omega
    | succ => simp only [itemsBelow, tree.1]
  | succ _ ih =>
    cases rounds with
    | zero => omega
    | succ =>
      rcases tree with ⟨_, _, _, stored, row, _⟩
      simp only [itemsBelow, stored]
      exact row.flatMap_eq (fun _ _ _ _ _ child =>
        ih child (Nat.lt_of_succ_lt_succ enough))

theorem Represents.itemsBelow_frame (tree : Represents heap depth id low high items ids)
    (agree : ∀ cell ∈ ids, changed cell = heap cell) (rounds : Nat) :
    itemsBelow changed rounds id = itemsBelow heap rounds id := by
  induction rounds generalizing depth id low high items ids with
  | zero => rfl
  | succ _ ih =>
    unfold itemsBelow
    rw [agree id tree.mem]
    cases depth with
    | zero => rw [tree.1]
    | succ =>
      rcases tree with ⟨_, _, _, stored, row, idsEq⟩
      rw [stored]
      refine flatMap_congr ?_
      intro child member
      rcases row.child_of_mem child member with ⟨_, _, _, _, childTree, inside⟩
      exact ih childTree (fun cell inPart =>
        agree cell (by rw [idsEq]; exact mem_cons_of_mem _ (inside cell inPart)))

/-! ## Giving up an entry -/

section

variable (holds : Holds heap depth node low high items below)

include holds

section

variable (agree : ∀ cell ∈ below, changed cell = heap cell)

include agree

theorem Holds.lastItems_frame
    (rounds : Nat) : node.lastItems changed rounds = node.lastItems heap rounds := by
  rcases holds.leaf_or_branch with ⟨_, rfl, rfl⟩ | ⟨_, first, rest, rfl, rfl⟩
  · rfl
  · simp only [Node.lastItems]
    cases last : rest.getLast? with
    | none => rfl
    | some entry =>
      have member : entry.2 ∈ first :: rest.map Prod.snd :=
        mem_cons_of_mem _ (mem_map_of_mem (mem_of_getLast? last))
      rcases Row.child_of_mem holds entry.2 member with ⟨_, _, _, _, child, inside⟩
      exact child.itemsBelow_frame (fun cell inPart => agree cell (inside cell inPart)) rounds

theorem Holds.firstItems_frame
    (rounds : Nat) : node.firstItems changed rounds = node.firstItems heap rounds := by
  rcases holds.leaf_or_branch with ⟨_, rfl, rfl⟩ | ⟨_, first, _, rfl, rfl⟩
  · rfl
  · rcases Row.child_of_mem holds first mem_cons_self with ⟨_, _, _, _, child, inside⟩
    exact child.itemsBelow_frame (fun cell inPart => agree cell (inside cell inPart)) rounds

end

theorem Holds.giveLast (many : 2 ≤ node.keyCount) :
    ∃ separator kept lost keptIds lostIds, node.lastKey = some separator ∧
      items = kept ++ lost ∧ below = keptIds ++ lostIds ∧ Between low high separator ∧
      Holds heap depth node.withoutLast low separator kept keptIds ∧
      ∀ rounds, depth ≤ rounds -> node.lastItems heap rounds = lost := by
  rcases holds.leaf_or_branch with ⟨own, rfl, rfl⟩ | ⟨_, first, rest, rfl, rfl⟩
  · rcases holds with ⟨rfl, ordered, isNil⟩
    rcases eq_nil_or_concat' own with empty | ⟨start, last, rfl⟩
    · simp [Node.keyCount, empty] at many
    · rcases ordered.split with ⟨startOrdered, _, between⟩
      exact ⟨last.1, start, [last], [], [], by simp [Node.lastKey], rfl, isNil, between,
        ⟨by simp, startOrdered, rfl⟩, by simp [Node.lastItems]⟩
  · rcases eq_nil_or_concat' rest with empty | ⟨start, ⟨separator, child⟩, rfl⟩
    · simp [Node.keyCount, empty] at many
    · rcases row_append.mp holds with
        ⟨kept, lost, keptIds, lostIds, itemsEq, belowEq, between, keptRow, lostRow⟩
      refine ⟨separator, kept, lost, keptIds, lostIds, by simp [Node.lastKey], itemsEq, belowEq,
        between, ?_, ?_⟩
      · have same : (Node.branch first (start ++ [(separator, child)]) :
            Node Id Key Value).withoutLast = .branch first start := by simp [Node.withoutLast]
        rw [same]
        exact keptRow
      · intro rounds enough
        simp only [Node.lastItems, List.getLast?_append, List.getLast?_singleton,
          Option.some_or, Option.elim_some]
        exact (row_nil.mp lostRow).itemsBelow_eq enough

theorem Holds.giveFirst (many : 2 ≤ node.keyCount) :
    ∃ separator lost kept lostIds keptIds, node.secondKey = some separator ∧
      items = lost ++ kept ∧ below = lostIds ++ keptIds ∧ Between low high separator ∧
      Holds heap depth node.withoutFirst separator high kept keptIds ∧
      ∀ rounds, depth ≤ rounds -> node.firstItems heap rounds = lost := by
  rcases holds.leaf_or_branch with ⟨own, rfl, rfl⟩ | ⟨_, first, rest, rfl, rfl⟩
  · rcases holds with ⟨rfl, ordered, isNil⟩
    match own, many with
    | first :: second :: rest, _ =>
      rcases (show Ordered low high ([first] ++ second :: rest) from ordered).split with
        ⟨_, keptOrdered, between⟩
      exact ⟨second.1, [first], second :: rest, [], [], rfl, rfl, isNil, between,
        ⟨rfl, keptOrdered, rfl⟩, fun _ _ => rfl⟩
  · match rest, many with
    | (separator, next) :: rest, _ =>
      cases holds with
      | cons child between row =>
        exact ⟨separator, _, _, _, _, rfl, rfl, rfl, between, row,
          fun rounds enough => child.itemsBelow_eq enough⟩

end

end Nodes

/-! ## Lost items -/

/-- Some items are lost, none of them under the key, and the others are kept in
their order. -/
structure Drops (key : Key) (lost items kept : List (Key × Value)) : Prop where
  sublist : kept.Sublist items
  perm : items.Perm (kept ++ lost)
  others : ∀ item ∈ lost, item.1 ≠ key

namespace Drops

variable {key : Key} {lost more items kept last left right : List (Key × Value)}

omit [LinearOrder Key] in
theorem refl (key : Key) (items : List (Key × Value)) : Drops key [] items items :=
  ⟨List.Sublist.refl _, by simp, by simp⟩

omit [LinearOrder Key] in
theorem all (others : ∀ item ∈ lost, item.1 ≠ key) : Drops key lost lost [] :=
  ⟨nil_sublist _, by simp, others⟩

omit [LinearOrder Key] in
theorem trans (first : Drops key lost items kept) (second : Drops key more kept last) :
    Drops key (lost ++ more) items last where
  sublist := second.sublist.trans first.sublist
  perm := by
    have moved : (kept ++ lost).Perm (last ++ more ++ lost) := second.perm.append_right lost
    refine first.perm.trans (moved.trans ?_)
    rw [append_assoc]
    exact (perm_append_comm).append_left last
  others := by
    exact forall_mem_append.mpr ⟨first.others, second.others⟩

omit [LinearOrder Key] in
theorem around (drops : Drops key lost items kept) (left right : List (Key × Value)) :
    Drops key lost (left ++ (items ++ right)) (left ++ (kept ++ right)) where
  sublist := (List.Sublist.refl left).append (drops.sublist.append (List.Sublist.refl right))
  perm := by
    rw [append_assoc]
    refine List.Perm.append_left left ?_
    refine (drops.perm.append_right right).trans ?_
    rw [append_assoc, append_assoc]
    exact (perm_append_comm).append_left kept
  others := drops.others

omit [LinearOrder Key] in
theorem mem_iff (drops : Drops key lost items kept) :
    key ∈ kept.map Prod.fst <-> key ∈ items.map Prod.fst := by
  rw [(drops.perm.map Prod.fst).mem_iff, map_append, mem_append]
  refine ⟨.inl, fun member => member.resolve_right ?_⟩
  intro isLost
  rcases mem_map.mp isLost with ⟨item, member, same⟩
  exact drops.others item member same

/-- Nothing but the key is gone exactly if nothing was lost. -/
theorem without_eq_iff (drops : Drops key lost items kept) :
    without key kept = without key items <-> lost = [] := by
  have lengths : (without key items).length = (without key kept).length + lost.length := by
    have perm : (without key items).Perm (without key (kept ++ lost)) := drops.perm.filter _
    have others : without key lost = lost := without_eq_self drops.others
    have split : without key (kept ++ lost) = without key kept ++ without key lost :=
      filter_append _ _
    rw [perm.length_eq, split, others, length_append]
  constructor
  · intro same
    rw [same] at lengths
    exact eq_nil_of_length_eq_zero (by omega)
  · intro isNil
    have sameLength : kept.length = items.length := by
      rw [drops.perm.length_eq, isNil, append_nil]
    rw [drops.sublist.eq_of_length sameLength]

end Drops

end SearchTree
end Foundation
end ScaleKv
