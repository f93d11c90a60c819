import ScaleKv.BTree.Contents

namespace ScaleKv
namespace BTree

open Foundation List Option SearchTree

/-!
# What a removal borrows

A removal repairs every child on its way down that has too few keys: it borrows
an entry from a sibling, or merges the child with one.  The source forgets to
write the child that has borrowed, so what the sibling gives up is in no page
afterwards.

`borrowedBelow` follows the way of a removal over the pages as they are before
the call and collects what the siblings would give up.
-/

section Borrowing

variable {Value : Type}

/-! ## The choice of a repair -/

/-- `min_keys_non_root` of a node. -/
def minKeys : Node PageId Key Value -> Nat
  | .leaf _ => minKeysNonRoot .leaf
  | .branch _ _ => minKeysNonRoot .internal

/-- What is done about a child before the descent. -/
inductive Repair (Value : Type)
  | keep
  | borrowFromLeft (left : Node PageId Key Value)
  | borrowFromRight (right : Node PageId Key Value)
  | merge (separator : Key) (left right : Node PageId Key Value)

/-- The choice of `remove`, from the child and its siblings with the separators
towards them. -/
def Repair.choose (child : Node PageId Key Value)
    (left right : Option (Key × Node PageId Key Value)) : Repair Value :=
  if minKeys child < child.keyCount then .keep
  else
    match left.filter (fun sibling => minKeys child < sibling.2.keyCount) with
    | some sibling => .borrowFromLeft sibling.2
    | none =>
      match right with
      | some sibling =>
        if minKeys child < sibling.2.keyCount then .borrowFromRight sibling.2
        else .merge sibling.1 child sibling.2
      | none =>
        match left with
        | some sibling => .merge sibling.1 sibling.2 child
        | none => .keep

/-! ## The way of a removal -/

/-- The sibling in front of the child behind a part of a row. -/
def leftSibling (heap : Heap PageId Key Value) (first : PageId) (before : List (Key × PageId)) :
    Option (Key × Node PageId Key Value) :=
  before.getLast?.bind (fun entry =>
    (heap (childAfter first before.dropLast)).map (fun node => (entry.1, node)))

/-- The sibling behind it. -/
def rightSibling (heap : Heap PageId Key Value) (behind : List (Key × PageId)) :
    Option (Key × Node PageId Key Value) :=
  behind.head?.bind (fun entry => (heap entry.2).map (fun node => (entry.1, node)))

/-- What is borrowed for a child and below it, where `below` is what is borrowed
below the node that the descent goes on with. -/
def borrowedBy (heap : Heap PageId Key Value) (depth : Nat)
    (below : Node PageId Key Value -> List (Key × Value)) (child : Node PageId Key Value) :
    Repair Value -> List (Key × Value)
  | .keep => below child
  | .borrowFromLeft left => left.lastItems heap depth ++ below child
  | .borrowFromRight right => right.firstItems heap depth ++ below child
  | .merge separator left right => below (left.merge separator right)

/-- The pairs that the siblings on the way to a key give up. -/
def borrowedBelow (heap : Heap PageId Key Value) (key : Key) :
    Nat -> Node PageId Key Value -> List (Key × Value)
  | _, .leaf _ => []
  | 0, .branch _ _ => []
  | rounds + 1, .branch first rest =>
    let before := rest.take (childInsertPosForKey rest key)
    let behind := rest.drop (childInsertPosForKey rest key)
    (heap (childAfter first before)).elim [] (fun child =>
      borrowedBy heap rounds (borrowedBelow heap key rounds) child
        (Repair.choose child (leftSibling heap first before) (rightSibling heap behind)))

/-- The pairs that `remove` takes from siblings on its way to a key. -/
def Memory.borrowed (memory : Memory Value) (key : Key) : List (Key × Value) :=
  (memory.heap memory.root).elim [] (borrowedBelow memory.heap key memory.nextPageId)

/-- When each repair is chosen. -/
inductive Repair.Chosen (child : Node PageId Key Value)
    (left right : Option (Key × Node PageId Key Value)) : Repair Value -> Prop
  | enough : minKeys child < child.keyCount -> Chosen child left right .keep
  | alone : child.keyCount ≤ minKeys child -> left = none -> right = none ->
      Chosen child left right .keep
  | borrowFromLeft {separator sibling} :
      child.keyCount ≤ minKeys child -> left = some (separator, sibling) ->
      minKeys child < sibling.keyCount -> Chosen child left right (.borrowFromLeft sibling)
  | borrowFromRight {separator sibling} :
      child.keyCount ≤ minKeys child ->
      (∀ other ∈ left, other.2.keyCount ≤ minKeys child) ->
      right = some (separator, sibling) -> minKeys child < sibling.keyCount ->
      Chosen child left right (.borrowFromRight sibling)
  | mergeWithRight {separator sibling} :
      child.keyCount ≤ minKeys child ->
      (∀ other ∈ left, other.2.keyCount ≤ minKeys child) ->
      right = some (separator, sibling) -> sibling.keyCount ≤ minKeys child ->
      Chosen child left right (.merge separator child sibling)
  | mergeWithLeft {separator sibling} :
      child.keyCount ≤ minKeys child -> left = some (separator, sibling) ->
      sibling.keyCount ≤ minKeys child -> right = none ->
      Chosen child left right (.merge separator sibling child)

theorem Repair.choose_chosen (child : Node PageId Key Value)
    (left right : Option (Key × Node PageId Key Value)) :
    Chosen child left right (choose child left right) := by
  unfold choose
  split
  · next enough => exact .enough enough
  · next few =>
    have few : child.keyCount ≤ minKeys child := le_of_not_gt few
    split
    · next _ lender =>
      rcases filter_eq_some_iff.mp lender with ⟨isLeft, lends⟩
      exact .borrowFromLeft few isLeft (by simpa using lends)
    · next noLender =>
      have poor : ∀ other ∈ left, other.2.keyCount ≤ minKeys child := by
        intro other isLeft
        have refused := filter_eq_none_iff.mp noLender other isLeft
        simpa using refused
      split
      · next _ =>
        split
        · next lends => exact .borrowFromRight few poor rfl lends
        · next poorRight => exact .mergeWithRight few poor rfl (le_of_not_gt poorRight)
      · split
        · next sibling => exact .mergeWithLeft few rfl (poor sibling rfl) rfl
        · exact .alone few rfl rfl

/-! ## Locality -/

section Siblings

variable {heap changed : Heap PageId Key Value} {first next : PageId} {separator : Key}
variable {before behind : List (Key × PageId)} {sibling : Node PageId Key Value}

theorem leftSibling_snoc : leftSibling heap first (before ++ [(separator, next)]) =
    (heap (childAfter first before)).map (fun node => (separator, node)) := by
  simp [leftSibling]

theorem rightSibling_cons : rightSibling heap ((separator, next) :: behind) =
    (heap next).map (fun node => (separator, node)) := by
  simp [rightSibling]

theorem leftSibling_eq_some (isLeft : leftSibling heap first before = some (separator, sibling)) :
    ∃ start next, before = start ++ [(separator, next)] ∧
      heap (childAfter first start) = some sibling := by
  rcases eq_nil_or_concat' before with isNil | ⟨start, ⟨_, next⟩, isSnoc⟩
  · simp [leftSibling, isNil] at isLeft
  · rw [isSnoc, leftSibling_snoc] at isLeft
    rcases map_eq_some_iff.mp isLeft with ⟨_, stored, same⟩
    cases same
    exact ⟨start, next, isSnoc, stored⟩

theorem rightSibling_eq_some (isRight : rightSibling heap behind = some (separator, sibling)) :
    ∃ next rest, behind = (separator, next) :: rest ∧ heap next = some sibling := by
  cases behind with
  | nil => simp [rightSibling] at isRight
  | cons head rest =>
    rw [rightSibling_cons] at isRight
    rcases map_eq_some_iff.mp isRight with ⟨_, stored, same⟩
    cases same
    exact ⟨head.2, rest, rfl, stored⟩

theorem childAfter_mem (first : PageId) (before behind : List (Key × PageId)) :
    childAfter first before ∈ first :: (before ++ behind).map Prod.snd := by
  rcases eq_nil_or_concat before with isNil | ⟨_, _, isSnoc⟩
  · simp [childAfter, isNil]
  · simp [childAfter, isSnoc]

theorem borrowedBelow_branch {key : Key} {child : Node PageId Key Value} (rounds : Nat)
    (position : childInsertPosForKey (before ++ behind) key = before.length)
    (stored : heap (childAfter first before) = some child) :
    borrowedBelow heap key (rounds + 1) (.branch first (before ++ behind)) =
      borrowedBy heap rounds (borrowedBelow heap key rounds) child
        (Repair.choose child (leftSibling heap first before) (rightSibling heap behind)) := by
  simp only [borrowedBelow, position, take_left, drop_left, stored, elim_some]

theorem borrowedBelow_leaf (key : Key) (rounds : Nat) (items : List (Key × Value)) :
    borrowedBelow heap key rounds (.leaf items) = [] := by
  cases rounds <;> rfl

variable {depth : Nat} {low : WithBot Key} {high : WithTop Key} {items : List (Key × Value)}
variable {ids : List PageId}

theorem Row.node_of_mem {rest : List (Key × PageId)}
    (row : Row (Represents heap depth) low high first rest items ids)
    (agree : ∀ cell ∈ ids, changed cell = heap cell) {child : PageId}
    (member : child ∈ first :: rest.map Prod.snd) :
    changed child = heap child ∧ ∃ node low high items part, heap child = some node ∧
      Holds heap depth node low high items part ∧
      ∀ cell ∈ part, changed cell = heap cell := by
  rcases row.child_of_mem child member with ⟨low, high, items, _, tree, inside⟩
  rcases represents_iff.mp tree with ⟨node, cells, stored, holds, partEq⟩
  refine ⟨agree child (inside child tree.mem), node, low, high, items, cells, stored, holds, ?_⟩
  intro cell inCells
  exact agree cell (inside cell (by rw [partEq]; exact mem_cons_of_mem _ inCells))

theorem Row.merge_neighbours {left right : Node PageId Key Value}
    (row : Row (Represents heap depth) low high first (before ++ ((separator, next) :: behind)) items
      ids)
    (leftAt : heap (childAfter first before) = some left) (rightAt : heap next = some right) :
    ∃ low high items part, Holds heap depth (left.merge separator right) low high items part ∧
      ∀ cell ∈ part, cell ∈ ids := by
  rcases @Row.cut _ _ _ _ [(separator, next)] _ _ _ _ before behind _ _ row with
    ⟨_, _, _, _, _, _, _, idsEq, run, _⟩
  rcases row_pair run with
    ⟨_, _, _, _, _, _, leftStored, rightStored, leftHolds, rightHolds, _, ownEq, between⟩
  cases leftAt.symm.trans leftStored
  cases rightAt.symm.trans rightStored
  refine ⟨_, _, _, _, leftHolds.merge rightHolds between, ?_⟩
  intro cell member
  simp only [idsEq, ownEq, mem_append, mem_cons] at member ⊢
  tauto

section Frames

variable (row : Row (Represents heap depth) low high first (before ++ behind) items ids)
    (agree : ∀ cell ∈ ids, changed cell = heap cell)

include row agree

theorem leftSibling_frame :
    leftSibling changed first before = leftSibling heap first before := by
  rcases eq_nil_or_concat' before with isNil | ⟨start, last, rfl⟩
  · simp [leftSibling, isNil]
  · have member := childAfter_mem first start ([last] ++ behind)
    rw [← append_assoc] at member
    rw [leftSibling_snoc, leftSibling_snoc, (Row.node_of_mem row agree member).1]

theorem rightSibling_frame :
    rightSibling changed behind = rightSibling heap behind := by
  cases behind with
  | nil => rfl
  | cons head tail =>
    have member : head.2 ∈ first :: (before ++ head :: tail).map Prod.snd := by simp
    rw [rightSibling_cons, rightSibling_cons, (Row.node_of_mem row agree member).1]

end Frames

theorem borrowedBelow_frame {node : Node PageId Key Value}
    (holds : Holds heap depth node low high items ids)
    (agree : ∀ cell ∈ ids, changed cell = heap cell) (key : Key) (rounds : Nat) :
    borrowedBelow changed key rounds node = borrowedBelow heap key rounds node := by
  induction depth generalizing node low high items ids rounds with
  | zero =>
    cases node with
    | branch => exact holds.elim
    | leaf => rw [borrowedBelow_leaf, borrowedBelow_leaf]
  | succ depth ih =>
    cases node with
    | leaf => exact holds.elim
    | branch first rest =>
      cases rounds with
      | zero => rfl
      | succ rounds =>
        have row : Row (Represents heap depth) low high first rest items ids := holds
        rcases childInsertPosForKey_spec key row.ascending with
          ⟨before, behind, rfl, position, _⟩
        rcases Row.node_of_mem row agree (childAfter_mem first before behind) with
          ⟨sameChild, child, _, _, _, _, stored, childHolds, inPart⟩
        have sameBelow := ih childHolds inPart rounds
        rw [borrowedBelow_branch rounds position stored,
          borrowedBelow_branch rounds position (sameChild.trans stored),
          leftSibling_frame row agree, rightSibling_frame row agree]
        have chosen := Repair.choose_chosen child (leftSibling heap first before)
          (rightSibling heap behind)
        generalize Repair.choose child (leftSibling heap first before)
          (rightSibling heap behind) = repair at chosen
        cases chosen with
        | enough => exact sameBelow
        | alone => exact sameBelow
        | borrowFromLeft _ isLeft =>
          rcases leftSibling_eq_some isLeft with ⟨start, _, isSnoc, leftAt⟩
          have member : childAfter first start ∈ first :: (before ++ behind).map Prod.snd := by
            rw [isSnoc, append_assoc]
            exact childAfter_mem first start _
          rcases Row.node_of_mem row agree member with
            ⟨_, _, _, _, _, _, leftStored, leftHolds, inLeft⟩
          cases leftAt.symm.trans leftStored
          exact congrArg₂ _ (leftHolds.lastItems_frame inLeft rounds) sameBelow
        | borrowFromRight _ _ isRight =>
          rcases rightSibling_eq_some isRight with ⟨next, _, isCons, rightAt⟩
          have member : next ∈ first :: (before ++ behind).map Prod.snd := by simp [isCons]
          rcases Row.node_of_mem row agree member with
            ⟨_, _, _, _, _, _, rightStored, rightHolds, inRight⟩
          cases rightAt.symm.trans rightStored
          exact congrArg₂ _ (rightHolds.firstItems_frame inRight rounds) sameBelow
        | mergeWithRight _ _ isRight =>
          rcases rightSibling_eq_some isRight with ⟨_, _, rfl, rightAt⟩
          rcases Row.merge_neighbours row stored rightAt with
            ⟨_, _, _, _, mergedHolds, inside⟩
          exact ih mergedHolds (fun cell member => agree cell (inside cell member)) rounds
        | mergeWithLeft _ isLeft =>
          rcases leftSibling_eq_some isLeft with ⟨_, _, rfl, leftAt⟩
          rw [childAfter_snoc] at stored
          rw [append_assoc] at row
          rcases Row.merge_neighbours row leftAt stored with
            ⟨_, _, _, _, mergedHolds, inside⟩
          exact ih mergedHolds (fun cell member => agree cell (inside cell member)) rounds

end Siblings

end Borrowing

end BTree
end ScaleKv
