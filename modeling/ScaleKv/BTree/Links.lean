import ScaleKv.BTree.Contents

namespace ScaleKv
namespace BTree

open Foundation List SearchTree

/-!
# Links between the leaves and high keys

Besides its contents a tree has links: every leaf names the leaf behind it and
a high key that bounds its keys.  Searches that meet a split rely on them.

`Linked` follows the shape of the tree.  The leaf behind a subtree is the first
leaf of the subtree to the right of it, so the links below a page depend on
nothing but that page, the pages below it and the leaf behind them all.  What
exactly is asked of the high keys differs between the results and is a
parameter.
-/

/-! ## Rows of children -/

section Rows

variable {sub other : PageId -> WithTop Key -> Option PageId -> Prop}
variable {start begin : PageId -> PageId} {first child : PageId} {separator : Key}
variable {before middle behind rest : List (Key × PageId)} {high : WithTop Key}
variable {next : Option PageId}

/-- The children of an internal page from left to right: each one is bounded by
the separator behind it and followed by the first leaf of the next one. -/
def LinkedRow (sub : PageId -> WithTop Key -> Option PageId -> Prop) (start : PageId -> PageId) :
    PageId -> List (Key × PageId) -> WithTop Key -> Option PageId -> Prop
  | first, [], high, next => sub first high next
  | first, (separator, child) :: rest, high, next =>
    sub first separator (some (start child)) ∧ LinkedRow sub start child rest high next

/-- The leaf in front of a part of a row. -/
def nextBefore (start : PageId -> PageId) (next : Option PageId) (behind : List (Key × PageId)) :
    Option PageId :=
  behind.head?.elim next (fun entry => some (start entry.2))

@[simp] theorem nextBefore_nil : nextBefore start next [] = next :=
  rfl

@[simp] theorem nextBefore_cons :
    nextBefore start next ((separator, child) :: behind) = some (start child) :=
  rfl

theorem linkedRow_append :
    LinkedRow sub start first (before ++ (separator, child) :: behind) high next <->
      LinkedRow sub start first before separator (some (start child)) ∧
      LinkedRow sub start child behind high next := by
  induction before generalizing first with
  | nil => exact Iff.rfl
  | cons _ tail ih =>
    rw [cons_append, LinkedRow, LinkedRow, ih, and_assoc]

theorem linkedRow_cut :
    LinkedRow sub start first (before ++ (middle ++ behind)) high next <->
      (∀ (front : List (Key × PageId)) (separator : Key) (child : PageId),
        before = front ++ [(separator, child)] ->
        LinkedRow sub start first front separator (some (start child))) ∧
      LinkedRow sub start (childAfter first before) middle (highBefore high behind)
        (nextBefore start next behind) ∧
      (∀ separator child back, behind = (separator, child) :: back ->
        LinkedRow sub start child back high next) := by
  have behindCut : ∀ first, LinkedRow sub start first (middle ++ behind) high next <->
      LinkedRow sub start first middle (highBefore high behind) (nextBefore start next behind) ∧
      (∀ separator child back, behind = (separator, child) :: back ->
        LinkedRow sub start child back high next) := by
    intro first
    cases behind with
    | nil => simp [highBefore]
    | cons =>
      rw [linkedRow_append, highBefore_cons, nextBefore_cons]
      refine and_congr_right (fun _ => ⟨?_, fun linked => linked _ _ _ rfl⟩)
      rintro linked _ _ _ ⟨⟩
      exact linked
  rcases eq_nil_or_concat' before with isNil | ⟨_, ⟨_, _⟩, rfl⟩
  · subst isNil
    rw [nil_append, behindCut]
    simp [childAfter]
  · rw [append_assoc, singleton_append, linkedRow_append, behindCut, childAfter_snoc]
    refine and_congr_left (fun _ => ⟨?_, fun linked => linked _ _ _ rfl⟩)
    intro linked _ _ _ same
    rcases append_inj' same rfl with ⟨rfl, sameLast⟩
    cases sameLast
    exact linked

end Rows

/-! ## Trees -/

/-- What is asked of the pages: whether the separators ascend strictly, and what
the high key of a leaf has to do with its upper separator and its items. -/
structure LinkRules (Value : Type) where
  strict : Prop
  fence : WithTop Key -> List (Key × Value) -> Option Key -> Prop

namespace LinkRules

variable {Value : Type}

def Separators (rules : LinkRules Value) (high : WithTop Key) (entries : List (Key × PageId)) : Prop :=
  rules.strict -> entries.Pairwise (fun left right => left.1 < right.1) ∧
    ∀ entry ∈ entries, (entry.1 : WithTop Key) < high

/-- An insertion keeps the fences: it stores a key below the upper separator, or
cuts a leaf in front of one of its keys. -/
structure Kept (rules : LinkRules Value) : Prop where
  upsert : ∀ {high : WithTop Key} {items : List (Key × Value)} {highKey : Option Key} {key : Key}
    {value : Value}, rules.fence high items highKey -> (key : WithTop Key) < high ->
    rules.fence high (SearchTree.upsert key value items) highKey
  left : ∀ {before : List (Key × Value)} {separator : Key},
    (∀ item ∈ before, item.1 < separator) ->
    rules.fence separator before (some separator)
  right : ∀ {high : WithTop Key} {before behind : List (Key × Value)} {highKey : Option Key},
    rules.fence high (before ++ behind) highKey -> rules.fence high behind highKey

end LinkRules

namespace Memory

variable {Value : Type}

/-- The leftmost leaf below a page. -/
def firstLeaf (memory : Memory Value) : Nat -> PageId -> PageId
  | 0, id => id
  | depth + 1, id =>
    memory.pages[id]?.elim id (fun page => firstLeaf memory depth page.header.leftChild)

/-- The links below a page, up to the leaf behind it. -/
def Linked (memory : Memory Value) (rules : LinkRules Value) :
    Nat -> PageId -> WithTop Key -> Option PageId -> Prop
  | 0, id, high, next =>
    ∃ header items, memory.pages[id]? = some (.leaf header items) ∧
      rules.fence high items header.highKey ∧ header.nextLeaf = next
  | depth + 1, id, high, next =>
    ∃ header entries, memory.pages[id]? = some (.internal header entries) ∧
      rules.Separators high entries ∧
      LinkedRow (Linked memory rules depth) (memory.firstLeaf depth) header.leftChild entries high
        next

section Links

variable {memory after : Memory Value} {rules : LinkRules Value} {depth : Nat} {id : PageId}
variable {low : WithBot Key} {high bound : WithTop Key} {items : List (Key × Value)}
variable {ids : List PageId} {next : Option PageId}

variable {header : PageHeader} {entries : List (Key × PageId)}

theorem firstLeaf_internal (stored : memory.pages[id]? = some (.internal header entries)) :
    memory.firstLeaf (depth + 1) id = memory.firstLeaf depth header.leftChild := by
  rw [firstLeaf, stored]
  rfl

theorem firstLeaf_frame (tree : Represents memory.heap depth id low high items ids)
    (agree : ∀ cell : PageId, cell ∈ ids -> after.pages[cell]? = memory.pages[cell]?) :
    after.firstLeaf depth id = memory.firstLeaf depth id := by
  induction depth generalizing id low high items ids with
  | zero => rfl
  | succ _ ih =>
    rcases tree with ⟨_, _, _, node, row, idsEq⟩
    rcases internalPage node with ⟨header, stored, rfl⟩
    have sameStored := (agree id (by simp [idsEq])).trans stored
    rcases row.child_of_mem header.leftChild mem_cons_self with ⟨_, _, _, _, child, inside⟩
    rw [firstLeaf_internal sameStored, firstLeaf_internal stored]
    exact ih child (fun cell member =>
      agree cell (by simp [idsEq, inside cell member]))

theorem linkedRow_map {sub other : PageId -> WithTop Key -> Option PageId -> Prop} {first : PageId}
    {rest : List (Key × PageId)} {below : List PageId}
    (row : Row (Represents memory.heap depth) low high first rest items below)
    (agree : ∀ cell : PageId, cell ∈ below -> after.pages[cell]? = memory.pages[cell]?)
    (each : ∀ {child low high items part bound next},
      Represents memory.heap depth child low high items part ->
      (∀ cell : PageId, cell ∈ part -> after.pages[cell]? = memory.pages[cell]?) ->
      sub child bound next -> other child bound next)
    (linked : LinkedRow sub (memory.firstLeaf depth) first rest bound next) :
    LinkedRow other (after.firstLeaf depth) first rest bound next := by
  induction row with
  | last holds => exact each holds agree linked
  | @cons _ _ _ child _ _ _ _ part others holds _ row inner =>
    have agreeRest := fun cell member => agree cell (mem_append_right part member)
    rcases row.child_of_mem child mem_cons_self with ⟨_, _, _, _, childTree, inside⟩
    have sameStart : after.firstLeaf depth child = memory.firstLeaf depth child :=
      firstLeaf_frame childTree (fun cell member => agreeRest cell (inside cell member))
    refine ⟨?_, inner agreeRest linked.2⟩
    rw [sameStart]
    exact each holds (fun cell member => agree cell (mem_append_left others member)) linked.1

theorem Linked.frame (linked : memory.Linked rules depth id bound next)
    (tree : Represents memory.heap depth id low high items ids)
    (agree : ∀ cell : PageId, cell ∈ ids -> after.pages[cell]? = memory.pages[cell]?) :
    after.Linked rules depth id bound next := by
  induction depth generalizing id low high items ids bound next with
  | zero =>
    rcases linked with ⟨header, own, stored, fence, isNext⟩
    exact ⟨header, own, (agree id tree.mem).trans stored, fence, isNext⟩
  | succ _ ih =>
    rcases tree with ⟨_, rest, _, node, row, idsEq⟩
    rcases linked with ⟨header, _, stored, separators, linked⟩
    cases node.symm.trans (heap_of_page stored)
    refine ⟨header, rest, (agree id (by simp [idsEq])).trans stored, separators, ?_⟩
    refine linkedRow_map row (fun cell member => agree cell (by simp [idsEq, member])) ?_ linked
    intro _ low high items _ bound next tree agree linked
    exact ih linked tree agree

theorem Linked.row (linked : memory.Linked rules (depth + 1) id bound next)
    (stored : memory.pages[id]? = some (.internal header entries)) :
    rules.Separators bound entries ∧
      LinkedRow (memory.Linked rules depth) (memory.firstLeaf depth) header.leftChild entries bound
        next := by
  rcases linked with ⟨_, _, otherStored, separators, row⟩
  cases otherStored.symm.trans stored
  exact ⟨separators, row⟩

section Patches

variable {header : PageHeader} {before own middle behind : List (Key × PageId)}
variable {left right : List (Key × Value)} {leftIds ownIds rightIds : List PageId}

section Patch

variable
    (cut : Cut memory depth id low high header.leftChild before behind left right leftIds ownIds
      rightIds)
    (stored : memory.pages[id]? = some (.internal header (before ++ (own ++ behind))))
    (agree : ∀ cell : PageId, cell ∈ leftIds ∨ cell ∈ rightIds ->
      after.pages[cell]? = memory.pages[cell]?)
    (written : after.pages[id]? = some (.internal header (before ++ (middle ++ behind))))
    (sameStart : after.firstLeaf depth (childAfter header.leftChild before) =
      memory.firstLeaf depth (childAfter header.leftChild before))

include cut stored agree written sameStart

/-- A run of children has been exchanged for another one with the same first
leaf. -/
theorem Cut.firstLeaf_eq :
    after.firstLeaf (depth + 1) id = memory.firstLeaf (depth + 1) id := by
  rw [firstLeaf_internal written, firstLeaf_internal stored]
  cases cut.hole.front with
  | nil => exact sameStart
  | snoc _ row =>
    rcases row.child_of_mem header.leftChild mem_cons_self with ⟨_, _, _, _, child, inside⟩
    exact firstLeaf_frame child (fun cell member => agree cell (.inl (inside cell member)))

/-- The page above the new run is linked if the run is, up to the leaf that the
old run was followed by. -/
theorem Linked.patch (linked : memory.Linked rules (depth + 1) id bound next)
    (separators : rules.Separators bound (before ++ (middle ++ behind)))
    (run : LinkedRow (after.Linked rules depth) (after.firstLeaf depth)
      (childAfter header.leftChild before) middle (highBefore bound behind)
      (nextBefore (memory.firstLeaf depth) next behind)) :
    after.Linked rules (depth + 1) id bound next := by
  have agreeLeft := fun cell member => agree cell (.inl member)
  have agreeRight := fun cell member => agree cell (.inr member)
  rcases linkedRow_cut.mp (linked.row stored).2 with ⟨front, _, back⟩
  have sameNext : nextBefore (after.firstLeaf depth) next behind =
      nextBefore (memory.firstLeaf depth) next behind := by
    cases cut.hole.back with
    | nil => rfl
    | @cons _ child _ _ _ _ row =>
      rcases row.child_of_mem child mem_cons_self with ⟨_, _, _, _, childTree, inside⟩
      rw [nextBefore_cons, nextBefore_cons, firstLeaf_frame childTree (fun cell member =>
        agreeRight cell (inside cell member))]
  refine ⟨header, _, written, separators, linkedRow_cut.mpr ⟨?_, ?_, ?_⟩⟩
  · intro _ _ child isSnoc
    have row := cut.hole.front.row isSnoc
    rw [isSnoc, childAfter_snoc] at sameStart
    rw [sameStart]
    exact linkedRow_map row agreeLeft (fun tree agree linked => linked.frame tree agree)
      (front _ _ _ isSnoc)
  · rw [sameNext]
    exact run
  · intro _ child _ isCons
    subst isCons
    cases cut.hole.back with
    | cons _ row =>
      exact linkedRow_map row agreeRight (fun tree agree linked => linked.frame tree agree)
        (back _ _ _ rfl)

end Patch

/-- What a call below a page does to the links: they are kept, and so is the
leaf that the leaf in front of them names. -/
def KeepsLinks (memory after : Memory Value) (depth : Nat) (id : PageId) (high : WithTop Key) : Prop :=
  after.firstLeaf depth id = memory.firstLeaf depth id ∧
    ∀ {rules : LinkRules Value} {next : Option PageId}, rules.Kept ->
      memory.Linked rules depth id high next -> after.Linked rules depth id high next

theorem KeepsLinks.trans {current : Memory Value} (first : KeepsLinks memory current depth id high)
    (second : KeepsLinks current after depth id high) : KeepsLinks memory after depth id high :=
  ⟨second.1.trans first.1, fun kept linked => second.2 kept (first.2 kept linked)⟩

/-- A call that keeps the links below a child keeps those below its page. -/
theorem KeepsLinks.lift {newIds : List PageId}
    (keeps : KeepsLinks memory after depth (childAfter header.leftChild before)
      (highBefore high behind))
    (stored : memory.pages[id]? = some (.internal header (before ++ behind)))
    (cut : Cut memory depth id low high header.leftChild before behind left right leftIds ownIds
      rightIds)
    (confined : Confined memory after ownIds newIds) : KeepsLinks memory after (depth + 1) id high := by
  have nodup := cut.nodup
  have allocated := cut.allocated
  simp only [nodup_cons, nodup_append, mem_append] at nodup
  simp only [mem_cons, mem_append] at allocated
  have storedCut : memory.pages[id]? = some (.internal header (before ++ ([] ++ behind))) := stored
  have written : after.pages[id]? = some (.internal header (before ++ ([] ++ behind))) :=
    (confined.outside id (by tauto) (allocated id (by simp))).trans storedCut
  have agree : ∀ cell : PageId, cell ∈ leftIds ∨ cell ∈ rightIds ->
      after.pages[cell]? = memory.pages[cell]? := by
    intro cell _
    exact confined.outside cell (by grind) (allocated cell (by tauto))
  refine ⟨cut.firstLeaf_eq storedCut agree written keeps.1, ?_⟩
  intro _ _ kept linked
  rcases linked.row storedCut with ⟨separators, row⟩
  rcases linkedRow_cut.mp row with ⟨_, childLinked, _⟩
  exact linked.patch cut storedCut agree written keeps.1 separators (keeps.2 kept childLinked)

end Patches

end Links

end Memory

end BTree
end ScaleKv
