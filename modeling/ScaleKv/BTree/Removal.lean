import ScaleKv.BTree.Repairs

namespace ScaleKv
namespace BTree

open Foundation Program List Option SearchTree Memory

/-!
# Removal

The way of a removal from the root to the leaf, and what is done behind it.  The
key is taken out of its leaf and, if it was the first one there, the separator
in front of the leaf is raised.  The repairs behind that write headers only, and
the root gives way to its only child.
-/

section Removal

variable {Value : Type} {memory : Memory Value} {ending : RemoveEnd}

/-! ## Taking the key out of its leaf -/

section Leaves

variable {id : PageId} {low : WithBot Key} {high : WithTop Key} {items : List (Key × Value)}
variable {ids : List PageId} {key : Key} {value : Value} {header leafHeader : PageHeader}
variable {front back : List (Key × Value)}

variable {before behind start : List (Key × PageId)} {after : Memory Value} {separator : Key}
  {leafId : PageId}

/-- The first key of the leaf is taken, and the separator is raised to the next
one. -/
theorem leaf_taken_first {newFirst : Key × Value} (tree : memory.Subtree 1 id low high items ids)
    (stored : memory.pages[id]? = some (.internal header (start ++ (separator, leafId) :: behind)))
    (leafStored : memory.pages[leafId]? = some (.leaf leafHeader ((key, value) :: newFirst :: back)))
    (sameNext : after.nextPageId = memory.nextPageId) (sameRoot : after.root = memory.root)
    (parentAfterwards : after.heap id =
      some (.branch header.leftChild (start ++ (newFirst.1, leafId) :: behind)))
    (leafAfterwards : after.heap leafId = some (.leaf (newFirst :: back)))
    (leftAfterwards : after.heap (childAfter header.leftChild start) =
      memory.heap (childAfter header.leftChild start))
    (outside : ∀ cell : PageId, cell ≠ id -> cell ≠ childAfter header.leftChild start ->
      cell ≠ leafId -> after.pages[cell]? = memory.pages[cell]?) :
    ∃ newIds, after.Subtree 1 id low high (without key items) newIds ∧
      memory.Confined after ids newIds := by
  have ascending := tree.represents.ordered.ascending
  rcases tree.neighbours (heap_of_page stored) with
    ⟨left, leftOwn, _, right, _, _, _, _, _, _,
      itemsEq, idsEq, leftAt, leafAt, leftHolds, leafHolds, between, cut⟩
  cases leafAt.symm.trans (heap_of_page leafStored)
  rcases leafHolds with ⟨rfl, ordered, isNil⟩
  rcases (show Ordered separator (highBefore high behind) ([(key, value)] ++ newFirst :: back) from
    ordered).split with ⟨_, backOrdered, newBetween⟩
  have taken : without key items = left ++ ((leftOwn ++ newFirst :: back) ++ right) := by
    have whole : items = (left ++ leftOwn) ++ (key, value) :: (newFirst :: back ++ right) := by
      simp [itemsEq]
    rw [whole] at ascending ⊢
    rw [without_of_ascending ascending]
    simp
  rw [taken, idsEq]
  refine cut.pair sameNext sameRoot parentAfterwards (leftAfterwards.trans leftAt) leafAfterwards
    outside
    (leftHolds.widen le_rfl (WithTop.coe_le_coe.mpr (WithBot.coe_le_coe.mp newBetween.1)))
    (List.Sublist.refl _) ⟨rfl, backOrdered, rfl⟩ (by simp [isNil])
    (newBetween.widen between.1 le_rfl)

/-- The pages after a key was taken out of a leaf child. -/
inductive Taken (memory : Memory Value) (id : PageId) (header : PageHeader)
    (before behind : List (Key × PageId)) (leafHeader : PageHeader) (front back : List (Key × Value)) :
    Memory Value -> Prop
  | kept : Taken memory id header before behind leafHeader front back
      (memory.write (childAfter header.leftChild before) (.leaf leafHeader (front ++ back)))
  | raised {start : List (Key × PageId)} {separator : Key} {leafId : PageId} {left : Page Value}
      {newFirst : Key × Value} {rest : List (Key × Value)} :
      before = start ++ [(separator, leafId)] -> front = [] -> back = newFirst :: rest ->
      memory.pages[childAfter header.leftChild start]? = some left ->
      Taken memory id header before behind leafHeader front back
        (((memory.write leafId (.leaf leafHeader (newFirst :: rest))).write id
          (.internal header (start ++ (newFirst.1, leafId) :: behind))).write
          (childAfter header.leftChild start)
          (left.withHeader { left.header with highKey := some newFirst.1 }))

section Child

variable (tree : memory.Subtree 1 id low high items ids)
    (stored : memory.pages[id]? = some (.internal header (before ++ behind)))
    (upTo : ∀ entry ∈ before, entry.1 ≤ key)
    (above : ∀ entry ∈ behind, key < entry.1) (inside : Inside low high key)
    (leafStored : memory.pages[childAfter header.leftChild before]? =
      some (.leaf leafHeader (front ++ (key, value) :: back)))

include tree stored upTo above inside leafStored

theorem leaf_taken
    (sameNext : after.nextPageId = memory.nextPageId) (sameRoot : after.root = memory.root)
    (leafAfterwards : after.heap (childAfter header.leftChild before) = some (.leaf (front ++ back)))
    (outside : ∀ cell : PageId, cell ≠ childAfter header.leftChild before ->
      after.pages[cell]? = memory.pages[cell]?) :
    ∃ newIds, after.Subtree 1 id low high (without key items) newIds ∧
      memory.Confined after ids newIds := by
  rcases tree.focus (heap_of_page stored) upTo above inside with
    ⟨_, _, _, _, _, ownIds, itemsEq, ⟨⟨leafNode, ordered, ownIdsEq⟩, nodup, allocated⟩,
      _, lower, upper, wayBack⟩
  cases leafNode.symm.trans (heap_of_page leafStored)
  have smaller : (front ++ back).Sublist (front ++ (key, value) :: back) :=
    (List.Sublist.refl front).append (sublist_cons_self _ _)
  rw [itemsEq, without_append lower upper, without_of_ascending ordered.ascending]
  refine wayBack after (front ++ back) ownIds
    ⟨⟨leafAfterwards, ordered.sublist smaller, ownIdsEq⟩, nodup, by rw [sameNext]; exact allocated⟩
    ⟨?_, sameNext.ge, fun cell member => .inl member, sameRoot⟩
  intro cell notOwn _
  refine outside cell ?_
  rintro rfl
  exact notOwn (by simp [ownIdsEq])

theorem Taken.subtree (taken : Taken memory id header before behind leafHeader front back after) (fits : memory.Fits) :
    after.Fits ∧ after.nextPageId = memory.nextPageId ∧ after.root = memory.root ∧
      ∃ newIds, after.Subtree 1 id low high (without key items) newIds ∧
        memory.Confined after ids newIds := by
  have leafSmall := fits.leaf leafStored
  have parentSmall := fits.internal stored
  simp only [length_append, length_cons] at leafSmall parentSmall
  cases taken with
  | kept =>
    refine ⟨fits.writeLeaf _ ?_, rfl, rfl, leaf_taken tree stored upTo above inside leafStored rfl rfl
      ?_ (fun _ => pages_write_of_ne)⟩
    · rw [length_append]
      omega
    · exact (heap_write ..).trans (if_pos rfl)
  | @raised _ _ _ _ _ _ isSnoc isNil isCons leftStored =>
    subst isSnoc
    subst isNil
    subst isCons
    rw [append_assoc] at stored
    rw [childAfter_snoc] at leafStored
    rcases tree.neighbours (heap_of_page stored) with
      ⟨_, _, _, _, _, _, _, _, _, _, _, _, _, _, _, _, _, cut⟩
    rcases cut.distinct with ⟨leftNe, leafNe, siblingsNe, _⟩
    refine ⟨((fits.writeLeaf _ ?_).writeInternal _ ?_).write _ ?_, rfl, rfl,
      leaf_taken_first tree stored leafStored rfl rfl ?_ ?_ ?_ ?_⟩
    · simp only [length_cons] at leafSmall ⊢
      omega
    · simp only [length_append, length_cons, length_nil] at parentSmall ⊢
      omega
    · rw [Page.keyCount_withHeader, Page.pageType_withHeader]
      exact fits _ _ leftStored
    · rw [heap_write, if_neg leftNe.symm, heap_write, if_pos rfl]
      rfl
    · rw [heap_write, if_neg siblingsNe, heap_write, if_neg leafNe, heap_write, if_pos rfl]
      rfl
    · rw [heap_write, if_pos rfl, Page.node_withHeader_highKey, heap_of_page leftStored]
    · intro _ notId notLeft notLeaf
      rw [pages_write_of_ne notLeft, pages_write_of_ne notId, pages_write_of_ne notLeaf]

end Child

theorem raiseSeparator_run {newFirst : Key} {left : Page Value}
    (small : (start ++ (separator, leafId) :: behind).length ≤ 628)
    (leftStored : memory.pages[childAfter header.leftChild start]? = some left)
    (different : id ≠ childAfter header.leftChild start) :
    (raiseSeparator id header (start ++ (separator, leafId) :: behind) start.length newFirst).run
        handle memory =
      (.ok (), (memory.write id (.internal header (start ++ (newFirst, leafId) :: behind))).write
        (childAfter header.leftChild start)
        (left.withHeader { left.header with highKey := some newFirst })) := by
  have smallAfter : (start ++ (newFirst, leafId) :: behind).length ≤ 628 := by simpa using small
  unfold raiseSeparator
  rw [setSeparator, modify_append_length, encodeInternal_ok _ smallAfter, run_computes_ok_bind,
    run_writePage_bind, childIdAtPos_append]
  rw [run_readPage_bind, pages_write, if_neg different, leftStored]
  rfl

section Programs

variable {before behind : List (Key × PageId)}

/-- The separator in front of a leaf child is raised, in the state in which the
leaf is already written. -/
theorem raiseSeparator_taken {newFirst : Key} (fits : memory.Fits)
    (tree : memory.Subtree 1 id low high items ids)
    (stored : memory.pages[id]? = some (.internal header (before ++ behind)))
    (notFirst : before ≠ []) (isKey : (Page.leaf leafHeader back).firstKey = some newFirst) :
    ∃ after, Taken memory id header before behind leafHeader [] back after ∧
      ∀ len, (raiseSeparator id header (before ++ behind) (before.length - 1) newFirst).run handle
          { memory.write (childAfter header.leftChild before) (.leaf leafHeader back) with len := len } =
        (.ok (), { after with len := len }) := by
  have small := fits.internal stored
  rcases eq_nil_or_concat' before with isNil | ⟨start, ⟨separator, leafId⟩, rfl⟩
  · exact absurd isNil notFirst
  cases back with
  | nil => cases isKey
  | cons first rest =>
    cases isKey
    have positionEq : (start ++ [(separator, leafId)]).length - 1 = start.length := by simp
    rw [append_assoc] at stored small ⊢
    rcases tree.neighbours (heap_of_page stored) with
      ⟨_, _, _, _, _, _, _, _, _, _, _, _, leftAt, _, _, _, _, cut⟩
    rcases cut.distinct with ⟨leftNe, _, siblingsNe, _⟩
    rcases map_eq_some_iff.mp leftAt with ⟨left, leftStored, _⟩
    refine ⟨_, .raised rfl rfl rfl leftStored, fun len => ?_⟩
    have leftAfterwards : ({ memory.write leafId (.leaf leafHeader (first :: rest)) with len := len } :
        Memory Value).pages[childAfter header.leftChild start]? = some left := by
      rw [← leftStored]
      exact pages_write_of_ne siblingsNe
    rw [positionEq, childAfter_snoc]
    exact raiseSeparator_run small leftAfterwards leftNe

/-- The hint of the descent is right, so no other child is looked at. -/
theorem repairParentSeparator_run {newFirst : Key}
    (stored : memory.pages[id]? = some (.internal header (before ++ behind))) :
    (repairParentSeparator id before.length (childAfter header.leftChild before) newFirst).run
        handle memory =
      if before = [] then (.ok (), memory)
      else (raiseSeparator id header (before ++ behind) (before.length - 1) newFirst).run
        handle memory := by
  unfold repairParentSeparator
  rw [run_readPage_bind, stored]
  dsimp only
  rcases eq_nil_or_concat' before with isFirst | ⟨start, entry, rfl⟩
  · subst isFirst
    have isChild : childIdAtPos header ([] ++ behind) 0 =
        childAfter header.leftChild ([] : List (Key × PageId)) := rfl
    rw [if_pos (rfl : ([] : List (Key × PageId)) = []), length_nil]
    by_cases empty : ([] ++ behind).isEmpty = true
    · rw [if_pos empty]
      rfl
    · rw [if_neg empty, if_pos ⟨Nat.zero_le _, isChild⟩]
      rfl
  · have inRange : (start ++ [entry]).length ≤ (start ++ [entry] ++ behind).length := by simp
    have lengthEq : (start ++ [entry]).length = start.length + 1 := by simp
    have notEmpty : ¬ (start ++ [entry] ++ behind).isEmpty = true := by simp
    have notNil : start ++ [entry] ≠ [] := by simp
    rw [if_neg notEmpty, if_pos ⟨inRange, childIdAtPos_append header _ behind⟩, if_neg notNil, lengthEq]
    rfl

variable (fits : memory.Fits) (tree : memory.Subtree 1 id low high items ids)
    (stored : memory.pages[id]? = some (.internal header (before ++ behind)))
    (found : findKeyPos (front ++ (key, value) :: back) key = (true, front.length))

include fits tree stored found

theorem removeFromChildLeaf_run :
    ∃ after, Taken memory id header before behind leafHeader front back after ∧
      (removeFromChildLeaf id header (before ++ behind) before.length
        (childAfter header.leftChild before) leafHeader (front ++ (key, value) :: back) key).run
          handle memory =
        (.ok (.removed (childAfter header.leftChild before)), { after with len := memory.len - 1 }) := by
  unfold removeFromChildLeaf
  rw [found]
  dsimp only
  rw [Page.rebuildWithRemove, eraseIdx_append_length, run_writePage_bind]
  cases raises : (if 0 < before.length ∧ front.length = 0
      then (Page.leaf leafHeader (front ++ back)).firstKey else none) with
  | none => exact ⟨_, .kept, rfl⟩
  | some =>
    rcases ite_none_right_eq_some.mp raises with ⟨⟨notFirst, isNil⟩, isKey⟩
    rw [length_eq_zero_iff] at isNil
    subst isNil
    rcases raiseSeparator_taken fits tree stored (length_pos_iff.mp notFirst) isKey with
      ⟨after, taken, ran⟩
    exact ⟨after, taken, (run_bind_ok (ran memory.len) _).trans rfl⟩

theorem removeFromLeaf_run
    (leafStored : memory.pages[childAfter header.leftChild before]? =
      some (.leaf leafHeader (front ++ (key, value) :: back))) :
    ∃ after, Taken memory id header before behind leafHeader front back after ∧
      (removeFromLeaf (childAfter header.leftChild before) (some (id, before.length)) leafHeader
        (front ++ (key, value) :: back) key).run handle memory =
        (.ok (.removed (childAfter header.leftChild before)), { after with len := memory.len - 1 }) := by
  unfold removeFromLeaf
  rw [found]
  dsimp only
  rw [Page.rebuildWithRemove, eraseIdx_append_length, run_writePage_bind, run_subLen_bind]
  cases raises : (if front.length = 0
      then (Page.leaf leafHeader (front ++ back)).firstKey else none) with
  | none => exact ⟨_, .kept, rfl⟩
  | some newKey =>
    rcases ite_none_right_eq_some.mp raises with ⟨isNil, isKey⟩
    rw [length_eq_zero_iff] at isNil
    subst isNil
    have different := tree.child_ne (heap_of_page stored)
    let written : Memory Value :=
      { memory.write (childAfter header.leftChild before) (.leaf leafHeader ([] ++ back)) with
        len := memory.len - 1 }
    have storedAfterwards : written.pages[id]? = some (.internal header (before ++ behind)) :=
      ((pages_write ..).trans (if_neg different)).trans stored
    have ran := @repairParentSeparator_run _ written id header before behind newKey storedAfterwards
    by_cases isFirst : before = []
    · rw [if_pos isFirst] at ran
      exact ⟨_, .kept, (run_bind_ok ran _).trans rfl⟩
    · rw [if_neg isFirst] at ran
      rcases raiseSeparator_taken fits tree stored isFirst isKey with ⟨after, taken, raised⟩
      exact ⟨after, taken, (run_bind_ok (ran.trans (raised _)) _).trans rfl⟩

end Programs

end Leaves

/-! ## The descent -/

section Loop

variable {depth : Nat} {id : PageId} {low : WithBot Key} {high : WithTop Key}
variable {items : List (Key × Value)} {ids : List PageId} {key : Key}

/-- A removal below a page has returned, and the key is not there any more. -/
structure Removed (key : Key) (memory after : Memory Value) (depth : Nat) (id : PageId)
    (low : WithBot Key) (high : WithTop Key) (items : List (Key × Value)) (ids : List PageId)
    (ending : RemoveEnd) : Prop where
  fits : after.Fits
  tree : ∃ newIds, after.Subtree depth id low high (without key items) newIds ∧
    memory.Confined after ids newIds
  ending : ending = .absent ∧ after.len = memory.len ∧ key ∉ items.map Prod.fst ∨
    (∃ leafId, ending = .removed leafId) ∧ after.len = memory.len - 1 ∧ key ∈ items.map Prod.fst

variable {after : Memory Value} {header : PageHeader} {before behind : List (Key × PageId)}
  {child node : Node PageId Key Value} {repair : Repair Value} {next : PageId}
  {position rounds : Nat}

theorem not_mem_keys (others : ∀ item ∈ items, item.1 ≠ key) :
    key ∉ items.map Prod.fst := by
  intro member
  rcases mem_map.mp member with ⟨item, inItems, same⟩
  exact others item inItems same

theorem Removed.absent (fits : memory.Fits) (tree : memory.Subtree depth id low high items ids)
    (others : ∀ item ∈ items, item.1 ≠ key) :
    Removed key memory memory depth id low high items ids .absent := by
  refine ⟨fits, ?_, .inl ⟨rfl, rfl, not_mem_keys others⟩⟩
  rw [without_eq_self others]
  exact ⟨ids, tree, .refl memory ids⟩

/-- Nothing was changed before the removal, or only what it had borrowed is
gone. -/
theorem Removed.after_repair {current : Memory Value} {newIds : List PageId}
    (removed : Removed key current after depth id low high items newIds ending)
    (confined : memory.Confined current ids newIds) (sameLen : current.len = memory.len) :
    Removed key memory after depth id low high items ids ending := by
  rcases removed with ⟨fits, ⟨lastIds, tree, lastConfined⟩, outcome⟩
  rw [sameLen] at outcome
  exact ⟨fits, ⟨lastIds, tree, confined.trans lastConfined⟩, outcome⟩

/-- How a round at an internal page ends.  `borrowed` is what is borrowed at
the page and below it. -/
inductive RoundEnd (key : Key) (memory : Memory Value) (depth : Nat) (id : PageId)
    (low : WithBot Key) (high : WithTop Key) (items : List (Key × Value)) (ids : List PageId)
    (borrowed : Nat -> List (Key × Value)) : Except Stop Descent × Memory Value -> Prop
  | refused {actual : Nat} : RoundEnd key memory depth id low high items ids borrowed
      (.error (.fault (.error (.invalidPageSize actual pageSize))), memory)
  | done {ending : RemoveEnd} {after : Memory Value} :
      Removed key memory after (depth + 1) id low high items ids ending ->
      (∀ rounds, borrowed rounds = []) ->
      RoundEnd key memory depth id low high items ids borrowed (.ok (.done ending), after)
  | next {next : PageId} {position : Nat} {after : Memory Value} {child : Node PageId Key Value}
      {repair : Repair Value} :
      Prepared key memory after depth id low high items ids child repair next position ->
      (∀ rounds, borrowed rounds =
        borrowedBy memory.heap rounds (borrowedBelow memory.heap key rounds) child repair) ->
      RoundEnd key memory depth id low high items ids borrowed
        (.ok (.next next (id, position)), after)

section Step

variable (fits : memory.Fits)
    (stored : memory.pages[id]? = some (.internal header (before ++ behind)))
    (upTo : ∀ entry ∈ before, entry.1 ≤ key)
    (above : ∀ entry ∈ behind, key < entry.1) (inside : Inside low high key)

include fits stored upTo above inside

/-- The two ways in which a removal ends in a leaf child. -/
theorem removed_of_leaf {leafHeader : PageHeader} {entries : List (Key × Value)}
    (program : TreeProgram Value RemoveEnd) (tree : memory.Subtree 1 id low high items ids)
    (leafStored : memory.pages[childAfter header.leftChild before]? = some (.leaf leafHeader entries))
    (absent : ∀ pos, findKeyPos entries key = (false, pos) ->
      program.run handle memory = (.ok .absent, memory))
    (present : ∀ front value back, entries = front ++ (key, value) :: back ->
      findKeyPos entries key = (true, front.length) ->
      ∃ after, Taken memory id header before behind leafHeader front back after ∧
        program.run handle memory = (.ok (.removed (childAfter header.leftChild before)),
          { after with len := memory.len - 1 })) :
    ∃ ending after, program.run handle memory = (.ok ending, after) ∧
      Removed key memory after 1 id low high items ids ending := by
  rcases tree.focus (heap_of_page stored) upTo above inside with
    ⟨_, _, _, _, _, _, itemsEq, ⟨⟨leafNode, ordered, _⟩, _⟩, _, lower, upper, _⟩
  cases leafNode.symm.trans (heap_of_page leafStored)
  have located := findKeyPos_located key ordered.ascending
  generalize found : findKeyPos entries key = outcome at located
  cases located with
  | @absent _ _ below isAbove =>
    have notIn : ∀ item ∈ items, item.1 ≠ key := by
      intro item member
      simp only [itemsEq, mem_append] at member
      rcases member with inLeft | (inFront | inBack) | inRight
      · exact ne_of_lt (lower item inLeft)
      · exact ne_of_lt (below item inFront)
      · exact ne_of_gt (isAbove item inBack)
      · exact ne_of_gt (upper item inRight)
    exact ⟨_, memory, absent _ found, .absent fits tree notIn⟩
  | @present front back value =>
    rcases present front value back rfl found with ⟨_, taken, ran⟩
    rcases taken.subtree tree stored upTo above inside leafStored fits with
      ⟨newFits, _, _, newIds, newTree, confined⟩
    refine ⟨_, _, ran, newFits, ⟨newIds, { newTree with }, { confined with }⟩,
      .inr ⟨⟨_, rfl⟩, rfl, ?_⟩⟩
    simp [itemsEq]

/-- The child keeps its keys: the key is removed from a leaf child, and an
internal child is descended to. -/
theorem enterChild_run {child : Page Value}
    (tree : memory.Subtree (depth + 1) id low high items ids)
    (childStored : memory.pages[childAfter header.leftChild before]? = some child)
    {borrowed : Nat -> List (Key × Value)} (isBorrowed : ∀ rounds, borrowed rounds =
      borrowedBy memory.heap rounds (borrowedBelow memory.heap key rounds) child.node .keep) :
    RoundEnd key memory depth id low high items ids borrowed
      ((enterChild id header (before ++ behind) before.length (childAfter header.leftChild before)
        child key).run handle memory) := by
  have childAt := heap_of_page childStored
  cases child with
  | leaf leafHeader entries =>
    have isLeaf : depth = 0 := by
      rcases tree.focus (heap_of_page stored) upTo above inside with
        ⟨_, _, _, _, _, _, _, childTree, _⟩
      cases depth with
      | zero => rfl
      | succ =>
        rcases childTree.represents with ⟨_, _, _, branchAt, _⟩
        cases branchAt.symm.trans childAt
    subst isLeaf
    have removal := removed_of_leaf fits stored upTo above inside
      (removeFromChildLeaf id header (before ++ behind) before.length
        (childAfter header.leftChild before) leafHeader entries key)
      tree childStored
      (fun pos notFound => by
        unfold removeFromChildLeaf
        rw [notFound]
        rfl)
      (fun front value back whole found => by
        subst whole
        exact removeFromChildLeaf_run fits tree stored found)
    rcases removal with ⟨_, _, ran, removed⟩
    unfold enterChild
    rw [run_bind_ok ran]
    refine .done removed (fun rounds => ?_)
    rw [isBorrowed]
    exact borrowedBelow_leaf key rounds entries
  | internal =>
    refine .next ⟨fits, rfl, header.leftChild, before, behind, items, ids, _, tree,
      .refl memory ids,
      heap_of_page stored, upTo, above, rfl, rfl, childAt, ?_⟩ isBorrowed
    intro rounds _
    exact ⟨[], Drops.refl key items, rfl⟩

end Step

theorem removeRound_run {entries : List (Key × PageId)} (fits : memory.Fits)
    (tree : memory.Subtree (depth + 1) id low high items ids)
    (stored : memory.pages[id]? = some (.internal header entries)) (inside : Inside low high key) :
    RoundEnd key memory depth id low high items ids
      (fun rounds => borrowedBelow memory.heap key (rounds + 1) (.branch header.leftChild entries))
      ((removeRound id header entries key).run handle memory) := by
  rcases tree.represents with ⟨_, _, _, node, row, _⟩
  cases node.symm.trans (heap_of_page stored)
  rcases childInsertPosForKey_spec key row.ascending with
    ⟨before, behind, rfl, position, upTo, above⟩
  rcases tree.focus (heap_of_page stored) upTo above inside with
    ⟨_, _, _, _, _, _, _, childTree, _⟩
  rcases childTree.stored with ⟨child, childStored⟩
  have isBorrowed := fun rounds => @borrowedBelow_branch Value memory.heap header.leftChild before behind
    key child.node rounds position (heap_of_page childStored)
  unfold removeRound
  rw [position]
  dsimp only
  rw [childIdAtPos_append, run_readPageOrFail_bind childStored]
  by_cases few : child.keyCount ≤ minKeysNonRoot child.pageType
  · rw [if_pos few]
    have fixed := fixChild_run fits tree stored upTo above childStored few
    generalize ran : (fixChild id header (before ++ behind) before.length
      (childAfter header.leftChild before) child).run handle memory = outcome at fixed
    cases fixed with
    | alone isKeep =>
      rw [run_bind_ok ran]
      rw [isKeep] at isBorrowed
      exact enterChild_run fits stored upTo above inside tree childStored isBorrowed
    | refused =>
      rw [run_bind_error ran]
      exact .refused
    | prepared prepared =>
      rw [run_bind_ok ran]
      exact .next prepared isBorrowed
  · have keeps : Repair.choose child.node (leftSibling memory.heap header.leftChild before)
        (rightSibling memory.heap behind) = .keep := by
      unfold Repair.choose
      rw [if_pos (by simpa using few)]
    rw [keeps] at isBorrowed
    rw [if_neg few]
    exact enterChild_run fits stored upTo above inside tree childStored isBorrowed

/-- A removal that was refused on its way has lost what it had borrowed before. -/
structure Kept (memory after : Memory Value) (depth : Nat) (id : PageId) (low : WithBot Key)
    (high : WithTop Key) (items : List (Key × Value)) (ids : List PageId) : Prop where
  fits : after.Fits
  len : after.len = memory.len
  tree : ∃ kept newIds, kept.Sublist items ∧ after.Subtree depth id low high kept newIds ∧
    memory.Confined after ids newIds

/-- How the descent from an internal page ends. -/
inductive LoopEnd (key : Key) (memory : Memory Value) (depth : Nat) (id : PageId)
    (low : WithBot Key) (high : WithTop Key) (items : List (Key × Value)) (ids : List PageId)
    (rounds : Nat) : Except Stop RemoveEnd × Memory Value -> Prop
  | diverged {after : Memory Value} : rounds ≤ depth ->
      LoopEnd key memory depth id low high items ids rounds (.error .diverged, after)
  | refused {actual : Nat} {after : Memory Value} : Kept memory after depth id low high items ids ->
      LoopEnd key memory depth id low high items ids rounds
        (.error (.fault (.error (.invalidPageSize actual pageSize))), after)
  | returned {ending : RemoveEnd} {after : Memory Value} {kept : List (Key × Value)} :
      Removed key memory after depth id low high kept ids ending ->
      (∀ node, memory.heap id = some node -> ∀ fuel, depth ≤ fuel ->
        Drops key (borrowedBelow memory.heap key fuel node) items kept) ->
      LoopEnd key memory depth id low high items ids rounds (.ok ending, after)

/-- What the loop does after a round that has prepared the next page. -/
def LoopGoesOn (Value : Type) (key : Key) (rounds depth : Nat) : Prop :=
  ∀ {memory after : Memory Value} {id low high items ids child node repair next position},
    Prepared key memory after depth id low high items ids child repair next position ->
    memory.heap id = some node ->
    (∀ rounds, borrowedBelow memory.heap key (rounds + 1) node =
      borrowedBy memory.heap rounds (borrowedBelow memory.heap key rounds) child repair) ->
    Inside low high key ->
    LoopEnd key memory (depth + 1) id low high items ids (rounds + 1)
      ((removeLoop key rounds next (some (id, position))).run handle after)

theorem loopGoesOn_leaf : LoopGoesOn Value key rounds 0 := by
  intro _ _ id _ _ _ _ _ _ _ _ _ prepared nodeAt isBorrowed inside
  cases rounds with
  | zero => exact .diverged le_rfl
  | succ =>
    rcases prepared with ⟨fits, sameLen, _, before, _, _, _, _, tree, confined,
      parentAt, upTo, above, nextIs, positionIs, leafAt, lossless⟩
    rcases internalPage parentAt with ⟨header, stored, rfl⟩
    subst nextIs
    subst positionIs
    rcases tree.focus parentAt upTo above inside with ⟨_, _, _, own, _, _, _, ⟨⟨ownAt, _⟩, _⟩, _⟩
    cases leafAt.symm.trans ownAt
    rcases leafPage ownAt with ⟨leafHeader, leafStored⟩
    have removal := removed_of_leaf fits stored upTo above inside
      (removeFromLeaf (childAfter header.leftChild before) (some (id, before.length)) leafHeader own
        key)
      tree leafStored
      (fun pos notFound => by
        unfold removeFromLeaf
        rw [notFound]
        rfl)
      (fun front value back whole found => by
        subst whole
        exact removeFromLeaf_run fits tree stored found leafStored)
    rcases removal with ⟨_, _, ran, removed⟩
    unfold removeLoop
    rw [run_readPage_bind, leafStored]
    rw [ran]
    refine .returned (removed.after_repair confined sameLen) ?_
    intro _ otherAt fuel _
    cases nodeAt.symm.trans otherAt
    cases fuel with
    | zero => omega
    | succ fuel =>
      rcases lossless fuel (Nat.zero_le _) with ⟨_, drops, same⟩
      rw [isBorrowed, same, borrowedBelow_leaf, append_nil]
      exact drops

/-- What the loop does from an internal page. -/
def LoopRemoves (Value : Type) (key : Key) (rounds depth : Nat) : Prop :=
  ∀ {memory : Memory Value} {id : PageId} {low : WithBot Key} {high : WithTop Key}
    {items : List (Key × Value)} {ids : List PageId} (hint : Option (PageId × Nat)), memory.Fits ->
    memory.Subtree (depth + 1) id low high items ids -> Inside low high key ->
    LoopEnd key memory (depth + 1) id low high items ids rounds
      ((removeLoop key rounds id hint).run handle memory)

theorem loopGoesOn_internal (loop : LoopRemoves Value key rounds depth) :
    LoopGoesOn Value key rounds (depth + 1) := by
  intro _ after id _ _ _ _ _ _ _ _ position prepared nodeAt isBorrowed inside
  rcases prepared with ⟨fits, sameLen, first, before, _, _, _, branch, tree, confined,
    parentAt, upTo, above, rfl, _, branchAt, lossless⟩
  rcases tree.focus parentAt upTo above inside with
    ⟨_, _, left, _, right, _, keptEq, childTree, childInside, lower, upper, wayBack⟩
  subst keptEq
  have below := loop (some (id, position)) fits childTree childInside
  generalize (removeLoop key rounds (childAfter first before) (some (id, position))).run
    handle after = outcome at below
  cases below with
  | diverged few => exact .diverged (Nat.succ_le_succ few)
  | @refused _ final refused =>
    rcases refused with ⟨lastFits, lastLen, childKept, childIds, sublist, childAfterwards, childConfined⟩
    rcases wayBack final childKept childIds childAfterwards childConfined with
      ⟨lastIds, lastTree, lastConfined⟩
    rcases lossless (depth + 1) le_rfl with ⟨_, drops, _⟩
    exact .refused ⟨lastFits, lastLen.trans sameLen, _, lastIds,
      ((List.Sublist.refl left).append (sublist.append (List.Sublist.refl right))).trans
        drops.sublist, lastTree, confined.trans lastConfined⟩
  | @returned _ final childKept removed childDrops =>
    rcases removed with ⟨lastFits, ⟨childIds, childAfterwards, childConfined⟩, outcome⟩
    rcases wayBack final (without key childKept) childIds childAfterwards childConfined with
      ⟨lastIds, lastTree, lastConfined⟩
    rw [← without_append lower upper] at lastTree
    have keyHere : key ∈ (left ++ (childKept ++ right)).map Prod.fst <->
        key ∈ childKept.map Prod.fst := by
      have notLeft : key ∉ left.map Prod.fst :=
        not_mem_keys (fun item inLeft => ne_of_lt (lower item inLeft))
      have notRight : key ∉ right.map Prod.fst :=
        not_mem_keys (fun item inRight => ne_of_gt (upper item inRight))
      simp only [map_append, mem_append]
      tauto
    refine .returned ⟨lastFits, ⟨lastIds, lastTree, confined.trans lastConfined⟩, ?_⟩ ?_
    · rw [keyHere, ← sameLen]
      exact outcome
    · intro _ otherAt fuel enough
      cases nodeAt.symm.trans otherAt
      cases fuel with
      | zero => omega
      | succ fuel =>
        have enoughBelow : depth + 1 ≤ fuel := Nat.le_of_succ_le_succ enough
        rcases lossless fuel enoughBelow with ⟨_, drops, same⟩
        rw [isBorrowed, same]
        exact drops.trans ((childDrops branch branchAt fuel enoughBelow).around left right)

theorem loopRemoves_succ (goesOn : LoopGoesOn Value key rounds depth) :
    LoopRemoves Value key (rounds + 1) depth := by
  intro memory id low high items ids _ fits tree inside
  rcases tree.represents with ⟨_, rest, _, node, _⟩
  rcases internalPage node with ⟨header, stored, rfl⟩
  unfold removeLoop
  rw [run_readPage_bind, stored]
  have round := removeRound_run fits tree stored inside
  generalize ran : (removeRound id header rest key).run handle memory = outcome at round
  cases round with
  | refused =>
    rw [run_bind_error ran]
    exact .refused ⟨fits, rfl, items, ids, List.Sublist.refl _, tree, .refl memory ids⟩
  | done removed nothing =>
    rw [run_bind_ok ran]
    refine .returned removed ?_
    intro _ otherAt fuel _
    cases node.symm.trans otherAt
    cases fuel with
    | zero => omega
    | succ fuel =>
      rw [nothing fuel]
      exact Drops.refl key items
  | next prepared isBorrowed =>
    rw [run_bind_ok ran]
    exact goesOn prepared node isBorrowed inside

/-- The loop of `remove` from an internal page: every round repairs the child
and goes on in it. -/
theorem removeLoop_run (key : Key) (rounds depth : Nat) : LoopRemoves Value key rounds depth := by
  induction rounds generalizing depth with
  | zero =>
    intro _ _ _ _ _ _ _ _ _ _
    exact .diverged (Nat.zero_le _)
  | succ _ ih =>
    cases depth with
    | zero => exact loopRemoves_succ loopGoesOn_leaf
    | succ depth => exact loopRemoves_succ (loopGoesOn_internal (ih depth))

end Loop

/-! ## Behind the removal -/

section Finish

/-- Only headers have changed. -/
structure SameNodes (memory after : Memory Value) : Prop where
  heap : after.heap = memory.heap
  nextPageId : after.nextPageId = memory.nextPageId
  root : after.root = memory.root
  len : after.len = memory.len

theorem SameNodes.refl (memory : Memory Value) : SameNodes memory memory :=
  ⟨rfl, rfl, rfl, rfl⟩

variable {after : Memory Value} {depth : Nat} {items : List (Key × Value)}

theorem SameNodes.trans {middle : Memory Value} (first : SameNodes memory middle)
    (second : SameNodes middle after) : SameNodes memory after :=
  ⟨second.heap.trans first.heap, second.nextPageId.trans first.nextPageId,
    second.root.trans first.root, second.len.trans first.len⟩

theorem sameNodes_write {id : PageId} {page new : Page Value}
    (stored : memory.pages[id]? = some page) (sameNode : new.node = page.node) :
    SameNodes memory (memory.write id new) := by
  refine ⟨funext (fun cell => ?_), rfl, rfl, rfl⟩
  rw [heap_write, sameNode]
  split
  · next same => rw [← same, heap_of_page stored]
  · rfl

theorem SameNodes.fits (same : SameNodes memory after) (fits : memory.Fits) : after.Fits := by
  intro id page stored
  have node : memory.heap id = some page.node := by
    rw [← same.heap]
    exact heap_of_page stored
  rcases map_eq_some_iff.mp node with ⟨old, oldStored, sameNode⟩
  have sameCount : old.keyCount = page.keyCount := by
    rw [← Page.keyCount_node, sameNode, Page.keyCount_node]
  have sameType : old.pageType = page.pageType := by
    cases old <;> cases page <;> first | rfl | cases sameNode
  have small := fits id old oldStored
  rwa [sameCount, sameType] at small

theorem SameNodes.tree (same : SameNodes memory after) (tree : memory.Tree depth items) :
    after.Tree depth items := by
  rcases tree with ⟨fits, ids, represents, nodup, allocated⟩
  refine ⟨same.fits fits, ids, ?_, nodup, ?_⟩
  · rw [same.heap, same.root]
    exact represents
  · rw [same.nextPageId]
    exact allocated

theorem firstKeyOf_run (memory : Memory Value) (linked : Option PageId) :
    ∃ key, (firstKeyOf linked).run handle memory = (.ok key, memory) := by
  cases linked with
  | none => exact ⟨none, rfl⟩
  | some => exact ⟨_, rfl⟩

theorem repairLeafBoundary_run (memory : Memory Value) (leafId : PageId) :
    ∃ after, (repairLeafBoundary leafId).run handle memory = (.ok (), after) ∧
      SameNodes memory after := by
  unfold repairLeafBoundary
  rw [run_readPage_bind]
  cases stored : memory.pages[leafId]? with
  | none => exact ⟨memory, rfl, .refl memory⟩
  | some page =>
    cases page with
    | internal => exact ⟨memory, rfl, .refl memory⟩
    | leaf header entries =>
      rcases firstKeyOf_run memory header.nextLeaf with ⟨nextFirst, ran⟩
      have same : SameNodes memory
          (memory.write leafId (.leaf { header with highKey := nextFirst } entries)) :=
        sameNodes_write stored rfl
      rw [run_bind_ok ran, run_writePage_bind]
      generalize memory.write leafId (.leaf { header with highKey := nextFirst } entries) =
        written at same
      cases header.prevLeaf with
      | none => exact ⟨written, rfl, same⟩
      | some prevId =>
        cases entries.head? with
        | none => exact ⟨written, rfl, same⟩
        | some =>
          rw [run_readPage_bind]
          cases prevStored : written.pages[prevId]? with
          | none => exact ⟨written, rfl, same⟩
          | some prev =>
            cases prev with
            | internal => exact ⟨written, rfl, same⟩
            | leaf =>
              dsimp only
              split
              · exact ⟨_, rfl, same.trans (sameNodes_write prevStored rfl)⟩
              · exact ⟨written, rfl, same⟩

theorem leftmostLeaf_run (memory : Memory Value) (hops : Nat) (current : PageId) :
    ∃ leaf, (leftmostLeaf hops current).run handle memory = (.ok leaf, memory) := by
  induction hops generalizing current with
  | zero => exact ⟨_, rfl⟩
  | succ _ ih =>
    unfold leftmostLeaf
    rw [run_readPage_bind]
    cases memory.pages[current]? with
    | none => exact ⟨_, rfl⟩
    | some page =>
      cases page with
      | leaf => exact ⟨_, rfl⟩
      | internal header => exact ih header.leftChild

theorem refreshChain_run (memory : Memory Value) (hops : Nat) (current : PageId) :
    ∃ after, (refreshChain hops current).run handle memory = (.ok (), after) ∧
      SameNodes memory after := by
  induction hops generalizing memory current with
  | zero => exact ⟨memory, rfl, .refl memory⟩
  | succ hops ih =>
    unfold refreshChain
    rw [run_readPage_bind]
    cases stored : memory.pages[current]? with
    | none => exact ⟨memory, rfl, .refl memory⟩
    | some page =>
      cases page with
      | internal => exact ⟨memory, rfl, .refl memory⟩
      | leaf header entries =>
        rcases firstKeyOf_run memory header.nextLeaf with ⟨newHighKey, ran⟩
        dsimp only
        rw [run_bind_ok ran]
        have goesOn : ∀ (next : PageId) (state : Memory Value), ∃ after,
            (if next = current then pure () else refreshChain hops next :
              TreeProgram Value Unit).run handle state = (.ok (), after) ∧
            SameNodes state after := by
          intro next state
          by_cases loops : next = current
          · rw [if_pos loops]
            exact ⟨state, rfl, .refl state⟩
          · rw [if_neg loops]
            exact ih state next
        split
        · rw [run_writePage_bind]
          have written : SameNodes memory
              (memory.write current (.leaf { header with highKey := newHighKey } entries)) :=
            sameNodes_write stored rfl
          generalize memory.write current _ = between at written ⊢
          cases header.nextLeaf with
          | none => exact ⟨between, rfl, written⟩
          | some next =>
            rcases goesOn next between with ⟨after, ranOn, same⟩
            exact ⟨after, ranOn, written.trans same⟩
        · cases header.nextLeaf with
          | none => exact ⟨memory, rfl, .refl memory⟩
          | some next => exact goesOn next memory

theorem refreshLeafHighKeys_run (memory : Memory Value) :
    ∃ after, (refreshLeafHighKeys : TreeProgram Value Unit).run handle memory =
      (.ok (), after) ∧ SameNodes memory after := by
  rcases leftmostLeaf_run memory maxScanLeafHops memory.root with ⟨leaf, ran⟩
  unfold refreshLeafHighKeys
  rw [run_rootPageId_bind, run_bind_ok ran]
  cases leaf with
  | none => exact ⟨memory, rfl, .refl memory⟩
  | some first => exact refreshChain_run memory maxScanLeafHops first

theorem maybeCollapseRoot_run (rounds : Nat) (tree : memory.Tree depth items) :
    ∃ outcome after, (maybeCollapseRoot rounds : TreeProgram Value Unit).run handle memory =
        (outcome, after) ∧
      (outcome = .error .diverged ∧ rounds ≤ depth ∨
        outcome = .ok () ∧ after.len = memory.len ∧ ∃ newDepth, after.Tree newDepth items) := by
  induction rounds generalizing memory depth with
  | zero => exact ⟨_, _, rfl, .inl ⟨rfl, Nat.zero_le _⟩⟩
  | succ _ ih =>
    cases depth with
    | zero =>
      rcases tree.subtree with ⟨_, subtree⟩
      rcases leafPage subtree.represents.1 with ⟨_, stored⟩
      refine ⟨.ok (), memory, ?_, .inr ⟨rfl, rfl, 0, tree⟩⟩
      unfold maybeCollapseRoot
      rw [run_rootPageId_bind, run_readPage_bind, stored]
      rfl
    | succ depth =>
      rcases tree with ⟨fits, ids, subtree⟩
      rcases subtree.represents with ⟨_, rest, below, node, row, idsEq⟩
      rcases internalPage node with ⟨header, stored, rfl⟩
      unfold maybeCollapseRoot
      rw [run_rootPageId_bind, run_readPage_bind, stored]
      dsimp only
      split
      · next collapses =>
        rw [run_setRootPageId_bind]
        have isNil : rest = [] := isEmpty_iff.mp collapses.1
        subst isNil
        have nodup := subtree.nodup
        rw [idsEq] at nodup
        have child : ({ memory with root := header.leftChild } : Memory Value).Tree depth items :=
          ⟨fits, below, row_nil.mp row, (nodup_cons.mp nodup).2, fun cell member =>
            subtree.allocated cell (by rw [idsEq]; exact mem_cons_of_mem _ member)⟩
        rcases ih child with
          ⟨outcome, after, ran, ⟨isDiverged, few⟩ | returned⟩
        · exact ⟨outcome, after, ran, .inl ⟨isDiverged, Nat.succ_le_succ few⟩⟩
        · exact ⟨outcome, after, ran, .inr returned⟩
      · exact ⟨.ok (), memory, rfl, .inr ⟨rfl, rfl, depth + 1, fits, ids, subtree⟩⟩

end Finish

/-! ## The call -/

section Call

variable {depth : Nat} {items : List (Key × Value)}

/-- How a call of `remove` ends. -/
inductive CallEnd (key : Key) (memory : Memory Value) (depth : Nat) (items : List (Key × Value))
    (rounds : Nat) : Except Stop Unit × Memory Value -> Prop
  | diverged {after : Memory Value} : rounds ≤ depth ->
      CallEnd key memory depth items rounds (.error .diverged, after)
  | refused {actual newDepth : Nat} {after : Memory Value} {kept : List (Key × Value)} :
      after.Tree newDepth kept -> kept.Sublist items -> after.len = memory.len ->
      CallEnd key memory depth items rounds
        (.error (.fault (.error (.invalidPageSize actual pageSize))), after)
  | returned {newDepth : Nat} {after : Memory Value} {kept : List (Key × Value)} :
      after.Tree newDepth (without key kept) -> Drops key (memory.borrowed key) items kept ->
      after.len = (if key ∈ items.map Prod.fst then memory.len - 1 else memory.len) ->
      CallEnd key memory depth items rounds (.ok (), after)

theorem removeLoop_leaf {key : Key} {header : PageHeader} (rounds : Nat) (tree : memory.Tree 0 items)
    (stored : memory.pages[memory.root]? = some (.leaf header items)) :
    ∃ ending after, (removeLoop key (rounds + 1) memory.root none).run handle memory =
        (.ok ending, after) ∧
      Removed key memory after 0 memory.root ⊥ ⊤ items [memory.root] ending := by
  rcases tree with ⟨fits, _, ⟨node, ordered, rfl⟩, nodup, allocated⟩
  unfold removeLoop
  rw [run_readPage_bind, stored]
  dsimp only
  unfold removeFromLeaf
  have located := findKeyPos_located key ordered.ascending
  generalize findKeyPos items key = outcome at located
  cases located with
  | @absent front back below above =>
    have notIn : ∀ item ∈ front ++ back, item.1 ≠ key :=
      forall_mem_append.mpr ⟨fun item inFront => ne_of_lt (below item inFront),
        fun item inBack => ne_of_gt (above item inBack)⟩
    exact ⟨.absent, memory, rfl, .absent fits ⟨⟨node, ordered, rfl⟩, nodup, allocated⟩ notIn⟩
  | @present front =>
    have small := fits.leaf stored
    simp only [length_append, length_cons] at small
    dsimp only
    rw [Page.rebuildWithRemove, eraseIdx_append_length, run_writePage_bind, run_subLen_bind]
    refine ⟨.removed memory.root, _, rfl, ?_, ⟨[memory.root], ?_, ?_⟩,
      .inr ⟨⟨_, rfl⟩, rfl, by simp⟩⟩
    · exact fits.writeLeaf _ (by rw [length_append]; omega)
    · rw [without_of_ascending ordered.ascending]
      refine ⟨⟨(heap_write ..).trans (if_pos rfl), ordered.sublist ?_, rfl⟩, nodup, allocated⟩
      exact (List.Sublist.refl front).append (sublist_cons_self _ _)
    · refine ⟨?_, le_rfl, fun _ member => .inl member, rfl⟩
      intro _ notIn _
      refine pages_write_of_ne ?_
      rintro rfl
      exact notIn (by simp)

theorem callEnd_of_removed {key : Key} {rounds : Nat} {after : Memory Value} {ids : List PageId}
    {kept : List (Key × Value)}
    (ran : (removeLoop key rounds memory.root none).run handle memory = (.ok ending, after))
    (removed : Removed key memory after depth memory.root ⊥ ⊤ kept ids ending)
    (drops : Drops key (memory.borrowed key) items kept) :
    CallEnd key memory depth items rounds ((remove rounds key).run handle memory) := by
  rcases removed with ⟨fits, ⟨newIds, subtree, confined⟩, outcome⟩
  rw [drops.mem_iff] at outcome
  have tree : after.Tree depth (without key kept) := ⟨fits, newIds, by rw [confined.root]; exact subtree⟩
  -- The header repairs come before the collapse only if the key was there.
  have collapsed : ∀ {state : Memory Value}, SameNodes after state ->
      after.len = (if key ∈ items.map Prod.fst then memory.len - 1 else memory.len) ->
      CallEnd key memory depth items rounds
        ((maybeCollapseRoot rounds : TreeProgram Value Unit).run handle state) := by
    intro state same len
    rcases maybeCollapseRoot_run rounds (same.tree tree) with
      ⟨_, _, ranCollapse, ⟨isDiverged, few⟩ | ⟨isOk, sameLen, _, newTree⟩⟩
    · rw [ranCollapse, isDiverged]
      exact .diverged few
    · rw [ranCollapse, isOk]
      exact .returned newTree drops (by rw [sameLen, same.len, len])
  unfold remove
  rw [run_rootPageId_bind, run_bind_ok ran]
  rcases outcome with ⟨isAbsent, len, absent⟩ | ⟨⟨leafId, isRemoved⟩, len, present⟩
  · subst isAbsent
    exact collapsed (.refl after) (by rw [len, if_neg absent])
  · subst isRemoved
    rcases repairLeafBoundary_run after leafId with ⟨repaired, ranRepair, sameRepair⟩
    rcases refreshLeafHighKeys_run repaired with ⟨_, ranRefresh, sameRefresh⟩
    rw [run_bind_ok ranRepair, run_bind_ok ranRefresh]
    exact collapsed (sameRepair.trans sameRefresh) (by rw [len, if_pos present])

theorem remove_run (rounds : Nat) (key : Key) (tree : memory.Tree depth items) :
    CallEnd key memory depth items rounds ((remove rounds key).run handle memory) := by
  rcases tree.subtree with ⟨_, subtree⟩
  have inside : Inside (⊥ : WithBot Key) ⊤ key := ⟨bot_le, WithTop.coe_lt_top key⟩
  cases depth with
  | zero =>
    cases rounds with
    | zero => exact .diverged le_rfl
    | succ rounds =>
      rcases leafPage subtree.represents.1 with ⟨header, stored⟩
      rcases @removeLoop_leaf _ memory items key header rounds tree stored with
        ⟨_, _, ran, removed⟩
      refine callEnd_of_removed ran removed ?_
      rw [borrowed, heap_of_page stored]
      exact (borrowedBelow_leaf key memory.nextPageId items).symm ▸ Drops.refl key items
  | succ depth =>
    have ended := removeLoop_run key rounds depth none tree.fits subtree inside
    generalize ran : (removeLoop key rounds memory.root none).run handle memory = outcome at ended
    cases ended with
    | diverged few =>
      unfold remove
      rw [run_rootPageId_bind, run_bind_error ran]
      exact .diverged few
    | refused refused =>
      rcases refused with ⟨fits, sameLen, _, newIds, sublist, keptTree, confined⟩
      unfold remove
      rw [run_rootPageId_bind, run_bind_error ran]
      exact .refused ⟨fits, newIds, by rw [confined.root]; exact keptTree⟩ sublist sameLen
    | returned removed drops =>
      refine callEnd_of_removed ran removed ?_
      rcases subtree.represents with ⟨_, _, _, node, _⟩
      rw [borrowed, node]
      exact drops _ node memory.nextPageId (Nat.le_of_lt subtree.depth_lt)

end Call

end Removal

end BTree
end ScaleKv
