import ScaleKv.BTree.Borrowing

namespace ScaleKv
namespace BTree

open Foundation Program List Option SearchTree Memory

/-!
# Repairing the children on the way of a removal

At every internal page the child that a removal descends to is repaired first.
A repair keeps the shape of the tree: whatever it loses, what is left are
ascending pairs behind the right separators.  `Prepared` says what has been lost
and where the descent goes on.
-/

section Repairing

variable {Value : Type} {memory : Memory Value}

theorem minKeysNonRoot_leaf : minKeysNonRoot .leaf = 7 := by decide

theorem minKeysNonRoot_internal : minKeysNonRoot .internal = 314 := by decide

@[simp] theorem Page.keyCount_node (page : Page Value) : page.node.keyCount = page.keyCount := by
  cases page <;> rfl

@[simp] theorem minKeys_node (page : Page Value) :
    minKeys page.node = minKeysNonRoot page.pageType := by
  cases page <;> rfl

/-! ## Borrowing and merging pages -/

section Pages

variable {id leftId childId rightId : PageId} {header : PageHeader} {separator : Key}
variable {before behind : List (Key × PageId)} {left child right : Page Value}

/-- The sibling and the page above are written, the child is not. -/
theorem borrowFromLeft_run (sameType : left.pageType = child.pageType)
    (few : child.keyCount ≤ minKeysNonRoot child.pageType)
    (lends : minKeysNonRoot child.pageType < left.keyCount)
    (leftFits : left.keyCount ≤ maxKeysForPageType left.pageType)
    (small : (before ++ (separator, childId) :: behind).length ≤ 628) :
    ∃ lender key, lender.node = left.node.withoutLast ∧ left.node.lastKey = some key ∧
      lender.keyCount ≤ maxKeysForPageType lender.pageType ∧
      (borrowFromLeft id header (before ++ (separator, childId) :: behind) (before.length + 1) leftId
        left child).run handle memory =
          (.ok (), (memory.write leftId lender).write id
            (.internal header (before ++ (key, childId) :: behind))) := by
  have smallAfter : ∀ key : Key, (before ++ (key, childId) :: behind).length ≤ 628 := by
    intro key
    simpa using small
  cases left with
  | leaf leftHeader leftEntries =>
    cases child with
    | internal => cases sameType
    | leaf =>
      simp only [Page.keyCount, Page.pageType, minKeysNonRoot_leaf, maxKeysForPageType_leaf]
        at few lends leftFits
      rcases eq_nil_or_concat' leftEntries with empty | ⟨start, last, rfl⟩
      · simp [empty] at lends
      · simp only [length_append, length_singleton] at lends leftFits
        refine ⟨.leaf { leftHeader with highKey := some last.1 } start, last.1, ?_, ?_, ?_, ?_⟩
        · simp [Page.node, Node.withoutLast]
        · simp [Page.node, Node.lastKey]
        · simp only [Page.keyCount, Page.pageType, maxKeysForPageType_leaf]
          omega
        · unfold borrowFromLeft
          simp only [List.getLast?_append, List.getLast?_singleton, some_or,
            dropLast_concat, setSeparator, Nat.add_sub_cancel, modify_append_length]
          rw [encodeLeaf_ok _ (by simp only [length_cons]; omega),
            run_computes_ok_bind, encodeLeaf_ok _ (by omega),
            run_computes_ok_bind, run_writePage_bind,
            encodeInternal_ok _ (smallAfter _)]
          rfl
  | internal leftHeader leftEntries =>
    cases child with
    | leaf => cases sameType
    | internal =>
      simp only [Page.keyCount, Page.pageType, minKeysNonRoot_internal,
        maxKeysForPageType_internal] at few lends leftFits
      rcases eq_nil_or_concat' leftEntries with empty | ⟨start, last, rfl⟩
      · simp [empty] at lends
      · simp only [length_append, length_singleton] at lends leftFits
        refine ⟨.internal { leftHeader with highKey := some last.1 } start, last.1, ?_, ?_, ?_, ?_⟩
        · simp [Page.node, Node.withoutLast]
        · simp [Page.node, Node.lastKey]
        · simp only [Page.keyCount, Page.pageType, maxKeysForPageType_internal]
          omega
        · unfold borrowFromLeft
          simp only [List.getLast?_append, List.getLast?_singleton, some_or,
            dropLast_concat, setSeparator, Nat.add_sub_cancel, modify_append_length,
            List.getElem?_append_right le_rfl, Nat.sub_self, List.getElem?_cons_zero]
          rw [encodeInternal_ok _ (by omega), run_computes_ok_bind,
            encodeInternal_ok _ (by simp only [length_cons]; omega),
            run_computes_ok_bind, run_writePage_bind,
            encodeInternal_ok _ (smallAfter _)]
          rfl

theorem borrowFromRight_run (sameType : right.pageType = child.pageType)
    (few : child.keyCount ≤ minKeysNonRoot child.pageType)
    (lends : minKeysNonRoot child.pageType < right.keyCount)
    (rightFits : right.keyCount ≤ maxKeysForPageType right.pageType)
    (small : (before ++ (separator, rightId) :: behind).length ≤ 628) :
    ∃ lender key, lender.node = right.node.withoutFirst ∧ right.node.secondKey = some key ∧
      lender.keyCount ≤ maxKeysForPageType lender.pageType ∧
      (borrowFromRight id header (before ++ (separator, rightId) :: behind) before.length childId child
        rightId right).run handle memory =
          (.ok (), (memory.write rightId lender).write id
            (.internal header (before ++ (key, rightId) :: behind))) := by
  have smallAfter : ∀ key : Key, (before ++ (key, rightId) :: behind).length ≤ 628 := by
    intro key
    simpa using small
  cases right with
  | leaf rightHeader rightEntries =>
    cases child with
    | internal => cases sameType
    | leaf =>
      simp only [Page.keyCount, Page.pageType, minKeysNonRoot_leaf, maxKeysForPageType_leaf]
        at few lends rightFits
      match rightEntries, lends, rightFits with
      | borrowed :: first :: rest, _, rightFits =>
        simp only [length_cons] at rightFits
        refine ⟨.leaf { rightHeader with prevLeaf := some childId } (first :: rest), first.1, rfl,
          rfl, ?_, ?_⟩
        · simp only [Page.keyCount, Page.pageType, maxKeysForPageType_leaf, length_cons]
          omega
        · unfold borrowFromRight
          simp only [setSeparator, modify_append_length]
          rw [encodeLeaf_ok _ (by simp only [length_append, length_singleton]; omega),
            run_computes_ok_bind, encodeLeaf_ok _ (by simp only [length_cons]; omega),
            run_computes_ok_bind, run_writePage_bind,
            encodeInternal_ok _ (smallAfter _)]
          rfl
  | internal rightHeader rightEntries =>
    cases child with
    | leaf => cases sameType
    | internal =>
      simp only [Page.keyCount, Page.pageType, minKeysNonRoot_internal,
        maxKeysForPageType_internal] at few lends rightFits
      match rightEntries, lends, rightFits with
      | promoted :: rest, _, rightFits =>
        simp only [length_cons] at rightFits
        refine ⟨.internal { rightHeader with leftChild := promoted.2 } rest, promoted.1, rfl,
          rfl, ?_, ?_⟩
        · simp only [Page.keyCount, Page.pageType, maxKeysForPageType_internal]
          omega
        · unfold borrowFromRight
          simp only [setSeparator, modify_append_length,
            List.getElem?_append_right le_rfl, Nat.sub_self, List.getElem?_cons_zero]
          rw [encodeInternal_ok _ (by omega), run_computes_ok_bind,
            encodeInternal_ok _ (by simp only [length_append, length_singleton]; omega),
            run_computes_ok_bind, run_writePage_bind,
            encodeInternal_ok _ (smallAfter _)]
          rfl

variable (sameType : right.pageType = left.pageType)
  (leftFew : left.keyCount ≤ minKeysNonRoot left.pageType)
  (rightFew : right.keyCount ≤ minKeysNonRoot left.pageType)

include sameType leftFew rightFew

/-- Two leaves with few keys fit into one; for two internal pages the separator
between them may be too much, and then nothing is written. -/
theorem mergePages_run (separator : Key) :
    (∃ merged, merged.node = left.node.merge separator right.node ∧
      merged.keyCount ≤ maxKeysForPageType merged.pageType ∧
      (mergePages separator left right).run handle memory = (.ok merged, memory)) ∨
    (∃ actual, (mergePages separator left right).run handle memory =
      (.error (.fault (.error (.invalidPageSize actual pageSize))), memory)) := by
  cases left with
  | leaf leftHeader leftEntries =>
    cases right with
    | internal => cases sameType
    | leaf rightHeader rightEntries =>
      simp only [Page.keyCount, Page.pageType, minKeysNonRoot_leaf] at leftFew rightFew
      have fits : (leftEntries ++ rightEntries).length ≤ 15 := by
        rw [length_append]
        omega
      refine .inl ⟨.leaf { leftHeader with
        nextLeaf := rightHeader.nextLeaf, highKey := rightHeader.highKey } _, rfl,
        by rwa [← maxKeysForPageType_leaf] at fits, ?_⟩
      unfold mergePages
      dsimp only
      rw [encodeLeaf_ok _ fits]
      rfl
  | internal leftHeader leftEntries =>
    cases right with
    | leaf => cases sameType
    | internal rightHeader rightEntries =>
      unfold mergePages
      dsimp only
      by_cases fits :
          (leftEntries ++ (separator, rightHeader.leftChild) :: rightEntries).length ≤ 628
      · refine .inl ⟨.internal { leftHeader with highKey := rightHeader.highKey } _, rfl,
          by rwa [← maxKeysForPageType_internal] at fits, ?_⟩
        rw [encodeInternal_ok _ fits]
        rfl
      · rcases @encodeInternal_error Value _ { leftHeader with highKey := rightHeader.highKey }
          (lt_of_not_ge fits) with ⟨actual, refused⟩
        refine .inr ⟨actual, ?_⟩
        rw [refused]
        rfl

theorem mergeChildren_run (small : (before ++ (separator, rightId) :: behind).length ≤ 628) :
    (∃ merged, merged.node = left.node.merge separator right.node ∧
      merged.keyCount ≤ maxKeysForPageType merged.pageType ∧
      (mergeChildren id header (before ++ (separator, rightId) :: behind) before.length leftId left
        right).run handle memory =
          (.ok (), (memory.write id (.internal header (before ++ behind))).write leftId merged)) ∨
    (∃ actual, (mergeChildren id header (before ++ (separator, rightId) :: behind) before.length
      leftId left right).run handle memory =
        (.error (.fault (.error (.invalidPageSize actual pageSize))), memory)) := by
  have smallAfter : (before ++ behind).length ≤ 628 := by
    simp only [length_append, length_cons] at small ⊢
    omega
  unfold mergeChildren
  simp only [List.getElem?_append_right le_rfl, Nat.sub_self, List.getElem?_cons_zero,
    eraseIdx_append_length]
  rcases @mergePages_run _ memory left right sameType leftFew rightFew separator with
    ⟨merged, isMerge, fits, ran⟩ | ⟨actual, ran⟩
  · refine .inl ⟨merged, isMerge, fits, ?_⟩
    rw [run_bind_ok ran, encodeInternal_ok _ smallAfter]
    rfl
  · exact .inr ⟨actual, run_bind_error ran _⟩

end Pages

/-! ## Repairing a child -/

section Repairs

variable {depth : Nat} {id : PageId} {low : WithBot Key} {high : WithTop Key}
variable {items : List (Key × Value)} {ids : List PageId} {key : Key}

/-- The descent of a removal goes on with the child at a position, in a state
that has lost what was borrowed for it. -/
structure Prepared (key : Key) (memory after : Memory Value) (depth : Nat) (id : PageId)
    (low : WithBot Key) (high : WithTop Key) (items : List (Key × Value)) (ids : List PageId)
    (child : Node PageId Key Value) (repair : Repair Value) (next : PageId) (position : Nat) :
    Prop where
  fits : after.Fits
  len : after.len = memory.len
  tree : ∃ first before behind kept newIds node,
    after.Subtree (depth + 1) id low high kept newIds ∧ memory.Confined after ids newIds ∧
    after.heap id = some (.branch first (before ++ behind)) ∧
    (∀ entry ∈ before, entry.1 ≤ key) ∧
    (∀ entry ∈ behind, key < entry.1) ∧
    next = childAfter first before ∧ position = before.length ∧ after.heap next = some node ∧
    ∀ rounds, depth ≤ rounds -> ∃ lost, Drops key lost items kept ∧
      borrowedBy memory.heap rounds (borrowedBelow memory.heap key rounds) child repair =
        lost ++ borrowedBelow after.heap key rounds node

/-- How the repair of a child with few keys ends: there is no sibling, or
merging is refused, or the descent can go on. -/
inductive Fixed (key : Key) (memory : Memory Value) (depth : Nat) (id : PageId) (low : WithBot Key)
    (high : WithTop Key) (items : List (Key × Value)) (ids : List PageId)
    (child : Node PageId Key Value) (repair : Repair Value) :
    Except Stop (Option Descent) × Memory Value -> Prop
  | alone : repair = .keep -> Fixed key memory depth id low high items ids child repair
      (.ok none, memory)
  | refused {actual : Nat} : Fixed key memory depth id low high items ids child repair
      (.error (.fault (.error (.invalidPageSize actual pageSize))), memory)
  | prepared {next : PageId} {position : Nat} {after : Memory Value} :
      Prepared key memory after depth id low high items ids child repair next position ->
      Fixed key memory depth id low high items ids child repair
        (.ok (some (.next next (id, position))), after)

variable {left right child : Page Value} {header : PageHeader} {behind before : List (Key × PageId)}
  {separator : Key} {rightId : PageId}

theorem pageType_eq_of_holds {heap : Heap PageId Key Value} {lower : WithBot Key}
    {higher : WithTop Key} {others : List (Key × Value)} {below cells : List PageId}
    (leftHolds : Holds heap depth left.node low high items below)
    (rightHolds : Holds heap depth right.node lower higher others cells) :
    left.pageType = right.pageType := by
  cases depth <;> cases left <;> cases right <;>
    first | rfl | exact leftHolds.elim | exact rightHolds.elim

theorem two_le_of_lends {pageType : PageType} {keyCount : Nat}
    (lends : minKeysNonRoot pageType < keyCount) : 2 ≤ keyCount := by
  cases pageType with
  | internal =>
    rw [minKeysNonRoot_internal] at lends
    omega
  | leaf =>
    rw [minKeysNonRoot_leaf] at lends
    omega

variable (fits : memory.Fits) (tree : memory.Subtree (depth + 1) id low high items ids)
  {start : List (Key × PageId)} {childId : PageId}

include fits tree

theorem fixed_borrowFromLeft
    (stored : memory.pages[id]? = some (.internal header (start ++ (separator, childId) :: behind)))
    (upTo : ∀ entry ∈ start ++ [(separator, childId)], entry.1 ≤ key)
    (above : ∀ entry ∈ behind, key < entry.1)
    (childStored : memory.pages[childId]? = some child)
    (leftStored : memory.pages[childAfter header.leftChild start]? = some left)
    (few : child.keyCount ≤ minKeysNonRoot child.pageType)
    (lends : minKeysNonRoot child.pageType < left.keyCount) :
    Fixed key memory depth id low high items ids child.node (.borrowFromLeft left.node) ((do
      borrowFromLeft id header (start ++ (separator, childId) :: behind) (start.length + 1)
        (childAfter header.leftChild start) left child
      return some (Descent.next childId (id, start.length + 1))).run handle memory) := by
  rcases tree.neighbours (heap_of_page stored) with
    ⟨front, _, childOwn, back, _, _, _, _, _, _,
      itemsEq, idsEq, leftAt, childAt, leftHolds, childHolds, rowBetween, cut⟩
  cases leftAt.symm.trans (heap_of_page leftStored)
  cases childAt.symm.trans (heap_of_page childStored)
  have sameType := pageType_eq_of_holds leftHolds childHolds
  have small := fits.internal stored
  have many : 2 ≤ left.node.keyCount := by
    rw [Page.keyCount_node]
    exact two_le_of_lends lends
  rcases leftHolds.giveLast many with
    ⟨newKey, kept, lost, _, _, isLast, ownEq, belowEq, newBetween, keptHolds, lostEq⟩
  rcases @borrowFromLeft_run _ memory id (childAfter header.leftChild start) childId header separator
      start behind left child sameType few lends (fits _ _ leftStored) small with
    ⟨lender, _, isLender, isLastKey, lenderFits, ran⟩
  cases isLast.symm.trans isLastKey
  subst ownEq
  subst belowEq
  let parent : Page Value := .internal header (start ++ (newKey, childId) :: behind)
  let after := (memory.write (childAfter header.leftChild start) lender).write id parent
  rcases cut.distinct with ⟨leftNe, childNe, siblingsNe, apart⟩
  have outside : ∀ cell : PageId, cell ≠ id -> cell ≠ childAfter header.leftChild start ->
      after.pages[cell]? = memory.pages[cell]? := by
    intro cell notId notLeft
    rw [pages_write_of_ne notId, pages_write_of_ne notLeft]
  have childAfterwards : after.heap childId = some child.node := by
    rw [heap_eq_of_pages (outside childId childNe.symm siblingsNe.symm), childAt]
  have below : (newKey : WithBot Key) ≤ separator :=
    WithBot.coe_le_coe.mpr (WithTop.coe_le_coe.mp newBetween.2)
  have nodeAt : after.heap id = some (.branch header.leftChild
      (start ++ ([(newKey, childId)] ++ behind))) := by
    rw [heap_write, if_pos rfl]
    rfl
  have leftAfterwards : after.heap (childAfter header.leftChild start) =
      some left.node.withoutLast := by
    rw [heap_write, if_neg leftNe, heap_write, if_pos rfl, isLender]
  rcases cut.pair (rfl : after.nextPageId = memory.nextPageId) rfl nodeAt leftAfterwards childAfterwards
      (fun cell notId notLeft _ => outside cell notId notLeft) keptHolds
      (sublist_append_left _ _) (childHolds.widen below le_rfl) (List.Sublist.refl _)
      (newBetween.widen le_rfl rowBetween.2) with ⟨newIds, newTree, confined⟩
  rw [run_bind_ok ran]
  refine .prepared ⟨?_, rfl, header.leftChild, start ++ [(newKey, childId)], behind, _, newIds,
    child.node, newTree, idsEq ▸ confined, ?_, ?_, above, childAfter_snoc.symm, by simp,
    childAfterwards, ?_⟩
  · exact (fits.write _ lenderFits).writeInternal id (by simpa using small)
  · simpa using nodeAt
  · refine forall_mem_append.mpr
      ⟨fun entry old => upTo entry (mem_append_left _ old), forall_mem_singleton.mpr ?_⟩
    exact le_trans (WithBot.coe_le_coe.mp below) (upTo (separator, childId) (by simp))
  · intro rounds enough
    have separatorLe : separator ≤ key := upTo (separator, childId) (by simp)
    have others : ∀ item ∈ lost, item.1 ≠ key := by
      intro item member
      have under := (leftHolds.ordered.inside item (mem_append_right _ member)).2
      exact ne_of_lt (lt_of_lt_of_le (WithTop.coe_lt_coe.mp under) separatorLe)
    refine ⟨lost, ?_, ?_⟩
    · rw [itemsEq, append_assoc kept]
      exact ((Drops.all others).around kept childOwn).around front back
    · refine congrArg₂ _ (lostEq rounds enough) (borrowedBelow_frame childHolds ?_ key rounds).symm
      intro cell member
      have inside := apart cell (mem_append_right _ member)
      exact heap_eq_of_pages (outside cell inside.1 inside.2.1)

section Right

variable
    (stored : memory.pages[id]? = some (.internal header (before ++ (separator, rightId) :: behind)))
    (upTo : ∀ entry ∈ before, entry.1 ≤ key)

include stored upTo

section

variable (above : ∀ entry, entry ∈ (separator, rightId) :: behind -> key < entry.1)

include above

theorem fixed_borrowFromRight
    (childStored : memory.pages[childAfter header.leftChild before]? = some child)
    (rightStored : memory.pages[rightId]? = some right)
    (few : child.keyCount ≤ minKeysNonRoot child.pageType)
    (lends : minKeysNonRoot child.pageType < right.keyCount) :
    Fixed key memory depth id low high items ids child.node (.borrowFromRight right.node) ((do
      borrowFromRight id header (before ++ (separator, rightId) :: behind) before.length
        (childAfter header.leftChild before) child rightId right
      return some (Descent.next (childAfter header.leftChild before) (id, before.length))).run handle memory) := by
  rcases tree.neighbours (heap_of_page stored) with
    ⟨front, childOwn, _, back, _, _, _, _, _, _,
      itemsEq, idsEq, childAt, rightAt, childHolds, rightHolds, rowBetween, cut⟩
  cases childAt.symm.trans (heap_of_page childStored)
  cases rightAt.symm.trans (heap_of_page rightStored)
  have small := fits.internal stored
  have many : 2 ≤ right.node.keyCount := by
    rw [Page.keyCount_node]
    exact two_le_of_lends lends
  rcases rightHolds.giveFirst many with
    ⟨newKey, lost, kept, _, _, isSecond, ownEq, belowEq, newBetween, keptHolds, lostEq⟩
  rcases @borrowFromRight_run _ memory id (childAfter header.leftChild before) rightId header separator
      before behind child right (pageType_eq_of_holds rightHolds childHolds) few lends
      (fits _ _ rightStored) small with
    ⟨lender, _, isLender, isSecondKey, lenderFits, ran⟩
  cases isSecond.symm.trans isSecondKey
  subst ownEq
  subst belowEq
  let parent : Page Value := .internal header (before ++ (newKey, rightId) :: behind)
  let after := (memory.write rightId lender).write id parent
  rcases cut.distinct with ⟨childNe, rightNe, siblingsNe, apart⟩
  have outside : ∀ cell : PageId, cell ≠ id -> cell ≠ rightId ->
      after.pages[cell]? = memory.pages[cell]? := by
    intro cell notId notRight
    rw [pages_write_of_ne notId, pages_write_of_ne notRight]
  have childAfterwards : after.heap (childAfter header.leftChild before) = some child.node := by
    rw [heap_eq_of_pages (outside _ childNe.symm siblingsNe), childAt]
  have separatorLe : separator ≤ newKey := WithBot.coe_le_coe.mp newBetween.1
  have nodeAt : after.heap id = some (.branch header.leftChild
      (before ++ ([(newKey, rightId)] ++ behind))) := by
    rw [heap_write, if_pos rfl]
    rfl
  have rightAfterwards : after.heap rightId = some right.node.withoutFirst := by
    rw [heap_write, if_neg rightNe, heap_write, if_pos rfl, isLender]
  rcases cut.pair (rfl : after.nextPageId = memory.nextPageId) rfl nodeAt childAfterwards
      rightAfterwards (fun cell notId _ notRight => outside cell notId notRight)
      (childHolds.widen le_rfl (WithTop.coe_le_coe.mpr separatorLe))
      (List.Sublist.refl _) keptHolds (sublist_append_right _ _)
      (newBetween.widen rowBetween.1 le_rfl) with ⟨newIds, newTree, confined⟩
  have keyLt : key < separator := above (separator, rightId) mem_cons_self
  rw [run_bind_ok ran]
  refine .prepared ⟨?_, rfl, header.leftChild, before, (newKey, rightId) :: behind, _, newIds,
    child.node, newTree, idsEq ▸ confined, nodeAt, upTo, ?_, rfl, rfl, childAfterwards, ?_⟩
  · exact (fits.write _ lenderFits).writeInternal id (by simpa using small)
  · exact forall_mem_cons.mpr ⟨lt_of_lt_of_le keyLt separatorLe, (forall_mem_cons.mp above).2⟩
  · intro rounds enough
    have others : ∀ item ∈ lost, item.1 ≠ key := by
      intro item member
      have atLeast := (rightHolds.ordered.inside item (mem_append_left _ member)).1
      exact ne_of_gt (lt_of_lt_of_le keyLt (WithBot.coe_le_coe.mp atLeast))
    refine ⟨lost, ?_, ?_⟩
    · rw [itemsEq]
      exact ((Drops.all others).around childOwn kept).around front back
    · refine congrArg₂ _ (lostEq rounds enough) (borrowedBelow_frame childHolds ?_ key rounds).symm
      intro cell member
      have inside := apart cell (mem_append_left _ member)
      exact heap_eq_of_pages (outside cell inside.1 inside.2.2)

omit above in
/-- Two children with few keys become one, or nothing happens. -/
theorem fixed_merge (child : Node PageId Key Value)
    (above : ∀ entry ∈ behind, key < entry.1)
    (leftStored : memory.pages[childAfter header.leftChild before]? = some left)
    (rightStored : memory.pages[rightId]? = some right)
    (leftFew : left.keyCount ≤ minKeysNonRoot left.pageType)
    (rightFew : right.keyCount ≤ minKeysNonRoot left.pageType) :
    Fixed key memory depth id low high items ids child (.merge separator left.node right.node) ((do
      mergeChildren id header (before ++ (separator, rightId) :: behind) before.length
        (childAfter header.leftChild before) left right
      return some (Descent.next (childAfter header.leftChild before) (id, before.length))).run handle memory) := by
  rcases tree.neighbours (heap_of_page stored) with
    ⟨_, _, _, _, _, _, _, _, _, _,
      itemsEq, idsEq, leftAt, rightAt, leftHolds, rightHolds, rowBetween, cut⟩
  cases leftAt.symm.trans (heap_of_page leftStored)
  cases rightAt.symm.trans (heap_of_page rightStored)
  have small := fits.internal stored
  rcases @mergeChildren_run _ memory id (childAfter header.leftChild before) rightId header separator
      before behind left right (pageType_eq_of_holds rightHolds leftHolds) leftFew rightFew small with
    ⟨merged, isMerged, mergedFits, ran⟩ | ⟨_, ran⟩
  · have holds := leftHolds.merge rightHolds rowBetween
    let parent : Page Value := .internal header (before ++ behind)
    let after := (memory.write id parent).write (childAfter header.leftChild before) merged
    rcases cut.distinct with ⟨leftNe, _, _, apart⟩
    have outside : ∀ cell : PageId, cell ≠ id -> cell ≠ childAfter header.leftChild before ->
        after.pages[cell]? = memory.pages[cell]? := by
      intro cell notId notLeft
      rw [pages_write_of_ne notLeft, pages_write_of_ne notId]
    have nodeAt : after.heap id = some (.branch header.leftChild (before ++ behind)) := by
      rw [heap_write, if_neg leftNe.symm, heap_write, if_pos rfl]
      rfl
    have mergedAt : after.heap (childAfter header.leftChild before) =
        some (left.node.merge separator right.node) := by
      rw [heap_write, if_pos rfl, isMerged]
    rcases cut.merged (rfl : after.nextPageId = memory.nextPageId) rfl nodeAt mergedAt outside holds
      with ⟨newIds, newTree, confined⟩
    rw [run_bind_ok ran]
    refine .prepared ⟨?_, rfl, header.leftChild, before, behind, _, newIds, _, newTree,
      idsEq ▸ confined, nodeAt, upTo, above, rfl, rfl, mergedAt, ?_⟩
    · refine (fits.writeInternal id ?_).write _ mergedFits
      simp only [length_append, length_cons] at small ⊢
      omega
    · intro rounds _
      refine ⟨[], ?_, ?_⟩
      · rw [itemsEq]
        exact Drops.refl key _
      · refine (borrowedBelow_frame holds ?_ key rounds).symm
        intro cell member
        have inside := apart cell member
        exact heap_eq_of_pages (outside cell inside.1 inside.2.1)
  · rw [run_bind_error ran]
    exact .refused

theorem fixWithoutLender_right
    (childStored : memory.pages[childAfter header.leftChild before]? = some child)
    (few : child.keyCount ≤ minKeysNonRoot child.pageType) (left : Option (PageId × Page Value))
    {siblings : Option (Key × Node PageId Key Value)}
    (poor : ∀ other ∈ siblings, other.2.keyCount ≤ minKeys child.node) :
    Fixed key memory depth id low high items ids child.node
      (Repair.choose child.node siblings (rightSibling memory.heap ((separator, rightId) :: behind)))
      ((fixWithoutLender id header (before ++ (separator, rightId) :: behind) before.length
        (childAfter header.leftChild before) child left).run handle memory) := by
  rcases tree.neighbours (heap_of_page stored) with
    ⟨_, _, _, _, _, _, _, _, _, _, _, _, _, rightAt, _⟩
  rcases map_eq_some_iff.mp rightAt with ⟨right, rightStored, rfl⟩
  have rightIs : childIdAtPos header (before ++ (separator, rightId) :: behind) (before.length + 1) =
      rightId := by
    have whole := childIdAtPos_append header (before ++ [(separator, rightId)]) behind
    rwa [append_assoc, length_append, childAfter_snoc] at whole
  have noLender : siblings.filter (fun sibling => minKeys child.node < sibling.2.keyCount) = none := by
    rw [filter_eq_none_iff]
    intro other isLeft
    simpa using poor other isLeft
  have choice : Repair.choose child.node siblings
      (rightSibling memory.heap ((separator, rightId) :: behind)) =
        if minKeysNonRoot child.pageType < right.keyCount then .borrowFromRight right.node
        else .merge separator child.node right.node := by
    rw [rightSibling_cons, rightAt, map_some]
    unfold Repair.choose
    rw [if_neg (by simpa using few), noLender]
    simp only [minKeys_node, Page.keyCount_node]
  have inRange : before.length < (before ++ (separator, rightId) :: behind).length := by simp
  rw [choice]
  unfold fixWithoutLender
  rw [if_pos inRange, rightIs]
  rw [run_readPageOrFail_bind rightStored]
  by_cases lends : minKeysNonRoot child.pageType < right.keyCount
  · rw [if_pos lends, if_pos lends]
    exact fixed_borrowFromRight fits tree stored upTo above childStored rightStored few lends
  · rw [if_neg lends, if_neg lends]
    exact fixed_merge fits tree stored upTo child.node
      (fun entry member => above entry (mem_cons_of_mem _ member)) childStored rightStored few
      (le_of_not_gt lends)

end

end Right

theorem fixWithoutLender_left
    (stored : memory.pages[id]? = some (.internal header (start ++ [(separator, childId)])))
    (upTo : ∀ entry ∈ start, entry.1 ≤ key)
    (childStored : memory.pages[childId]? = some child)
    (leftStored : memory.pages[childAfter header.leftChild start]? = some left)
    (few : child.keyCount ≤ minKeysNonRoot child.pageType)
    (poor : left.keyCount ≤ minKeysNonRoot child.pageType) :
    Fixed key memory depth id low high items ids child.node
      (Repair.choose child.node (some (separator, left.node)) none)
      ((fixWithoutLender id header (start ++ [(separator, childId)]) (start.length + 1) childId child
        (some (childAfter header.leftChild start, left))).run handle memory) := by
  rcases tree.neighbours (heap_of_page stored) with
    ⟨_, _, _, _, _, _, _, _, _, _, _, _, leftAt, childAt, leftHolds, childHolds, _⟩
  cases leftAt.symm.trans (heap_of_page leftStored)
  cases childAt.symm.trans (heap_of_page childStored)
  have sameType := pageType_eq_of_holds leftHolds childHolds
  have choice : Repair.choose child.node (some (separator, left.node)) none =
      .merge separator left.node child.node := by
    unfold Repair.choose
    rw [if_neg (by simpa using few), filter_eq_none_iff.mpr (by simpa using poor)]
  have outOfRange : ¬ start.length + 1 < (start ++ [(separator, childId)]).length := by simp
  rw [choice]
  unfold fixWithoutLender
  rw [if_neg outOfRange]
  rw [Nat.add_sub_cancel]
  exact fixed_merge fits tree stored upTo child.node (by simp) leftStored childStored
    (sameType ▸ poor) (sameType ▸ few)

theorem fixChild_run (stored : memory.pages[id]? = some (.internal header (before ++ behind)))
    (upTo : ∀ entry ∈ before, entry.1 ≤ key)
    (above : ∀ entry ∈ behind, key < entry.1)
    (childStored : memory.pages[childAfter header.leftChild before]? = some child)
    (few : child.keyCount ≤ minKeysNonRoot child.pageType) :
    Fixed key memory depth id low high items ids child.node
      (Repair.choose child.node (leftSibling memory.heap header.leftChild before)
        (rightSibling memory.heap behind))
      ((fixChild id header (before ++ behind) before.length (childAfter header.leftChild before)
        child).run handle memory) := by
  unfold fixChild
  rcases eq_nil_or_concat' before with isNil | ⟨start, ⟨separator, childId⟩, rfl⟩
  · subst isNil
    have noLeft : (readLeftSibling header ([] ++ behind) ([] : List (Key × PageId)).length).run
        handle memory = (.ok none, memory) := rfl
    rw [run_bind_ok noLeft]
    cases behind with
    | nil =>
      refine .alone ?_
      unfold Repair.choose
      rw [if_neg (by simpa using few)]
      rfl
    | cons head =>
      exact fixWithoutLender_right fits tree stored upTo above childStored few none (by simp [leftSibling])
  · have wholeEq : start ++ [(separator, childId)] ++ behind = start ++ (separator, childId) :: behind :=
      append_assoc ..
    have lengthEq : (start ++ [(separator, childId)]).length = start.length + 1 := by simp
    have storedCut := stored
    rw [wholeEq] at storedCut
    rcases tree.neighbours (heap_of_page storedCut) with
      ⟨_, _, _, _, _, _, _, _, _, _, _, _, leftAt, _⟩
    rcases map_eq_some_iff.mp leftAt with ⟨left, leftStored, rfl⟩
    have leftRead : (readLeftSibling header (start ++ [(separator, childId)] ++ behind)
        (start ++ [(separator, childId)]).length).run handle memory =
          (.ok (some (childAfter header.leftChild start, left)), memory) := by
      unfold readLeftSibling
      rw [wholeEq, lengthEq, if_pos (Nat.succ_pos _), Nat.add_sub_cancel, childIdAtPos_append]
      rw [run_readPageOrFail_bind leftStored]
      rfl
    have siblingIs : leftSibling memory.heap header.leftChild (start ++ [(separator, childId)]) =
        some (separator, left.node) := by
      rw [leftSibling_snoc, leftAt, map_some]
    rw [run_bind_ok leftRead, siblingIs]
    by_cases lends : minKeysNonRoot child.pageType < left.keyCount
    · have choice : Repair.choose child.node (some (separator, left.node))
          (rightSibling memory.heap behind) = .borrowFromLeft left.node := by
        unfold Repair.choose
        rw [if_neg (by simpa using few), filter_eq_some_iff.mpr ⟨rfl, by simpa using lends⟩]
      rw [childAfter_snoc] at childStored
      rw [choice, filter_eq_some_iff.mpr ⟨rfl, by simpa using lends⟩]
      rw [wholeEq, lengthEq, childAfter_snoc]
      exact fixed_borrowFromLeft fits tree storedCut upTo above childStored leftStored few lends
    · have poor := le_of_not_gt lends
      rw [filter_eq_none_iff.mpr (by simpa using poor)]
      cases behind with
      | nil =>
        rw [childAfter_snoc] at childStored
        rw [lengthEq, childAfter_snoc]
        simp only [append_nil] at stored ⊢
        exact fixWithoutLender_left fits tree stored
          (fun entry member => upTo entry (mem_append_left _ member)) childStored leftStored few
          poor
      | cons head =>
        exact fixWithoutLender_right fits tree stored upTo above childStored few _ (by simpa using poor)

end Repairs

end Repairing

end BTree
end ScaleKv
