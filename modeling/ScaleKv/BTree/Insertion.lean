import ScaleKv.BTree.Links

namespace ScaleKv
namespace BTree

open Foundation List OrderedMap SearchTree Memory

/-!
# Insertion

An insertion splits every full page on its way down, so that the page it
descends to has room for one more entry.  A split moves pairs between pages but
leaves the pairs of the tree as they are; only the leaf at the end of the way
changes them.  The links between the leaves are kept along the way, whatever is
asked of the high keys, as long as a split and a stored key keep it.
-/

section Insertion

variable {Value : Type} {memory : Memory Value} {page : Page Value}

/-! ## Splitting a page -/

theorem middle_split {Entry : Type} {entries : List Entry} (nonempty : 0 < entries.length) :
    ∃ before middle behind, entries = before ++ middle :: behind ∧
      before.length = entries.length / 2 ∧ entries[entries.length / 2]? = some middle ∧
      entries.take (entries.length / 2) = before ∧
      entries.drop (entries.length / 2) = middle :: behind ∧
      entries.drop (entries.length / 2 + 1) = behind := by
  have inRange : entries.length / 2 < entries.length := by omega
  refine ⟨_, entries[entries.length / 2], _, ?_, ?_, List.getElem?_eq_getElem inRange, rfl,
    drop_eq_getElem_cons inRange, rfl⟩
  · rw [← drop_eq_getElem_cons inRange, take_append_drop]
  · exact length_take_of_le (by omega)

/-- The two pages that a full page is split into, and the separator between
them. -/
inductive Halves (id rightId : PageId) : Page Value -> Key -> Page Value -> Page Value -> Prop
  | leaf {header before behind middle} :
      before.length = 7 -> behind.length = 7 ->
      Halves id rightId (.leaf header (before ++ middle :: behind)) middle.1
        (.leaf { header with highKey := some middle.1, nextLeaf := some rightId } before)
        (.leaf { header with prevLeaf := some id } (middle :: behind))
  | internal {header before behind middle} :
      before.length = 314 -> behind.length = 313 ->
      Halves id rightId (.internal header (before ++ middle :: behind)) middle.1
        (.internal { header with highKey := some middle.1 } before)
        (.internal { header with leftChild := middle.2 } behind)

theorem split_full (id rightId : PageId) (atMost : page.keyCount ≤ maxKeysForPageType page.pageType)
    (full : page.hasRoomForOneMore = false) :
    ∃ separator left right, page.split id rightId = .ok (separator, left, right) ∧
      Halves id rightId page separator left right := by
  have notLess : ¬ page.keyCount < maxKeysForPageType page.pageType := by
    rw [← Page.hasRoomForOneMore_iff, full]
    exact Bool.false_ne_true
  cases page with
  | leaf header entries =>
    simp only [Page.keyCount, Page.pageType, maxKeysForPageType_leaf] at atMost notLess
    rcases @middle_split _ entries (by omega) with
      ⟨before, middle, behind, whole, _, atMiddle, taken, dropped, _⟩
    have lengths := congrArg List.length whole
    simp only [length_append, length_cons] at lengths
    refine ⟨middle.1, .leaf { header with highKey := some middle.1, nextLeaf := some rightId } before,
      .leaf { header with prevLeaf := some id } (middle :: behind), ?_, ?_⟩
    · show Page.splitLeaf id rightId header entries = _
      unfold Page.splitLeaf
      rw [atMiddle, taken, dropped]
      dsimp only
      rw [encodeLeaf_ok _ (by omega), encodeLeaf_ok _ (by simp only [length_cons]; omega)]
      rfl
    · rw [whole]
      exact .leaf (by omega) (by omega)
  | internal header entries =>
    simp only [Page.keyCount, Page.pageType, maxKeysForPageType_internal] at atMost notLess
    rcases @middle_split _ entries (by omega) with
      ⟨before, middle, behind, whole, _, atMiddle, taken, _, dropped⟩
    have lengths := congrArg List.length whole
    simp only [length_append, length_cons] at lengths
    refine ⟨middle.1, .internal { header with highKey := some middle.1 } before,
      .internal { header with leftChild := middle.2 } behind, ?_, ?_⟩
    · show Page.splitInternal header entries = _
      unfold Page.splitInternal
      rw [atMiddle, taken, dropped]
      dsimp only
      rw [encodeInternal_ok _ (by omega), encodeInternal_ok _ (by omega)]
      rfl
    · rw [whole]
      exact .internal (by omega) (by omega)

namespace Halves

variable {id rightId : PageId} {page left right : Page Value} {separator : Key} {depth : Nat}
variable {low : WithBot Key} {high : WithTop Key} {items : List (Key × Value)} {ids : List PageId}

theorem rooms (halves : Halves id rightId page separator left right) :
    left.hasRoomForOneMore = true ∧ right.hasRoomForOneMore = true := by
  rw [Page.hasRoomForOneMore_iff, Page.hasRoomForOneMore_iff]
  cases halves with
  | leaf leftLength rightLength =>
    simp [Page.keyCount, Page.pageType, maxKeysForPageType_leaf, leftLength, rightLength]
  | internal leftLength rightLength =>
    simp [Page.keyCount, Page.pageType, maxKeysForPageType_internal, leftLength, rightLength]

/-- Once the two pages are written, they hold the pairs of the page that was
split, and they are linked as it was. -/
structure Written (memory after : Memory Value) (depth : Nat) (id rightId : PageId) (low : WithBot Key)
    (high : WithTop Key) (items : List (Key × Value)) (separator : Key)
    (leftIds rightIds : List PageId) : Prop where
  row : Row (Represents after.heap depth) low high id [(separator, rightId)] items
    ((id :: leftIds) ++ (rightId :: rightIds))
  firstLeaf : after.firstLeaf depth id = memory.firstLeaf depth id
  linked : ∀ {rules : LinkRules Value} {next : Option PageId}, rules.Kept ->
    memory.Linked rules depth id high next ->
    LinkedRow (after.Linked rules depth) (after.firstLeaf depth) id [(separator, rightId)] high next ∧
      (rules.strict -> low < (separator : WithBot Key) ∧ (separator : WithTop Key) < high)

theorem written (halves : Halves id rightId page separator left right)
    (tree : Represents memory.heap depth id low high items ids)
    (stored : memory.pages[id]? = some page) :
    ∃ leftIds rightIds, ids = id :: (leftIds ++ rightIds) ∧
      ∀ after : Memory Value, after.pages[id]? = some left ->
        after.pages[rightId]? = some right ->
        (∀ cell : PageId, cell ∈ leftIds ++ rightIds ->
          after.pages[cell]? = memory.pages[cell]?) ->
        Written memory after depth id rightId low high items separator leftIds rightIds := by
  have node := heap_of_page stored
  cases depth with
  | zero =>
    rcases tree with ⟨leafNode, ordered, idsEq⟩
    cases halves with
    | internal => cases node.symm.trans leafNode
    | @leaf _ _ _ middle =>
      cases node.symm.trans leafNode
      rcases ordered.split with ⟨leftOrdered, rightOrdered, between⟩
      refine ⟨[], [], idsEq, fun after leftStored rightStored _ => ⟨?_, rfl, ?_⟩⟩
      · exact .cons ⟨heap_of_page leftStored, leftOrdered, rfl⟩ between
          (.last ⟨heap_of_page rightStored, rightOrdered, rfl⟩)
      · rintro _ _ kept ⟨_, _, otherStored, fence, isNext⟩
        cases otherStored.symm.trans stored
        refine ⟨⟨⟨_, _, leftStored, kept.left ?_, rfl⟩,
          ⟨_, _, rightStored, kept.right fence, isNext⟩⟩, fun _ => ⟨?_, ?_⟩⟩
        · exact fun item member => WithTop.coe_lt_coe.mp (leftOrdered.inside item member).2
        · exact ordered.low_lt (ne_nil_of_length_pos (by omega))
        · exact (ordered.inside middle (by simp)).2
  | succ depth =>
    rcases tree with ⟨_, _, _, branchNode, row, idsEq⟩
    cases halves with
    | leaf => cases node.symm.trans branchNode
    | @internal header before behind middle =>
      cases node.symm.trans branchNode
      rcases row_append.mp row with
        ⟨_, _, leftIds, rightIds, itemsEq, belowEq, between, leftRow, rightRow⟩
      refine ⟨leftIds, rightIds, by rw [idsEq, belowEq], ?_⟩
      intro after leftStored rightStored agree
      have agreeLeft := fun cell member => agree cell (mem_append_left rightIds member)
      have agreeRight := fun cell member => agree cell (mem_append_right leftIds member)
      rcases leftRow.child_of_mem header.leftChild mem_cons_self with
        ⟨_, _, _, _, firstTree, inLeft⟩
      rcases rightRow.child_of_mem middle.2 mem_cons_self with
        ⟨_, _, _, _, middleTree, inRight⟩
      have sameFirst : after.firstLeaf depth header.leftChild =
          memory.firstLeaf depth header.leftChild :=
        firstLeaf_frame firstTree (fun cell member => agreeLeft cell (inLeft cell member))
      have sameMiddle : after.firstLeaf depth middle.2 = memory.firstLeaf depth middle.2 :=
        firstLeaf_frame middleTree (fun cell member => agreeRight cell (inRight cell member))
      subst itemsEq
      refine ⟨?_, ?_, ?_⟩
      · refine .cons ⟨header.leftChild, before, leftIds, heap_of_page leftStored, ?_, rfl⟩
          between (.last ⟨middle.2, behind, rightIds, heap_of_page rightStored, ?_, rfl⟩)
        · exact leftRow.map (fun _ _ _ _ _ inside holds => holds.frame (fun cell member =>
            heap_eq_of_pages (agreeLeft cell (inside cell member))))
        · exact rightRow.map (fun _ _ _ _ _ inside holds => holds.frame (fun cell member =>
            heap_eq_of_pages (agreeRight cell (inside cell member))))
      · rw [firstLeaf_internal leftStored, firstLeaf_internal stored, sameFirst]
      · rintro _ _ _ ⟨_, _, otherStored, separators, linked⟩
        cases otherStored.symm.trans stored
        rcases linkedRow_append.mp linked with ⟨leftLinked, rightLinked⟩
        have rightStart : after.firstLeaf (depth + 1) rightId = memory.firstLeaf depth middle.2 :=
          (firstLeaf_internal rightStored).trans sameMiddle
        refine ⟨⟨⟨_, before, leftStored, ?_, ?_⟩, ⟨_, behind, rightStored, ?_, ?_⟩⟩, ?_⟩
        · intro strict
          rcases pairwise_append.mp (separators strict).1 with ⟨ascending, _, across⟩
          exact ⟨ascending, fun entry member => WithTop.coe_lt_coe.mpr
            (across entry member middle mem_cons_self)⟩
        · rw [rightStart]
          exact linkedRow_map leftRow agreeLeft (fun tree agree linked => linked.frame tree agree)
            leftLinked
        · intro strict
          rcases separators strict with ⟨ascending, bounded⟩
          exact ⟨(pairwise_cons.mp (pairwise_append.mp ascending).2.1).2,
            fun entry member => bounded entry (by simp [member])⟩
        · exact linkedRow_map rightRow agreeRight
            (fun tree agree linked => linked.frame tree agree) rightLinked
        · intro strict
          rcases separators strict with ⟨ascending, bounded⟩
          rcases exists_mem_of_ne_nil before (ne_nil_of_length_pos (by omega)) with
            ⟨entry, member⟩
          have less := (pairwise_append.mp ascending).2.2 entry member middle mem_cons_self
          refine ⟨?_, bounded middle (by simp)⟩
          exact lt_of_le_of_lt (leftRow.between entry member).1 (WithBot.coe_lt_coe.mpr less)

end Halves

/-! ## Splitting a child -/

section Descent

variable {depth : Nat} {id : PageId} {low : WithBot Key} {high : WithTop Key}
variable {items : List (Key × Value)} {ids : List PageId}

theorem Page.fits_of_room (room : page.hasRoomForOneMore = true) :
    page.keyCount ≤ maxKeysForPageType page.pageType :=
  le_of_lt ((Page.hasRoomForOneMore_iff page).mp room)

variable {before behind : List (Key × PageId)} {header : PageHeader} {key : Key} {value : Value}
  {rounds : Nat}

theorem separators_insert {rules : LinkRules Value} {separator : Key} {rightId : PageId}
    (separators : rules.Separators high (before ++ behind))
    (cuts : rules.strict -> lowAfter low before < (separator : WithBot Key) ∧
      (separator : WithTop Key) < highBefore high behind) :
    rules.Separators high (before ++ (separator, rightId) :: behind) := by
  intro strict
  rcases separators strict with ⟨ascending, bounded⟩
  rcases pairwise_append.mp ascending with ⟨leftAscending, rightAscending, across⟩
  rcases cuts strict with ⟨lower, upper⟩
  have below : ∀ entry ∈ before, entry.1 < separator := by
    intro entry member
    rcases eq_nil_or_concat' before with isNil | ⟨_, last, rfl⟩
    · simp [isNil] at member
    · have lastLess : last.1 < separator := WithBot.coe_lt_coe.mp (by simpa [lowAfter] using lower)
      rcases mem_append.mp member with inStart | isLast
      · exact lt_trans ((pairwise_append.mp leftAscending).2.2 entry inStart last (by simp)) lastLess
      · rw [mem_singleton.mp isLast]
        exact lastLess
  have above : ∀ entry ∈ behind, separator < entry.1 := by
    intro entry member
    cases behind with
    | nil => simp at member
    | cons head tail =>
      have headAbove : separator < head.1 := WithTop.coe_lt_coe.mp upper
      rcases mem_cons.mp member with isHead | inTail
      · rw [isHead]
        exact headAbove
      · exact lt_trans headAbove ((pairwise_cons.mp rightAscending).1 entry inTail)
  constructor
  · refine pairwise_append.mpr ⟨leftAscending, pairwise_cons.mpr ⟨above, rightAscending⟩, ?_⟩
    exact fun entry member => forall_mem_cons.mpr ⟨below entry member, across entry member⟩
  · rcases forall_mem_append.mp bounded with ⟨inBefore, inBehind⟩
    refine forall_mem_append.mpr ⟨inBefore, forall_mem_cons.mpr ⟨?_, inBehind⟩⟩
    cases behind with
    | nil => simpa [highBefore] using upper
    | cons head tail => exact lt_trans upper (bounded head (by simp))

theorem splitChildAndUpdateParent_run {child : Page Value} (fits : memory.Fits)
    (tree : memory.Subtree (depth + 1) id low high items ids)
    (stored : memory.pages[id]? = some (.internal header (before ++ behind)))
    (childStored : memory.pages[childAfter header.leftChild before]? = some child)
    (full : child.hasRoomForOneMore = false) (room : (before ++ behind).length < 628) :
    ∃ separator after newIds,
      (splitChildAndUpdateParent id header (before ++ behind) (childAfter header.leftChild before)
        child before.length).run handle memory =
          (.ok (separator, memory.nextPageId), after) ∧
      after.Fits ∧ after.len = memory.len ∧
      after.Subtree (depth + 1) id low high items newIds ∧ memory.Confined after ids newIds ∧
      memory.KeepsLinks after (depth + 1) id high ∧
      after.pages[id]? =
        some (.internal header (before ++ (separator, memory.nextPageId) :: behind)) ∧
      ∀ cell, cell = childAfter header.leftChild before ∨ cell = memory.nextPageId ->
        ∃ page, after.pages[cell]? = some page ∧ page.hasRoomForOneMore = true := by
  have node := heap_of_page stored
  rcases @Memory.Subtree.cut _ _ _ _ _ _ _ _ header.leftChild before [] behind tree node with
    ⟨_, _, _, leftIds, _, rightIds, itemsEq, idsEq, run, cut⟩
  rcases split_full (childAfter header.leftChild before) memory.nextPageId
      (fits _ _ childStored) full with ⟨separator, leftPage, rightPage, split, halves⟩
  rcases halves.written (row_nil.mp run) childStored with ⟨leftCells, rightCells, ownEq, written⟩
  rcases halves.rooms with ⟨leftRoom, rightRoom⟩
  let childId := childAfter header.leftChild before
  let rightId := memory.nextPageId
  let parent : Page Value := .internal header (before ++ (separator, rightId) :: behind)
  let after : Memory Value :=
    ((({ memory with nextPageId := rightId + 1 } : Memory Value).write childId leftPage).write rightId
      rightPage).write id parent
  have lengths : (before ++ (separator, rightId) :: behind).length ≤ 628 := by
    simp only [length_append, length_cons] at room ⊢
    omega
  have ran : (splitChildAndUpdateParent id header (before ++ behind) childId child
      before.length).run handle memory = (.ok (separator, rightId), after) := by
    unfold splitChildAndUpdateParent
    rw [run_allocPageId_bind, split, run_computes_ok_bind]
    rw [run_writePage_bind, run_writePage_bind,
      insertIdx_append_length, encodeInternal_ok header lengths]
    rfl
  subst ownEq
  have distinct := cut.nodup
  have allocated := cut.allocated
  simp only [nodup_cons, nodup_append, mem_append, mem_cons] at distinct
  simp only [cons_append, mem_append, mem_cons] at allocated
  have childNe : id ≠ childId := by grind
  have idOld : rightId ≠ id := ne_of_gt (allocated id (by simp))
  have childOld : rightId ≠ childId := ne_of_gt (allocated childId (by simp [childId]))
  have pageAt : ∀ cell : PageId, after.pages[cell]? = if id = cell then some parent
      else if rightId = cell then some rightPage
      else if childId = cell then some leftPage else memory.pages[cell]? := by
    intro cell
    rw [pages_write, pages_write, pages_write]
  have agree : ∀ cell : PageId, cell ≠ id -> cell ≠ childId -> cell < memory.nextPageId ->
      after.pages[cell]? = memory.pages[cell]? := by
    intro cell notId notChild old
    rw [pageAt, if_neg (Ne.symm notId), if_neg (ne_of_gt old), if_neg (Ne.symm notChild)]
  have parentAt : after.pages[id]? =
      some (.internal header (before ++ ([(separator, rightId)] ++ behind))) := by
    rw [pageAt, if_pos rfl]
    rfl
  have storedCut : memory.pages[id]? = some (.internal header (before ++ ([] ++ behind))) := stored
  have pages := written after (by rw [pageAt, if_neg childNe, if_neg childOld, if_pos rfl])
    (by rw [pageAt, if_neg idOld.symm, if_pos rfl])
    (by
      intro cell member
      simp only [mem_append] at member
      exact agree cell (by grind) (by grind) (by grind))
  have confined : memory.Confined after (id :: childId :: (leftCells ++ rightCells))
      (id :: ((childId :: leftCells) ++ (rightId :: rightCells))) := by
    refine ⟨?_, Nat.le_succ _, ?_, rfl⟩
    · intro cell notIn old
      simp only [mem_cons, not_or] at notIn
      exact agree cell notIn.1 notIn.2.1 old
    · intro cell member
      simp only [mem_append, mem_cons] at member ⊢
      grind
  have patched := cut.patch (heap_of_page parentAt) pages.row confined ?_ ?_
  · rw [← itemsEq, ← idsEq] at patched
    refine ⟨separator, after, _, ran, ?_, rfl, patched.1, patched.2, ?_, parentAt, ?_⟩
    · refine Memory.Fits.write (Memory.Fits.write (Memory.Fits.write ?_ childId
        (Page.fits_of_room leftRoom)) rightId (Page.fits_of_room rightRoom)) id ?_
      · exact fits
      · exact lengths.trans maxKeysForPageType_internal.ge
    · have agreeAround : ∀ cell : PageId, cell ∈ leftIds ∨ cell ∈ rightIds ->
          after.pages[cell]? = memory.pages[cell]? := by
        intro cell member
        exact agree cell (by grind) (by grind) (allocated cell (by tauto))
      refine ⟨cut.firstLeaf_eq storedCut agreeAround parentAt pages.firstLeaf, ?_⟩
      intro _ _ kept linked
      rcases linked.row storedCut with ⟨separators, row⟩
      rcases linkedRow_cut.mp row with ⟨_, childLinked, _⟩
      rcases pages.linked kept childLinked with ⟨newRow, cuts⟩
      exact linked.patch cut storedCut agreeAround parentAt pages.firstLeaf
        (separators_insert separators cuts) newRow
    · rintro _ (isChild | isRight)
      · exact ⟨leftPage, by rw [isChild, pageAt, if_neg childNe, if_neg childOld, if_pos rfl], leftRoom⟩
      · exact ⟨rightPage, by rw [isRight, pageAt, if_neg idOld.symm, if_pos rfl], rightRoom⟩
  · simp only [nodup_cons, nodup_append, mem_append, mem_cons]
    grind
  · intro cell member
    simp only [mem_append, mem_cons] at member
    show cell < rightId + 1
    grind

/-! ## The descent -/

theorem insertIntoLeaf_run (value : Value) (fits : memory.Fits)
    (tree : memory.Subtree 0 id low high items ids)
    (stored : memory.pages[id]? = some (.leaf header items)) (room : items.length < 15)
    (inside : Inside low high key) :
    ∃ after, (insertIntoLeaf id header items key value).run handle memory =
        (.ok (), after) ∧
      after.Fits ∧ after.Subtree 0 id low high (upsert key value items) ids ∧
      memory.Confined after ids ids ∧ memory.KeepsLinks after 0 id high ∧
      after.len + items.length = memory.len + (upsert key value items).length := by
  rcases tree with ⟨⟨_, ordered, idsEq⟩, nodup, allocated⟩
  -- The leaf is written with the new items; only the counter depends on the case.
  have written : ∀ len, (upsert key value items).length ≤ 15 ->
      let after : Memory Value :=
        { memory.write id (.leaf header (upsert key value items)) with len := len }
      after.Fits ∧ after.Subtree 0 id low high (upsert key value items) ids ∧
        memory.Confined after ids ids ∧ memory.KeepsLinks after 0 id high := by
    intro len small after
    refine ⟨?_, ⟨⟨?_, ordered_upsert ordered inside, idsEq⟩, nodup, allocated⟩,
      ⟨?_, le_rfl, fun cell member => .inl member, rfl⟩, rfl, ?_⟩
    · exact fits.writeLeaf id small
    · exact (heap_write ..).trans (if_pos rfl)
    · intro cell notIn _
      refine pages_write_of_ne ?_
      rintro rfl
      exact notIn (by simp [idsEq])
    · rintro _ _ kept ⟨_, _, otherStored, fence, isNext⟩
      cases otherStored.symm.trans stored
      exact ⟨header, _, (pages_write ..).trans (if_pos rfl), kept.upsert fence inside.2, isNext⟩
  have located := findKeyPos_located key ordered.ascending
  unfold insertIntoLeaf
  generalize findKeyPos items key = outcome at located
  cases located with
  | @present _ _ _ below above =>
    rw [upsert_present below above] at *
    dsimp only
    rw [set_append_length, run_writePage]
    simp only [length_append, length_cons] at room written ⊢
    rcases written memory.len (by omega) with ⟨newFits, newTree, confined, keeps⟩
    exact ⟨_, rfl, newFits, newTree, confined, keeps, rfl⟩
  | @absent before behind below above =>
    rw [upsert_absent below above] at *
    dsimp only
    have hasRoom := (pageHasRoomForOneMore_iff .leaf (before ++ behind).length).mpr
      (by rwa [maxKeysForPageType_leaf])
    rw [Page.rebuildWithInsert, if_pos hasRoom, insertIdx_append_length,
      run_computes_ok_bind, run_writePage_bind, run_addLen]
    simp only [length_append, length_cons] at room written ⊢
    rcases written (memory.len + 1) (by omega) with ⟨newFits, newTree, confined, keeps⟩
    refine ⟨_, rfl, newFits, newTree, confined, keeps, ?_⟩
    show memory.len + 1 + _ = _
    omega

/-- An insertion below a page has returned. -/
structure Inserted (key : Key) (value : Value) (memory after : Memory Value) (depth : Nat)
    (id : PageId) (low : WithBot Key) (high : WithTop Key) (items : List (Key × Value))
    (ids : List PageId) : Prop where
  fits : after.Fits
  tree : ∃ newIds, after.Subtree depth id low high (upsert key value items) newIds ∧
    memory.Confined after ids newIds
  links : memory.KeepsLinks after depth id high
  len : after.len + items.length = memory.len + (upsert key value items).length

/-- The loop returns if it has a round for each level, and it stores the value. -/
def LoopInserts (key : Key) (value : Value) (rounds depth : Nat) : Prop :=
  ∀ {memory : Memory Value} {id : PageId} {low : WithBot Key} {high : WithTop Key}
    {items : List (Key × Value)} {ids : List PageId}, memory.Fits ->
    memory.Subtree depth id low high items ids -> Inside low high key ->
    (∃ page, memory.pages[id]? = some page ∧ page.hasRoomForOneMore = true) ->
    ∃ outcome after, (insertLoop key value rounds id).run handle memory =
        (outcome, after) ∧
      (outcome = .error .diverged ∧ rounds ≤ depth ∨
        outcome = .ok () ∧ Inserted key value memory after depth id low high items ids)

theorem loopInserts_leaf (key : Key) (value : Value) (rounds : Nat) :
    LoopInserts key value (rounds + 1) 0 := by
  intro _ _ _ _ _ ids fits tree inside room
  rcases leafPage tree.represents.1 with ⟨_, stored⟩
  rcases room with ⟨_, pageStored, hasRoom⟩
  cases pageStored.symm.trans stored
  have small := (Page.hasRoomForOneMore_iff _).mp hasRoom
  simp only [Page.keyCount, Page.pageType, maxKeysForPageType_leaf] at small
  rcases insertIntoLeaf_run value fits tree stored small inside with
    ⟨after, ran, newFits, newTree, confined, keeps, len⟩
  refine ⟨_, after, ?_, .inr ⟨rfl, newFits, ⟨ids, newTree, confined⟩, keeps, len⟩⟩
  unfold insertLoop
  rw [run_readPageOrFail_bind stored]
  exact ran

theorem loopInserts_child (loop : LoopInserts key value rounds depth) (fits : memory.Fits)
    (tree : memory.Subtree (depth + 1) id low high items ids)
    (stored : memory.pages[id]? = some (.internal header (before ++ behind)))
    (upTo : ∀ entry ∈ before, entry.1 ≤ key)
    (above : ∀ entry ∈ behind, key < entry.1) (inside : Inside low high key)
    (room : ∃ page, memory.pages[childAfter header.leftChild before]? = some page ∧
      page.hasRoomForOneMore = true) :
    ∃ outcome after, (insertLoop key value rounds (childAfter header.leftChild before)).run
        handle memory = (outcome, after) ∧
      (outcome = .error .diverged ∧ rounds + 1 ≤ depth + 1 ∨
        outcome = .ok () ∧ Inserted key value memory after (depth + 1) id low high items ids) := by
  have node := heap_of_page stored
  rcases tree.child node upTo above inside with
    ⟨_, _, _, _, _, _, itemsEq, idsEq, child, childInside, lower, upper, cut⟩
  rcases loop fits child childInside room with
    ⟨outcome, after, ran, ⟨isDiverged, few⟩ | ⟨isOk, newFits, ⟨_, newChild, confined⟩, keeps, _⟩⟩
  · exact ⟨outcome, after, ran, .inl ⟨isDiverged, Nat.succ_le_succ few⟩⟩
  · refine ⟨outcome, after, ran, .inr ⟨isOk, newFits, ?_, keeps.lift stored cut confined, ?_⟩⟩
    · rw [itemsEq, idsEq, upsert_append lower upper]
      exact cut.exchange node newChild confined
    · rw [itemsEq, upsert_append lower upper]
      simp only [length_append]
      omega

theorem loopInserts_internal (loop : LoopInserts key value rounds depth) :
    LoopInserts key value (rounds + 1) (depth + 1) := by
  intro memory id low high items _ fits tree inside room
  rcases tree.represents with ⟨_, _, below, node, row, _⟩
  rcases internalPage node with ⟨header, stored, rfl⟩
  rcases childInsertPosForKey_spec key row.ascending with
    ⟨before, behind, rfl, position, upTo, above⟩
  rcases tree.focus node upTo above inside with ⟨_, _, _, _, _, _, _, child, _⟩
  rcases child.stored with ⟨childPage, childStored⟩
  rcases room with ⟨_, pageStored, hasRoom⟩
  cases pageStored.symm.trans stored
  unfold insertLoop
  rw [run_readPageOrFail_bind stored]
  dsimp only
  rw [position, childIdAtPos_append, run_readPageOrFail_bind childStored]
  by_cases childRoom : childPage.hasRoomForOneMore = true
  · rw [if_pos childRoom]
    exact loopInserts_child loop fits tree stored upTo above inside ⟨childPage, childStored, childRoom⟩
  · have parentRoom : pageHasRoomForOneMore .internal (before ++ behind).length = true := hasRoom
    have small := (pageHasRoomForOneMore_iff _ _).mp parentRoom
    rw [maxKeysForPageType_internal] at small
    rcases splitChildAndUpdateParent_run fits tree stored childStored
        (Bool.not_eq_true _ ▸ childRoom) small with
      ⟨separator, current, newIds, ran, newFits, sameLen, newTree, confined, keeps, newStored, halves⟩
    rw [if_neg childRoom, if_neg (by rw [parentRoom]; decide), Program.run_bind_ok ran]
    -- The separator of the two halves decides in which of them the key belongs.
    have below : ∃ outcome after, (if separator ≤ key
          then insertLoop key value rounds memory.nextPageId
          else insertLoop key value rounds (childAfter header.leftChild before)).run
          handle current = (outcome, after) ∧
        (outcome = .error .diverged ∧ rounds + 1 ≤ depth + 1 ∨ outcome = .ok () ∧
          Inserted key value current after (depth + 1) id low high items newIds) := by
      by_cases goesRight : separator ≤ key
      · rw [if_pos goesRight]
        have rightChild : childAfter header.leftChild (before ++ [(separator, memory.nextPageId)]) =
            memory.nextPageId := childAfter_snoc
        rw [← rightChild]
        refine loopInserts_child loop newFits newTree ?_ ?_ above inside ?_
        · rw [append_assoc]
          exact newStored
        · exact forall_mem_append.mpr ⟨upTo, forall_mem_singleton.mpr goesRight⟩
        · rw [rightChild]
          exact halves _ (.inr rfl)
      · rw [if_neg goesRight]
        refine loopInserts_child loop newFits newTree newStored upTo ?_ inside (halves _ (.inl rfl))
        exact forall_mem_cons.mpr ⟨lt_of_not_ge goesRight, above⟩
    rcases below with ⟨outcome, after, ranBelow, diverged |
      ⟨isOk, lastFits, ⟨lastIds, lastTree, lastConfined⟩, lastKeeps, len⟩⟩
    · exact ⟨outcome, after, ranBelow, .inl diverged⟩
    · exact ⟨outcome, after, ranBelow, .inr ⟨isOk, lastFits,
        ⟨lastIds, lastTree, confined.trans lastConfined⟩, keeps.trans lastKeeps,
        by rw [len, sameLen]⟩⟩

theorem insertLoop_run (key : Key) (value : Value) (rounds depth : Nat) :
    LoopInserts key value rounds depth := by
  induction rounds generalizing depth with
  | zero =>
    intro _ _ _ _ _ _ _ _ _ _
    exact ⟨_, _, rfl, .inl ⟨rfl, Nat.zero_le _⟩⟩
  | succ rounds ih =>
    cases depth with
    | zero => exact loopInserts_leaf key value rounds
    | succ depth => exact loopInserts_internal (ih depth)

end Descent

/-! ## The call -/

variable {depth : Nat} {items : List (Key × Value)}

theorem ensureRootNotFull_run (tree : memory.Tree depth items) :
    ∃ after newDepth, (ensureRootNotFull : TreeProgram Value Unit).run handle memory =
        (.ok (), after) ∧
      after.Tree newDepth items ∧ newDepth ≤ depth + 1 ∧ after.len = memory.len ∧
      (∀ {rules : LinkRules Value}, rules.Kept -> memory.Linked rules depth memory.root ⊤ none ->
        after.Linked rules newDepth after.root ⊤ none) ∧
      ∃ page, after.pages[after.root]? = some page ∧ page.hasRoomForOneMore = true := by
  rcases tree with ⟨fits, ids, subtree⟩
  rcases subtree.stored with ⟨root, stored⟩
  unfold ensureRootNotFull
  rw [run_rootPageId_bind, run_readPageOrFail_bind stored]
  by_cases room : root.hasRoomForOneMore = true
  · rw [if_pos room]
    exact ⟨memory, depth, rfl, ⟨fits, ids, subtree⟩, Nat.le_succ _, rfl, fun _ linked => linked, root,
      stored, room⟩
  · let rightId := memory.nextPageId
    let newRootId := memory.nextPageId + 1
    rcases split_full memory.root rightId (fits _ _ stored) (Bool.not_eq_true _ ▸ room) with
      ⟨separator, left, right, split, halves⟩
    rcases halves.written subtree.represents stored with ⟨leftIds, rightIds, idsEq, written⟩
    rcases halves.rooms with ⟨leftRoom, rightRoom⟩
    let header : PageHeader :=
      { PageHeader.new (min 255 (root.header.level + 1)) with leftChild := memory.root }
    let newRoot : Page Value := .internal header [(separator, rightId)]
    let after : Memory Value :=
      { pages := ((memory.pages.insert memory.root left).insert rightId right).insert newRootId newRoot
        nextPageId := newRootId + 1
        root := newRootId
        len := memory.len }
    have newRoom : newRoot.hasRoomForOneMore = true := by
      rw [Page.hasRoomForOneMore_iff]
      exact (by decide : 1 < maxKeysForPageType .internal)
    have pageAt : ∀ cell : PageId, after.pages[cell]? = if newRootId = cell then some newRoot
        else if rightId = cell then some right
        else if memory.root = cell then some left else memory.pages[cell]? := by
      intro cell
      rw [lookup_insert, lookup_insert, lookup_insert]
    have rootAt : after.pages[newRootId]? = some newRoot := by rw [pageAt, if_pos rfl]
    have old : ∀ cell ∈ ids, rightId ≠ cell ∧ newRootId ≠ cell := by
      intro cell member
      have below := subtree.allocated cell member
      exact ⟨ne_of_gt below, ne_of_gt (Nat.lt_succ_of_lt below)⟩
    have rightNe : newRootId ≠ rightId := Nat.succ_ne_self _
    have distinct := subtree.nodup
    rw [idsEq] at old distinct
    simp only [mem_cons, mem_append, nodup_cons, nodup_append] at old distinct
    have rootOld := old memory.root (.inl rfl)
    have pages := written after (by rw [pageAt, if_neg rootOld.2, if_neg rootOld.1, if_pos rfl])
      (by rw [pageAt, if_neg rightNe, if_pos rfl])
      (by
        intro cell member
        simp only [mem_append] at member
        rw [pageAt, if_neg (by grind), if_neg (by grind), if_neg (by grind)])
    rw [if_neg room]
    refine ⟨after, depth + 1, ?_, ⟨?_, newRootId :: ((memory.root :: leftIds) ++
      (rightId :: rightIds)), ⟨⟨_, _, _, heap_of_page rootAt, pages.row, rfl⟩, ?_, ?_⟩⟩,
      le_rfl, rfl, ?_, newRoot, rootAt, newRoom⟩
    · rw [run_allocPageId_bind, split, run_computes_ok_bind]
      rw [run_writePage_bind, run_writePage_bind, encodeInternal_ok header (by simp)]
      rfl
    · exact ((fits.write memory.root (Page.fits_of_room leftRoom)).write rightId
        (Page.fits_of_room rightRoom)).write newRootId (Page.fits_of_room newRoom)
    · simp only [nodup_cons, nodup_append, mem_append, mem_cons]
      grind
    · intro cell member
      have below := subtree.allocated cell
      rw [idsEq] at below
      simp only [mem_append, mem_cons] at member below
      grind
    · intro rules kept linked
      refine ⟨header, [(separator, rightId)], rootAt, fun _ => ⟨by simp, ?_⟩,
        (pages.linked kept linked).1⟩
      intro entry _
      exact WithTop.coe_lt_top entry.1

/-- `insert` returns if it has a round for each level of the tree it leaves.
It then stores the value, counts the key if it is new and keeps the links. -/
theorem insert_run (rounds : Nat) (key : Key) (value : Value) (tree : memory.Tree depth items) :
    ∃ outcome after, (insert rounds key value).run handle memory = (outcome, after) ∧
      (outcome = .error .diverged ∧ rounds ≤ depth + 1 ∨
        outcome = .ok () ∧ after.len + items.length = memory.len + (upsert key value items).length ∧
          ∃ newDepth, after.Tree newDepth (upsert key value items) ∧
            ∀ {rules : LinkRules Value}, rules.Kept ->
              memory.Linked rules depth memory.root ⊤ none ->
              after.Linked rules newDepth after.root ⊤ none) := by
  rcases ensureRootNotFull_run tree with
    ⟨_, newDepth, ran, ⟨fits, _, subtree⟩, deep, sameLen, rootLinks, room⟩
  have inside : Inside (⊥ : WithBot Key) ⊤ key := ⟨bot_le, WithTop.coe_lt_top key⟩
  rcases insertLoop_run key value rounds newDepth fits subtree inside room with
    ⟨outcome, after, ranLoop, ⟨isDiverged, few⟩ |
      ⟨isOk, newFits, ⟨newIds, newTree, confined⟩, keeps, len⟩⟩
  · refine ⟨outcome, after, ?_, .inl ⟨isDiverged, le_trans few deep⟩⟩
    unfold insert
    rw [Program.run_bind_ok ran, run_rootPageId_bind]
    exact ranLoop
  · refine ⟨outcome, after, ?_, .inr ⟨isOk, by rw [len, sameLen], newDepth, ⟨newFits, newIds, ?_⟩, ?_⟩⟩
    · unfold insert
      rw [Program.run_bind_ok ran, run_rootPageId_bind]
      exact ranLoop
    · rw [confined.root]
      exact newTree
    · intro rules kept linked
      rw [confined.root]
      exact keeps.2 kept (rootLinks kept linked)

end Insertion

end BTree
end ScaleKv
