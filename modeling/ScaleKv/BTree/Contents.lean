import ScaleKv.BTree.Memory

namespace ScaleKv
namespace BTree

open Foundation List Option OrderedMap SearchTree

/-!
# The pages as a search tree

This module connects the page functions with the search tree that the pages
form: which runs of entries fit, where the searches inside a page end, what the
requests of a program do to the nodes, and how a call that works below one page
looks from the page above it.
-/

/-! ## Sizes -/

theorem maxKeysForPageType_leaf : maxKeysForPageType .leaf = 15 := by decide

theorem maxKeysForPageType_internal : maxKeysForPageType .internal = 628 := by decide

theorem pageHasRoomForOneMore_iff (pageType : PageType) (keyCount : Nat) :
    pageHasRoomForOneMore pageType keyCount = true <-> keyCount < maxKeysForPageType pageType := by
  rw [pageHasRoomForOneMore, decide_eq_true_iff]
  cases pageType with
  | internal =>
    rw [maxKeysForPageType_internal]
    simp only [headerSize, offsetEntrySize, entrySize, entryValueSize, keySize, childIdSize, pageSize]
    omega
  | leaf =>
    rw [maxKeysForPageType_leaf]
    simp only [headerSize, offsetEntrySize, entrySize, entryValueSize, keySize, leafValueSize,
      valueSize, pageSize]
    omega

theorem fitting_iff (pageType : PageType) (keyCount : Nat) :
    keyCount ≤ (pageSize - dataStart keyCount) / entrySize pageType <->
      keyCount ≤ maxKeysForPageType pageType := by
  cases pageType with
  | internal =>
    rw [maxKeysForPageType_internal]
    simp only [dataStart, headerSize, offsetEntrySize, entrySize, entryValueSize, keySize,
      childIdSize, pageSize]
    omega
  | leaf =>
    rw [maxKeysForPageType_leaf]
    simp only [dataStart, headerSize, offsetEntrySize, entrySize, entryValueSize, keySize,
      leafValueSize, valueSize, pageSize]
    omega

variable {pageType : PageType} {keyCount : Nat}

theorem checkFits_ok
    (fits : keyCount ≤ maxKeysForPageType pageType) : checkFits pageType keyCount = .ok () := by
  exact if_pos ((fitting_iff pageType keyCount).mpr fits)

theorem checkFits_error (tooLarge : maxKeysForPageType pageType < keyCount) :
    ∃ actual, checkFits pageType keyCount = .error (.error (.invalidPageSize actual pageSize)) := by
  refine ⟨_, if_neg ?_⟩
  rw [fitting_iff]
  omega

section Encoding

variable {Value : Type}

theorem Page.hasRoomForOneMore_iff (page : Page Value) :
    page.hasRoomForOneMore = true <-> page.keyCount < maxKeysForPageType page.pageType :=
  pageHasRoomForOneMore_iff _ _

theorem encodeLeaf_ok {entries : List (Key × Value)} (header : PageHeader)
    (fits : entries.length ≤ 15) : Page.encodeLeaf header entries = .ok (.leaf header entries) := by
  unfold Page.encodeLeaf
  rw [checkFits_ok (by rwa [maxKeysForPageType_leaf])]
  rfl

theorem encodeInternal_ok {entries : List (Key × PageId)} (header : PageHeader)
    (fits : entries.length ≤ 628) :
    (Page.encodeInternal header entries : Result (Page Value)) = .ok (.internal header entries) := by
  unfold Page.encodeInternal
  rw [checkFits_ok (by rwa [maxKeysForPageType_internal])]
  rfl

theorem encodeInternal_error {entries : List (Key × PageId)} (header : PageHeader)
    (tooMany : 628 < entries.length) :
    ∃ actual, (Page.encodeInternal header entries : Result (Page Value)) =
      .error (.error (.invalidPageSize actual pageSize)) := by
  rcases @checkFits_error .internal entries.length (by rwa [maxKeysForPageType_internal]) with
    ⟨actual, refused⟩
  refine ⟨actual, ?_⟩
  unfold Page.encodeInternal
  rw [refused]
  rfl

end Encoding

/-! ## Changes at a position -/

section Positions

variable {Entry : Type} (before behind : List Entry) (entry : Entry)

@[simp] theorem insertIdx_append_length :
    (before ++ behind).insertIdx before.length entry = before ++ entry :: behind := by
  induction before with
  | nil => simp
  | cons head tail ih => simp [ih]

@[simp] theorem set_append_length (new : Entry) :
    (before ++ entry :: behind).set before.length new = before ++ new :: behind := by
  induction before with
  | nil => simp
  | cons head tail ih => simp [ih]

@[simp] theorem eraseIdx_append_length :
    (before ++ entry :: behind).eraseIdx before.length = before ++ behind := by
  induction before with
  | nil => simp
  | cons head tail ih => simp [ih]

@[simp] theorem modify_append_length (change : Entry -> Entry) :
    (before ++ entry :: behind).modify before.length change = before ++ change entry :: behind := by
  induction before with
  | nil => simp
  | cons head tail ih => simp [ih]

end Positions

/-! ## Searches inside a page -/

section Searches

variable {Value : Type}

variable {entries : List (Key × Value)}

theorem lt_of_index_lt (ascending : entries.Pairwise (fun left right => left.1 < right.1))
    {left right : Nat} {lower upper : Key × Value} (lowerAt : entries[left]? = some lower)
    (upperAt : entries[right]? = some upper) (ordered : left < right) : lower.1 < upper.1 := by
  rcases List.getElem?_eq_some_iff.mp lowerAt with ⟨leftRange, lowerEq⟩
  rcases List.getElem?_eq_some_iff.mp upperAt with ⟨rightRange, upperEq⟩
  have less := pairwise_iff_getElem.mp ascending left right leftRange rightRange ordered
  rwa [lowerEq, upperEq] at less

theorem forall_take {count : Nat} {property : Key -> Prop}
    (holds : ∀ index entry, index < count -> entries[index]? = some entry -> property entry.1) :
    ∀ entry ∈ entries.take count, property entry.1 := by
  intro entry member
  rcases mem_iff_getElem?.mp member with ⟨index, stored⟩
  rw [List.getElem?_take] at stored
  split at stored
  · next inside => exact holds index entry inside stored
  · cases stored

theorem forall_drop {count : Nat} {property : Key -> Prop}
    (holds : ∀ index entry, count ≤ index -> entries[index]? = some entry -> property entry.1) :
    ∀ entry ∈ entries.drop count, property entry.1 := by
  intro entry member
  rcases mem_iff_getElem?.mp member with ⟨index, stored⟩
  rw [List.getElem?_drop] at stored
  exact holds (count + index) entry (by omega) stored

/-- On which side of the key the entry at an index is. -/
def sideOf (entries : List (Key × Value)) (key : Key) (index : Nat) : Ordering :=
  entries[index]?.elim .gt (fun entry => compare entry.1 key)

theorem sideOf_eq {index : Nat} {entry : Key × Value} (key : Key)
    (stored : entries[index]? = some entry) : sideOf entries key index = compare entry.1 key := by
  simp [sideOf, stored]

theorem findKeyPos_found (key : Key)
    (ascending : entries.Pairwise (fun left right => left.1 < right.1)) :
    BinarySearch.Found (sideOf entries key) 0 entries.length (findKeyPos entries key) := by
  refine @BinarySearch.find_spec (sideOf entries key) _ _ _ (Nat.zero_le _) (Nat.sub_le _ _) ?_ ?_
  · intro left right ordered rightLt
    cases upperAt : entries[right]? with
    | none => simp [sideOf, upperAt] at rightLt
    | some =>
      have lowerAt := List.getElem?_eq_getElem
        (lt_of_le_of_lt ordered (List.getElem?_eq_some_iff.mp upperAt).1)
      rw [sideOf_eq key upperAt, compare_lt_iff_lt] at rightLt
      rw [sideOf_eq key lowerAt, compare_lt_iff_lt]
      rcases Nat.lt_or_eq_of_le ordered with less | same
      · exact lt_trans (lt_of_index_lt ascending lowerAt upperAt less) rightLt
      · subst same
        rwa [some.inj (lowerAt.symm.trans upperAt)]
  · intro left right ordered inRange leftGt
    have lowerAt := List.getElem?_eq_getElem (lt_of_le_of_lt ordered inRange)
    have upperAt := List.getElem?_eq_getElem inRange
    rw [sideOf_eq key lowerAt, compare_gt_iff_gt] at leftGt
    rw [sideOf_eq key upperAt, compare_gt_iff_gt]
    rcases Nat.lt_or_eq_of_le ordered with less | same
    · exact lt_trans leftGt (lt_of_index_lt ascending lowerAt upperAt less)
    · subst same
      exact leftGt

theorem findKeyPos_located (key : Key)
    (ascending : entries.Pairwise (fun left right => left.1 < right.1)) :
    Located key entries (findKeyPos entries key) := by
  have found := findKeyPos_found key ascending
  generalize findKeyPos entries key = outcome at found
  cases found with
  | @present index _ inRange same =>
    have stored := List.getElem?_eq_getElem inRange
    have keyEq := compare_eq_iff_eq.mp ((sideOf_eq key stored).symm.trans same)
    have whole : entries.take index ++ (key, entries[index].2) :: entries.drop (index + 1) =
        entries := by
      rw [← keyEq, ← drop_eq_getElem_cons inRange, take_append_drop]
    have located := @Located.present Key Value _ key (entries.take index)
      (entries.drop (index + 1)) entries[index].2 (@forall_take _ _ _ (fun other => other < key) ?_)
      (@forall_drop _ _ _ (fun other => key < other) ?_)
    · rwa [whole, length_take_of_le (le_of_lt inRange)] at located
    · intro other _ before otherAt
      exact keyEq ▸ lt_of_index_lt ascending otherAt stored before
    · intro other _ behind otherAt
      exact keyEq ▸ lt_of_index_lt ascending stored otherAt behind
  | @absent index _ inRange before behind =>
    have located := @Located.absent Key Value _ key (entries.take index) (entries.drop index)
      (@forall_take _ _ _ (fun other => other < key) ?_)
      (@forall_drop _ _ _ (fun other => key < other) ?_)
    · rwa [take_append_drop, length_take_of_le inRange] at located
    · intro other _ lower otherAt
      exact compare_lt_iff_lt.mp ((sideOf_eq key otherAt).symm.trans
        (before other (Nat.zero_le _) lower))
    · intro other _ upper otherAt
      exact compare_gt_iff_gt.mp ((sideOf_eq key otherAt).symm.trans
        (behind other upper (List.getElem?_eq_some_iff.mp otherAt).1))

/-- Entries that satisfy a test come first if they do so in front of every entry
that does. -/
theorem partitionPoint_split (goes : Key -> Bool)
    (monotone : entries.Pairwise (fun left right => goes right.1 = true -> goes left.1 = true)) :
    ∃ before behind, entries = before ++ behind ∧
      BinarySearch.partitionPoint (fun index => entries[index]?.any (fun entry => goes entry.1))
        entries.length 0 entries.length = before.length ∧
      (∀ entry ∈ before, goes entry.1 = true) ∧
      (∀ entry ∈ behind, goes entry.1 = false) := by
  have found := @BinarySearch.partitionPoint_spec
    (fun index => entries[index]?.any (fun entry => goes entry.1)) entries.length 0 entries.length
    (Nat.zero_le _) (Nat.sub_le _ _) ?_
  · rcases found with ⟨_, inRange, before, behind⟩
    refine ⟨entries.take _, entries.drop _, (take_append_drop _ _).symm,
      (length_take_of_le inRange).symm, @forall_take _ _ _ (fun key => goes key = true) ?_,
      @forall_drop _ _ _ (fun key => goes key = false) ?_⟩
    · intro index entry lower stored
      simpa [stored] using before index (Nat.zero_le _) lower
    · intro index entry upper stored
      simpa [stored] using behind index upper (List.getElem?_eq_some_iff.mp stored).1
  · intro left right ordered isRight
    cases upperAt : entries[right]? with
    | none => simp [upperAt] at isRight
    | some =>
      rcases List.getElem?_eq_some_iff.mp upperAt with ⟨upperRange, rfl⟩
      have lowerAt := List.getElem?_eq_getElem (lt_of_le_of_lt ordered upperRange)
      rw [upperAt, any_some] at isRight
      rw [lowerAt, any_some]
      rcases Nat.lt_or_eq_of_le ordered with less | rfl
      · exact pairwise_iff_getElem.mp monotone left right _ upperRange less isRight
      · exact isRight

theorem childInsertPosForKey_spec {entries : List (Key × PageId)} (key : Key)
    (ascending : entries.Pairwise (fun left right => left.1 ≤ right.1)) :
    ∃ before behind, entries = before ++ behind ∧
      childInsertPosForKey entries key = before.length ∧
      (∀ entry ∈ before, entry.1 ≤ key) ∧
      (∀ entry ∈ behind, key < entry.1) := by
  have monotone : entries.Pairwise (fun left right =>
      decide (right.1 ≤ key) = true -> decide (left.1 ≤ key) = true) :=
    ascending.imp (fun less below => decide_eq_true (le_trans less (of_decide_eq_true below)))
  rcases partitionPoint_split (fun low => decide (low ≤ key)) monotone with
    ⟨before, behind, whole, position, below, above⟩
  exact ⟨before, behind, whole, position, fun entry member => of_decide_eq_true (below entry member),
    fun entry member => lt_of_not_ge (of_decide_eq_false (above entry member))⟩

theorem childIdAtPos_append (header : PageHeader) (before behind : List (Key × PageId)) :
    childIdAtPos header (before ++ behind) before.length = childAfter header.leftChild before := by
  rcases eq_nil_or_concat before with isNil | ⟨_, _, isSnoc⟩
  · subst isNil
    rfl
  · subst isSnoc
    simp [childIdAtPos, childAfter]

end Searches

/-! ## Nodes -/

section Nodes

variable {Value : Type}

@[simp] theorem Page.node_withHeader_highKey (page : Page Value) (highKey : Option Key) :
    (page.withHeader { page.header with highKey := highKey }).node = page.node := by
  cases page <;> rfl

@[simp] theorem Page.keyCount_withHeader (page : Page Value) (header : PageHeader) :
    (page.withHeader header).keyCount = page.keyCount := by
  cases page <;> rfl

@[simp] theorem Page.pageType_withHeader (page : Page Value) (header : PageHeader) :
    (page.withHeader header).pageType = page.pageType := by
  cases page <;> rfl

namespace Memory

/-- No page holds more entries than the encoding has room for. -/
def Fits (memory : Memory Value) : Prop :=
  ∀ (id : PageId) (page : Page Value), memory.pages[id]? = some page ->
    page.keyCount ≤ maxKeysForPageType page.pageType

variable {memory : Memory Value} {id cell : PageId} {page : Page Value}

theorem heap_of_page (stored : memory.pages[id]? = some page) : memory.heap id = some page.node := by
  simp [heap, stored]

theorem heap_eq_of_pages {after : Memory Value} (same : after.pages[id]? = memory.pages[id]?) :
    after.heap id = memory.heap id :=
  congrArg (Option.map Page.node) same

variable {items : List (Key × Value)} {depth : Nat} {low : WithBot Key} {high : WithTop Key}
  {ids : List PageId} {first : PageId}

theorem leafPage (node : memory.heap id = some (.leaf items)) :
    ∃ header, memory.pages[id]? = some (.leaf header items) := by
  rcases map_eq_some_iff.mp node with ⟨page, stored, same⟩
  cases page with
  | internal => cases same
  | leaf header =>
    cases same
    exact ⟨header, stored⟩

theorem internalPage {rest : List (Key × PageId)}
    (node : memory.heap id = some (.branch first rest)) :
    ∃ header, memory.pages[id]? = some (.internal header rest) ∧ header.leftChild = first := by
  rcases map_eq_some_iff.mp node with ⟨page, stored, same⟩
  cases page with
  | leaf => cases same
  | internal header =>
    cases same
    exact ⟨header, stored, rfl⟩

theorem heap_write (memory : Memory Value) (id : PageId) (page : Page Value) (cell : PageId) :
    (memory.write id page).heap cell = if id = cell then some page.node else memory.heap cell := by
  unfold heap write
  rw [lookup_insert]
  split <;> rfl

theorem pages_write (memory : Memory Value) (id : PageId) (page : Page Value) (cell : PageId) :
    (memory.write id page).pages[cell]? = if id = cell then some page else memory.pages[cell]? :=
  lookup_insert memory.pages id cell page

theorem pages_write_of_ne (different : cell ≠ id) :
    (memory.write id page).pages[cell]? = memory.pages[cell]? :=
  (pages_write ..).trans (if_neg different.symm)

theorem Fits.write (fits : memory.Fits) (id : PageId)
    (room : page.keyCount ≤ maxKeysForPageType page.pageType) : (memory.write id page).Fits := by
  exact forall_insert room fits

section FitsEntries

variable {header : PageHeader} {pairs : List (Key × Value)} {entries : List (Key × PageId)}

theorem Fits.leaf (fits : memory.Fits) (stored : memory.pages[id]? = some (.leaf header pairs)) :
    pairs.length ≤ 15 :=
  (fits id _ stored).trans maxKeysForPageType_leaf.le

theorem Fits.internal (fits : memory.Fits)
    (stored : memory.pages[id]? = some (.internal header entries)) : entries.length ≤ 628 :=
  (fits id _ stored).trans maxKeysForPageType_internal.le

theorem Fits.writeLeaf (fits : memory.Fits) (id : PageId) (small : pairs.length ≤ 15) :
    (memory.write id (.leaf header pairs)).Fits :=
  fits.write id (small.trans maxKeysForPageType_leaf.ge)

theorem Fits.writeInternal (fits : memory.Fits) (id : PageId) (small : entries.length ≤ 628) :
    (memory.write id (.internal header entries)).Fits :=
  fits.write id (small.trans maxKeysForPageType_internal.ge)

end FitsEntries

/-! ## Requests -/

section Requests

variable {Answer : Type}

@[simp] theorem run_readPage_bind (next : Option (Page Value) -> TreeProgram Value Answer) :
    (readPage id >>= next).run handle memory = (next memory.pages[id]?).run handle memory :=
  rfl

@[simp] theorem run_writePage : (writePage id page).run handle memory =
    (.ok (), memory.write id page) :=
  rfl

@[simp] theorem run_writePage_bind (next : Unit -> TreeProgram Value Answer) :
    (writePage id page >>= next).run handle memory = (next ()).run handle (memory.write id page) :=
  rfl

@[simp] theorem run_allocPageId_bind (next : PageId -> TreeProgram Value Answer) :
    (allocPageId >>= next).run handle memory = (next memory.nextPageId).run handle
      { memory with nextPageId := memory.nextPageId + 1 } :=
  rfl

@[simp] theorem run_rootPageId_bind (next : PageId -> TreeProgram Value Answer) :
    (rootPageId >>= next).run handle memory = (next memory.root).run handle memory :=
  rfl

@[simp] theorem run_setRootPageId_bind (next : Unit -> TreeProgram Value Answer) :
    (setRootPageId id >>= next).run handle memory = (next ()).run handle { memory with root := id } :=
  rfl

@[simp] theorem run_addLen : (addLen : TreeProgram Value Unit).run handle memory =
    (.ok (), { memory with len := memory.len + 1 }) :=
  rfl

@[simp] theorem run_subLen_bind (next : Unit -> TreeProgram Value Answer) :
    (subLen >>= next).run handle memory = (next ()).run handle { memory with len := memory.len - 1 } :=
  rfl

@[simp] theorem run_computes_ok_bind {First : Type} (value : First)
    (next : First -> TreeProgram Value Answer) :
    (computes (.ok value) >>= next).run handle memory = (next value).run handle memory :=
  rfl

theorem run_readPageOrFail_bind (stored : memory.pages[id]? = some page)
    (next : Page Value -> TreeProgram Value Answer) :
    (readPageOrFail id >>= next).run handle memory = (next page).run handle memory := by
  refine Program.run_bind_ok ?_ next
  unfold readPageOrFail
  rw [run_readPage_bind, stored]
  rfl

end Requests

/-! ## Subtrees -/

/-- The tree below a page, over pages of its own that have all been handed
out. -/
structure Subtree (memory : Memory Value) (depth : Nat) (id : PageId) (low : WithBot Key)
    (high : WithTop Key) (items : List (Key × Value)) (ids : List PageId) : Prop where
  represents : Represents memory.heap depth id low high items ids
  nodup : ids.Nodup
  allocated : ∀ cell ∈ ids, cell < memory.nextPageId

/-- The whole tree: its depth and its pairs. -/
structure Tree (memory : Memory Value) (depth : Nat) (items : List (Key × Value)) : Prop where
  fits : memory.Fits
  subtree : ∃ ids, Subtree memory depth memory.root ⊥ ⊤ items ids

theorem tree_empty : (empty : Memory Value).Tree 0 [] := by
  have stored : (empty : Memory Value).pages[1]? = some (.leaf (.new 0) []) :=
    Std.TreeMap.getElem?_insert_self
  refine ⟨?_, [1], ⟨heap_of_page stored, ⟨.nil, by simp⟩, rfl⟩, by simp, ?_⟩
  · intro _ _ lookup
    rcases lookup_insert_cases lookup with ⟨_, isLeaf⟩ | ⟨_, impossible⟩
    · rw [isLeaf]
      exact Nat.zero_le _
    · simp at impossible
  · intro _ member
    rw [mem_singleton.mp member]
    exact Nat.lt_succ_self 1

theorem Subtree.stored (tree : Subtree memory depth id low high items ids) :
    ∃ page, memory.pages[id]? = some page := by
  cases depth with
  | zero =>
    rcases leafPage tree.represents.1 with ⟨_, stored⟩
    exact ⟨_, stored⟩
  | succ =>
    rcases tree.represents with ⟨_, _, _, node, _⟩
    rcases internalPage node with ⟨_, stored, _⟩
    exact ⟨_, stored⟩

theorem Subtree.depth_lt (tree : Subtree memory depth id low high items ids) :
    depth < memory.nextPageId := by
  have inRange : ids ⊆ List.range memory.nextPageId :=
    fun cell member => mem_range.mpr (tree.allocated cell member)
  have short := (subperm_of_subset tree.nodup inRange).length_le
  rw [length_range] at short
  exact lt_of_lt_of_le tree.represents.depth_lt short

theorem Tree.pairs_eq (tree : memory.Tree depth items) : memory.pairs = items := by
  rcases tree.subtree with ⟨_, subtree⟩
  exact subtree.represents.itemsBelow_eq subtree.depth_lt

/-- What a call that works below one page does to the rest: it may take over
pages that are handed out to it, and leaves all others alone. -/
structure Confined (memory after : Memory Value) (ids newIds : List PageId) : Prop where
  outside : ∀ cell : PageId, cell ∉ ids -> cell < memory.nextPageId ->
    after.pages[cell]? = memory.pages[cell]?
  nextPageId_le : memory.nextPageId ≤ after.nextPageId
  known : ∀ cell ∈ newIds, cell ∈ ids ∨ memory.nextPageId ≤ cell
  root : after.root = memory.root

section Focus

variable {after : Memory Value} {depth : Nat} {low : WithBot Key} {high : WithTop Key}
variable {items : List (Key × Value)} {ids : List PageId}

variable {newIds leftIds ownIds rightIds leftBelow rightBelow : List PageId} {first next : PageId}
  {before behind : List (Key × PageId)} {left own right : List (Key × Value)} {separator : Key}

theorem Confined.heap_outside (confined : Confined memory after ids newIds) (notIn : cell ∉ ids)
    (old : cell < memory.nextPageId) : after.heap cell = memory.heap cell :=
  heap_eq_of_pages (confined.outside cell notIn old)

theorem Confined.refl (memory : Memory Value) (ids : List PageId) : Confined memory memory ids ids :=
  ⟨fun _ _ _ => rfl, le_rfl, fun _ member => .inl member, rfl⟩

theorem Confined.trans {last : Memory Value} {lastIds : List PageId}
    (first : Confined memory after ids newIds) (second : Confined after last newIds lastIds) :
    Confined memory last ids lastIds where
  outside := by
    intro cell notOwn old
    have notNew : cell ∉ newIds := by
      intro member
      rcases first.known cell member with own | new
      · exact notOwn own
      · exact absurd old (not_lt.mpr new)
    rw [second.outside cell notNew (lt_of_lt_of_le old first.nextPageId_le),
      first.outside cell notOwn old]
  nextPageId_le := le_trans first.nextPageId_le second.nextPageId_le
  known := by
    intro cell member
    rcases second.known cell member with inNew | new
    · exact first.known cell inNew
    · exact .inr (le_trans first.nextPageId_le new)
  root := second.root.trans first.root

/-- The surroundings of a run of neighbouring children, for a call that works
on the run and on the page above it. -/
structure Cut (memory : Memory Value) (depth : Nat) (id : PageId) (low : WithBot Key)
    (high : WithTop Key) (first : PageId) (before behind : List (Key × PageId))
    (left right : List (Key × Value)) (leftIds ownIds rightIds : List PageId) : Prop where
  hole : Hole (Represents memory.heap depth) low high first before behind left right leftIds rightIds
  nodup : (id :: (leftIds ++ (ownIds ++ rightIds))).Nodup
  allocated : ∀ cell, cell ∈ id :: (leftIds ++ (ownIds ++ rightIds)) -> cell < memory.nextPageId

theorem Subtree.cut {before middle behind : List (Key × PageId)}
    (tree : Subtree memory (depth + 1) id low high items ids)
    (node : memory.heap id = some (.branch first (before ++ (middle ++ behind)))) :
    ∃ left own right leftIds ownIds rightIds, items = left ++ (own ++ right) ∧
      ids = id :: (leftIds ++ (ownIds ++ rightIds)) ∧
      Row (Represents memory.heap depth) (lowAfter low before) (highBefore high behind)
        (childAfter first before) middle own ownIds ∧
      Cut memory depth id low high first before behind left right leftIds ownIds rightIds := by
  rcases tree with ⟨⟨_, _, _, otherNode, row, idsEq⟩, nodup, allocated⟩
  cases node.symm.trans otherNode
  rcases row.cut with ⟨left, own, right, leftIds, ownIds, rightIds, itemsEq, rfl, run, hole⟩
  subst idsEq
  exact ⟨left, own, right, leftIds, ownIds, rightIds, itemsEq, rfl, run, hole, nodup, allocated⟩

theorem Subtree.child_ne (tree : Subtree memory (depth + 1) id low high items ids)
    (node : memory.heap id = some (.branch first (before ++ behind))) :
    childAfter first before ≠ id := by
  rcases @Subtree.cut _ _ _ _ _ _ _ _ first before [] behind tree node with
    ⟨_, _, _, _, _, _, _, _, run, cut⟩
  have member := (row_nil.mp run).mem
  have notIn := (nodup_cons.mp cut.nodup).1
  intro same
  exact notIn (by rw [← same]; simp [member])

section

variable {middle : List (Key × PageId)}
  (cut : Cut memory depth id low high first before behind left right leftIds ownIds rightIds)
  (node : after.heap id = some (.branch first (before ++ (middle ++ behind))))
  (run : Row (Represents after.heap depth) (lowAfter low before) (highBefore high behind)
    (childAfter first before) middle own newIds)

include cut node run

/-- The way back: a call that exchanges the run for another one over the same
range, and writes the page above accordingly, leaves a tree. -/
theorem Cut.patch (confined : Confined memory after (id :: ownIds) (id :: newIds))
    (newNodup : (id :: newIds).Nodup)
    (newAllocated : ∀ cell ∈ newIds, cell < after.nextPageId) :
    Subtree after (depth + 1) id low high (left ++ (own ++ right))
        (id :: (leftIds ++ (newIds ++ rightIds))) ∧
      Confined memory after (id :: (leftIds ++ (ownIds ++ rightIds)))
        (id :: (leftIds ++ (newIds ++ rightIds))) := by
  have nodup := cut.nodup
  have allocated := cut.allocated
  have known := confined.known
  have grows := confined.nextPageId_le
  simp only [nodup_cons, nodup_append, mem_append] at nodup newNodup
  simp only [mem_append, mem_cons] at allocated known
  refine ⟨⟨cut.hole.rebuild ?_ node run, ?_, ?_⟩, ⟨?_, grows, ?_, confined.root⟩⟩
  · intro cell _
    refine confined.heap_outside ?_ (allocated cell (by tauto))
    simp only [mem_cons]
    grind
  · simp only [nodup_cons, nodup_append, mem_append]
    grind
  · simp only [mem_append, mem_cons]
    grind
  · intro cell notIn old
    refine confined.outside cell ?_ old
    simp only [mem_append, mem_cons] at notIn ⊢
    tauto
  · simp only [mem_append, mem_cons]
    grind

theorem Cut.shrink (sublist : newIds.Sublist ownIds)
    (sameNext : after.nextPageId = memory.nextPageId) (sameRoot : after.root = memory.root)
    (outside : ∀ cell : PageId, cell ∉ id :: ownIds -> after.pages[cell]? = memory.pages[cell]?) :
    ∃ allIds, Subtree after (depth + 1) id low high (left ++ (own ++ right)) allIds ∧
      Confined memory after (id :: (leftIds ++ (ownIds ++ rightIds))) allIds := by
  have nodup := cut.nodup
  simp only [nodup_cons, nodup_append, mem_append] at nodup
  refine ⟨_, cut.patch node run ⟨fun cell notIn _ => outside cell notIn, sameNext.ge, ?_, sameRoot⟩
    (nodup_cons.mpr ⟨?_, sublist.nodup nodup.2.2.1.1⟩) ?_⟩
  · intro cell member
    exact .inl ((sublist.cons_cons id).subset member)
  · intro member
    exact nodup.1 (.inr (.inl (sublist.subset member)))
  · intro cell member
    rw [sameNext]
    exact cut.allocated cell (by simp [sublist.subset member])

end

theorem Subtree.neighbours (tree : Subtree memory (depth + 1) id low high items ids)
    (node : memory.heap id = some (.branch first (before ++ (separator, next) :: behind))) :
    ∃ left leftOwn rightOwn right leftIds leftBelow rightBelow rightIds leftNode rightNode,
      items = left ++ ((leftOwn ++ rightOwn) ++ right) ∧
      ids = id :: (leftIds ++ (((childAfter first before :: leftBelow) ++ (next :: rightBelow)) ++
        rightIds)) ∧
      memory.heap (childAfter first before) = some leftNode ∧ memory.heap next = some rightNode ∧
      Holds memory.heap depth leftNode (lowAfter low before) separator leftOwn leftBelow ∧
      Holds memory.heap depth rightNode separator (highBefore high behind) rightOwn rightBelow ∧
      Between (lowAfter low before) (highBefore high behind) separator ∧
      Cut memory depth id low high first before behind left right leftIds
        ((childAfter first before :: leftBelow) ++ (next :: rightBelow)) rightIds := by
  rcases @Subtree.cut _ _ _ _ _ _ _ _ first before [(separator, next)] behind tree node with
    ⟨left, _, right, leftIds, _, rightIds, itemsEq, idsEq, run, cut⟩
  rcases row_pair run with
    ⟨leftNode, rightNode, leftOwn, rightOwn, leftBelow, rightBelow, leftAt, rightAt, leftHolds,
      rightHolds, ownEq, ownIdsEq, between⟩
  subst ownEq
  subst ownIdsEq
  exact ⟨left, leftOwn, rightOwn, right, leftIds, leftBelow, rightBelow, rightIds, leftNode, rightNode,
    itemsEq, idsEq, leftAt, rightAt, leftHolds, rightHolds, between, cut⟩

section

variable (cut : Cut memory depth id low high first before behind left right leftIds
  ((childAfter first before :: leftBelow) ++ (next :: rightBelow)) rightIds)

include cut

theorem Cut.distinct :
    id ≠ childAfter first before ∧ id ≠ next ∧ childAfter first before ≠ next ∧
      ∀ cell ∈ leftBelow ++ rightBelow,
        cell ≠ id ∧ cell ≠ childAfter first before ∧ cell ≠ next := by
  have nodup := cut.nodup
  simp only [nodup_cons, nodup_append, mem_append, mem_cons] at nodup ⊢
  grind

variable (sameNext : after.nextPageId = memory.nextPageId) (sameRoot : after.root = memory.root)

include sameNext sameRoot

theorem Cut.pair {leftNode rightNode : Node PageId Key Value}
    {leftOwn rightOwn : List (Key × Value)} {leftKept rightKept : List PageId}
    (node : after.heap id = some (.branch first (before ++ ([(separator, next)] ++ behind))))
    (leftAt : after.heap (childAfter first before) = some leftNode)
    (rightAt : after.heap next = some rightNode)
    (outside : ∀ cell : PageId, cell ≠ id -> cell ≠ childAfter first before -> cell ≠ next ->
      after.pages[cell]? = memory.pages[cell]?)
    (leftHolds : Holds memory.heap depth leftNode (lowAfter low before) separator leftOwn leftKept)
    (leftSub : leftKept.Sublist leftBelow)
    (rightHolds : Holds memory.heap depth rightNode separator (highBefore high behind) rightOwn
      rightKept) (rightSub : rightKept.Sublist rightBelow)
    (between : Between (lowAfter low before) (highBefore high behind) separator) :
    ∃ allIds, Subtree after (depth + 1) id low high (left ++ ((leftOwn ++ rightOwn) ++ right))
        allIds ∧
      Confined memory after (id :: (leftIds ++
        (((childAfter first before :: leftBelow) ++ (next :: rightBelow)) ++ rightIds))) allIds := by
  rcases cut.distinct with ⟨_, _, _, apart⟩
  have same : ∀ cell ∈ leftBelow ++ rightBelow, after.heap cell = memory.heap cell :=
    fun cell member => heap_eq_of_pages (outside cell (apart cell member).1 (apart cell member).2.1
      (apart cell member).2.2)
  have leftFrame := leftHolds.frame (fun cell member =>
    same cell (mem_append_left _ (leftSub.subset member)))
  have rightFrame := rightHolds.frame (fun cell member =>
    same cell (mem_append_right _ (rightSub.subset member)))
  refine cut.shrink node
    (.cons (represents_iff.mpr ⟨leftNode, leftKept, leftAt, leftFrame, rfl⟩) between
      (.last (represents_iff.mpr ⟨rightNode, rightKept, rightAt, rightFrame, rfl⟩)))
    ((leftSub.cons_cons _).append (rightSub.cons_cons _)) sameNext sameRoot ?_
  intro cell notIn
  simp only [mem_cons, mem_append] at notIn
  exact outside cell (by tauto) (by tauto) (by tauto)

theorem Cut.merged {merged : Node PageId Key Value}
    (node : after.heap id = some (.branch first (before ++ behind)))
    (mergedAt : after.heap (childAfter first before) = some merged)
    (outside : ∀ cell : PageId, cell ≠ id -> cell ≠ childAfter first before ->
      after.pages[cell]? = memory.pages[cell]?)
    (holds : Holds memory.heap depth merged (lowAfter low before) (highBefore high behind) own
      (leftBelow ++ rightBelow)) :
    ∃ allIds, Subtree after (depth + 1) id low high (left ++ (own ++ right)) allIds ∧
      Confined memory after (id :: (leftIds ++
        (((childAfter first before :: leftBelow) ++ (next :: rightBelow)) ++ rightIds))) allIds := by
  rcases cut.distinct with ⟨_, _, _, apart⟩
  have framed := holds.frame (fun cell member =>
    heap_eq_of_pages (outside cell (apart cell member).1 (apart cell member).2.1))
  have sublist : (childAfter first before :: (leftBelow ++ rightBelow)).Sublist
      ((childAfter first before :: leftBelow) ++ (next :: rightBelow)) :=
    ((List.Sublist.refl leftBelow).append (sublist_cons_self next rightBelow)).cons_cons _
  refine cut.shrink (show after.heap id = some (.branch first (before ++ ([] ++ behind))) from node)
    (.last (represents_iff.mpr ⟨merged, _, mergedAt, framed, rfl⟩)) sublist sameNext sameRoot ?_
  intro cell notIn
  simp only [mem_cons, mem_append] at notIn
  exact outside cell (by tauto) (by tauto)

end

/-- Whatever a call makes of the child, the page above holds it in the child's
place. -/
theorem Cut.exchange {newOwn : List (Key × Value)}
    (cut : Cut memory depth id low high first before behind left right leftIds ownIds rightIds)
    (node : memory.heap id = some (.branch first (before ++ behind)))
    (newChild : Subtree after depth (childAfter first before) (lowAfter low before)
      (highBefore high behind) newOwn newIds) (confined : Confined memory after ownIds newIds) :
    ∃ allIds, Subtree after (depth + 1) id low high (left ++ (newOwn ++ right)) allIds ∧
      Confined memory after (id :: (leftIds ++ (ownIds ++ rightIds))) allIds := by
  have nodup := cut.nodup
  simp only [nodup_cons, nodup_append, mem_append] at nodup
  have idOld := cut.allocated id (by simp)
  have notOwn : id ∉ ownIds := by tauto
  have notNew : id ∉ newIds := by
    intro member
    rcases confined.known id member with own | new
    · exact notOwn own
    · exact absurd idOld (not_lt.mpr new)
  have sameNode : after.heap id = some (.branch first (before ++ ([] ++ behind))) :=
    (confined.heap_outside notOwn idOld).trans node
  refine ⟨_, cut.patch sameNode (.last newChild.represents) ⟨?_, confined.nextPageId_le, ?_, confined.root⟩
    (nodup_cons.mpr ⟨notNew, newChild.nodup⟩) newChild.allocated⟩
  · intro cell notIn old
    exact confined.outside cell (fun member => notIn (mem_cons_of_mem _ member)) old
  · intro cell member
    rcases mem_cons.mp member with same | inNew
    · exact .inl (by simp [same])
    · exact (confined.known cell inNew).imp_left (mem_cons_of_mem _)

variable {key : Key} (tree : Subtree memory (depth + 1) id low high items ids)
  (node : memory.heap id = some (.branch first (before ++ behind)))
  (upTo : ∀ entry ∈ before, entry.1 ≤ key)
  (above : ∀ entry ∈ behind, key < entry.1) (inside : Inside low high key)

include tree node upTo above inside

theorem Subtree.child :
    ∃ left own right leftIds ownIds rightIds, items = left ++ (own ++ right) ∧
      ids = id :: (leftIds ++ (ownIds ++ rightIds)) ∧
      Subtree memory depth (childAfter first before) (lowAfter low before) (highBefore high behind)
        own ownIds ∧
      Inside (lowAfter low before) (highBefore high behind) key ∧
      (∀ item ∈ left, item.1 < key) ∧ (∀ item ∈ right, key < item.1) ∧
      Cut memory depth id low high first before behind left right leftIds ownIds rightIds := by
  rcases @Subtree.cut _ _ _ _ _ _ _ _ first before [] behind tree node with
    ⟨left, own, right, leftIds, ownIds, rightIds, itemsEq, idsEq, run, cut⟩
  have childInside : Inside (lowAfter low before) (highBefore high behind) key := by
    constructor
    · cases last : before.getLast? with
      | none => simpa [lowAfter, last] using inside.1
      | some entry =>
        simpa [lowAfter, last] using upTo entry (mem_of_getLast? last)
    · cases head : behind.head? with
      | none => simpa [highBefore, head] using inside.2
      | some entry =>
        simpa [highBefore, head] using above entry (mem_of_head? head)
  rcases cut.hole.apart (fun _ _ _ _ _ holds => holds.ordered) childInside with ⟨lower, upper⟩
  have nodup := cut.nodup
  have allocated := cut.allocated
  simp only [nodup_cons, nodup_append, mem_append] at nodup
  refine ⟨left, own, right, leftIds, ownIds, rightIds, itemsEq, idsEq,
    ⟨row_nil.mp run, nodup.2.2.1.1, ?_⟩, childInside, lower, upper, cut⟩
  intro cell member
  exact allocated cell (by simp [member])

/-- The child that a search goes on with, with the way back. -/
theorem Subtree.focus :
    ∃ childLow childHigh left own right ownIds, items = left ++ (own ++ right) ∧
      Subtree memory depth (childAfter first before) childLow childHigh own ownIds ∧
      Inside childLow childHigh key ∧ (∀ item ∈ left, item.1 < key) ∧
      (∀ item ∈ right, key < item.1) ∧
      ∀ (after : Memory Value) newOwn newIds,
        Subtree after depth (childAfter first before) childLow childHigh newOwn newIds ->
        Confined memory after ownIds newIds ->
        ∃ allIds, Subtree after (depth + 1) id low high (left ++ (newOwn ++ right)) allIds ∧
          Confined memory after ids allIds := by
  rcases tree.child node upTo above inside with
    ⟨left, own, right, _, ownIds, _, itemsEq, idsEq, child, childInside, lower, upper, cut⟩
  subst idsEq
  exact ⟨_, _, left, own, right, ownIds, itemsEq, child, childInside, lower, upper,
    fun after newOwn newIds newChild confined => cut.exchange node newChild confined⟩

end Focus

end Memory

end Nodes

end BTree
end ScaleKv
