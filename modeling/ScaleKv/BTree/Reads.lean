import ScaleKv.BTree.WellFormed

namespace ScaleKv
namespace BTree

open Foundation List Option SearchTree

/-!
# Point reads

A read descends once by the separators and goes on along the links between the
leaves.  In a tree whose high keys are not below the upper separators of their
leaves the search ends in the leaf that is responsible for the key, and the links
lead from there through all leaves behind it.
-/

/-- No leaf has a high key below its upper separator. -/
def LinkRules.Bounding {Value : Type} (rules : LinkRules Value) : Prop :=
  ∀ high items highKey, rules.fence high items (some highKey) -> high ≤ (highKey : WithTop Key)

theorem strictRules_bounding {Value : Type} : (strictRules Value).Bounding :=
  fun _ _ _ fence => fence.1

namespace Memory

variable {Value : Type}

/-- The leaf in which the separators lead a search. -/
def leafFor (memory : Memory Value) (key : Key) : Nat -> PageId -> PageId
  | 0, id => id
  | depth + 1, id =>
    match memory.pages[id]? with
    | some (.internal header entries) =>
      leafFor memory key depth (childIdAtPos header entries (childInsertPosForKey entries key))
    | _ => id

theorem leafFor_internal {memory : Memory Value} {id : PageId} {header : PageHeader}
    {entries : List (Key × PageId)} (key : Key) (depth : Nat)
    (stored : memory.pages[id]? = some (.internal header entries)) :
    memory.leafFor key (depth + 1) id = memory.leafFor key depth
      (childIdAtPos header entries (childInsertPosForKey entries key)) := by
  rw [leafFor, stored]

abbrev Leaf (Value : Type) := PageId × List (Key × Value)

/-- The links lead through the leaves, from the first one to what is behind the
last one, and no leaf is fenced off below the key. -/
def Chain (memory : Memory Value) (key : Key) :
    Option PageId -> List (Leaf Value) -> Option PageId -> Prop
  | start, [], next => start = next
  | start, (id, items) :: rest, next => start = some id ∧
    ∃ header, memory.pages[id]? = some (.leaf header items) ∧
      header.highKey.filter (fun highKey => highKey < key) = none ∧
      Chain memory key header.nextLeaf rest next

/-- The leaves below a page. -/
structure Leaves (memory : Memory Value) (key : Key) (start next : Option PageId)
    (items : List (Key × Value)) (ids : List PageId) (leaves : List (Leaf Value)) : Prop where
  chain : memory.Chain key start leaves next
  items_eq : leaves.flatMap Prod.snd = items
  sublist : (leaves.map Prod.fst).Sublist ids

/-- What a search finds: the leaf that is responsible for the key, the leaves
behind it, and the items in front of it. -/
structure Sought (memory : Memory Value) (key : Key) (id : PageId) (next : Option PageId)
    (items : List (Key × Value)) (ids : List PageId) (left own : List (Key × Value))
    (ahead : List (Leaf Value)) : Prop where
  chain : memory.Chain key (some id) ((id, own) :: ahead) next
  items_eq : items = left ++ (own ++ ahead.flatMap Prod.snd)
  below : ∀ item ∈ left, item.1 < key
  above : ∀ item ∈ ahead.flatMap Prod.snd, key < item.1
  sublist : (id :: ahead.map Prod.fst).Sublist ids

section Chains

variable {memory : Memory Value} {rules : LinkRules Value} {depth : Nat} {id : PageId} {key : Key}
variable {low : WithBot Key} {high : WithTop Key} {items others left own : List (Key × Value)}
variable {ids otherIds : List PageId} {start middle next : Option PageId}
variable {leaves more ahead : List (Leaf Value)}

theorem Chain.append (front : memory.Chain key start leaves middle)
    (back : memory.Chain key middle more next) : memory.Chain key start (leaves ++ more) next := by
  induction leaves generalizing start with
  | nil =>
    subst front
    exact back
  | cons _ _ ih =>
    rcases front with ⟨isStart, header, stored, unfenced, front⟩
    exact ⟨isStart, header, stored, unfenced, ih front⟩

theorem Leaves.append (first : memory.Leaves key start middle items ids leaves)
    (second : memory.Leaves key middle next others otherIds more) :
    memory.Leaves key start next (items ++ others) (ids ++ otherIds) (leaves ++ more) where
  chain := first.chain.append second.chain
  items_eq := by rw [flatMap_append, first.items_eq, second.items_eq]
  sublist := by
    rw [map_append]
    exact first.sublist.append second.sublist

section

variable (bounding : rules.Bounding)

include bounding

theorem leaf_leaves (above : (key : WithTop Key) ≤ high)
    (tree : Represents memory.heap 0 id low high items ids)
    (linked : memory.Linked rules 0 id high next) :
    memory.Leaves key (some id) next items ids [(id, items)] := by
  rcases linked with ⟨header, _, stored, fence, isNext⟩
  cases tree.1.symm.trans (heap_of_page stored)
  refine ⟨⟨rfl, header, stored, ?_, isNext⟩, by simp, by simp [tree.2.2]⟩
  refine filter_eq_none_iff.mpr (fun highKey isHigh => ?_)
  rw [isHigh] at fence
  simpa using WithTop.coe_le_coe.mp (le_trans above (bounding _ _ _ fence))

omit bounding in
theorem row_leaves {sub : PageId -> WithTop Key -> Option PageId -> Prop} {first : PageId}
    {rest : List (Key × PageId)}
    (each : ∀ {child low high items part next}, (key : WithBot Key) ≤ low ->
      (key : WithTop Key) ≤ high -> Represents memory.heap depth child low high items part ->
      sub child high next -> ∃ leaves,
        memory.Leaves key (some (memory.firstLeaf depth child)) next items part leaves)
    (below : (key : WithBot Key) ≤ low) (above : (key : WithTop Key) ≤ high)
    (row : Row (Represents memory.heap depth) low high first rest items ids)
    (linked : LinkedRow sub (memory.firstLeaf depth) first rest high next) :
    ∃ leaves, memory.Leaves key (some (memory.firstLeaf depth first)) next items ids leaves := by
  induction row with
  | last holds => exact each below above holds linked
  | cons holds between _ ih =>
    have under := WithBot.coe_le_coe.mp (le_trans below between.1)
    rcases each below (WithTop.coe_le_coe.mpr under) holds linked.1 with ⟨leaves, first⟩
    rcases ih (WithBot.coe_le_coe.mpr under) above linked.2 with ⟨more, second⟩
    exact ⟨leaves ++ more, first.append second⟩

theorem exists_leaves (below : (key : WithBot Key) ≤ low)
    (above : (key : WithTop Key) ≤ high) (tree : Represents memory.heap depth id low high items ids)
    (linked : memory.Linked rules depth id high next) :
    ∃ leaves, memory.Leaves key (some (memory.firstLeaf depth id)) next items ids leaves := by
  induction depth generalizing id low high items ids next with
  | zero => exact ⟨_, leaf_leaves bounding above tree linked⟩
  | succ _ ih =>
    rcases tree with ⟨_, _, _, node, row, idsEq⟩
    rcases linked with ⟨_, _, stored, _, linked⟩
    cases node.symm.trans (heap_of_page stored)
    rcases row_leaves ih below above row linked with ⟨leaves, found⟩
    rw [firstLeaf_internal stored]
    exact ⟨leaves, found.chain, found.items_eq, idsEq ▸ found.sublist.cons _⟩

theorem back_leaves {behind : List (Key × PageId)}
    (beyond : ∀ entry ∈ behind, key < entry.1) (above : (key : WithTop Key) ≤ high)
    (back : Back (Represents memory.heap depth) high behind items ids)
    (linked : ∀ separator child rest, behind = (separator, child) :: rest ->
      LinkedRow (memory.Linked rules depth) (memory.firstLeaf depth) child rest high next) :
    ∃ leaves, memory.Leaves key (nextBefore (memory.firstLeaf depth) next behind) next items ids
      leaves := by
  cases back with
  | nil => exact ⟨[], rfl, rfl, nil_sublist _⟩
  | cons _ row =>
    have less := beyond _ mem_cons_self
    exact row_leaves (exists_leaves bounding) (WithBot.coe_le_coe.mpr less.le) above row
      (linked _ _ _ rfl)

theorem Subtree.sought (tree : Subtree memory depth id low high items ids)
    (linked : memory.Linked rules depth id high next) (inside : Inside low high key) :
    ∃ left own ahead, memory.Sought key (memory.leafFor key depth id) next items ids left own
      ahead := by
  induction depth generalizing id low high items ids next with
  | zero =>
    have found := leaf_leaves bounding (le_of_lt inside.2) tree.represents linked
    exact ⟨[], items, [], found.chain, by simp, by simp, by simp, found.sublist⟩
  | succ depth ih =>
    rcases linked with ⟨_, _, stored, _, row⟩
    rcases tree.represents with ⟨_, _, _, node, represents, _⟩
    cases node.symm.trans (heap_of_page stored)
    rcases childInsertPosForKey_spec key represents.ascending with
      ⟨before, behind, rfl, position, upTo, beyond⟩
    have isChild := leafFor_internal key depth stored
    rw [position, childIdAtPos_append] at isChild
    rcases tree.child node upTo beyond inside with
      ⟨left, _, _, _, _, _, itemsEq, idsEq, child, childInside, lower, upper, cut⟩
    rcases (@linkedRow_cut _ _ _ before [] behind _ _).mp row with ⟨_, childLinked, back⟩
    rcases ih child childLinked childInside with ⟨first, found, ahead, sought⟩
    rcases back_leaves bounding beyond (le_of_lt inside.2) cut.hole.back back with ⟨more, leaves⟩
    rw [itemsEq, idsEq, isChild]
    refine ⟨left ++ first, found, ahead ++ more, sought.chain.append leaves.chain, ?_, ?_, ?_, ?_⟩
    · simp [sought.items_eq, leaves.items_eq]
    · intro item member
      exact (mem_append.mp member).elim (lower item) (sought.below item)
    · intro item member
      rw [flatMap_append, leaves.items_eq] at member
      exact (mem_append.mp member).elim (sought.above item) (upper item)
    · rw [map_append, ← cons_append]
      exact ((sought.sublist.append leaves.sublist).trans (sublist_append_right _ _)).cons id

end

/-! ## Searches -/

theorem descendForRead_run (tree : Represents memory.heap depth id low high items ids) (hops : Nat) :
    (descendForRead key hops id).run handle memory =
      (.ok (if depth < hops then some (memory.leafFor key depth id) else none), memory) := by
  induction hops generalizing depth id low high items ids with
  | zero => rfl
  | succ _ ih =>
    rw [descendForRead, run_readPage_bind]
    cases depth with
    | zero =>
      rcases leafPage tree.1 with ⟨_, stored⟩
      rw [stored]
      rfl
    | succ depth =>
      rcases tree with ⟨_, _, _, node, row, _⟩
      rcases internalPage node with ⟨header, stored, rfl⟩
      rw [leafFor_internal key depth stored, stored]
      rcases childInsertPosForKey_spec key row.ascending with ⟨before, behind, whole, position, _⟩
      rw [whole] at row
      rcases @Row.cut _ _ _ _ [] _ _ _ _ before behind _ _ row with ⟨_, _, _, _, _, _, _, _, run, _⟩
      have found := ih (row_nil.mp run)
      rw [← childIdAtPos_append header before behind, ← whole, ← position] at found
      simpa only [Nat.add_lt_add_iff_right] using found

/-- Every try of a search that runs alone ends in the same way. -/
theorem findLeafForRead_run {found : Option PageId}
    (descends : (descendForRead key maxScanLeafHops memory.root).run handle memory =
      (.ok found, memory))
    (retries : Nat) :
    (findLeafForRead key (retries + 1)).run handle memory = (.ok found, memory) := by
  induction retries with
  | zero =>
    rw [findLeafForRead, run_rootPageId_bind, Program.run_bind_ok descends]
    cases found <;> rfl
  | succ _ ih =>
    rw [findLeafForRead, run_rootPageId_bind, Program.run_bind_ok descends]
    cases found with
    | none => exact ih
    | some => rfl

theorem Sought.readLeaf_run (hops : Nat)
    (sought : memory.Sought key id next items ids left own ahead)
    (ascending : own.Pairwise (fun left right => left.1 < right.1)) :
    (readLeaf key (hops + 1) id).run handle memory =
      (.ok (.answer ((items.find? (fun item => item.1 = key)).map Prod.snd)), memory) := by
  rcases sought.chain with ⟨_, _, stored, unfenced, _⟩
  have inOwn : items.find? (fun item => item.1 = key) = own.find? (fun item => item.1 = key) := by
    have noLeft : left.find? (fun item => item.1 = key) = none :=
      List.find?_eq_none.mpr (fun item member => by simpa using ne_of_lt (sought.below item member))
    have noRight : (ahead.flatMap Prod.snd).find? (fun item => item.1 = key) = none :=
      List.find?_eq_none.mpr (fun item member => by simpa using ne_of_gt (sought.above item member))
    rw [sought.items_eq, List.find?_append, List.find?_append, noLeft, noRight, none_or, or_none]
  rw [inOwn, readLeaf, run_readPage_bind, stored]
  simp only [unfenced]
  have located := findKeyPos_located key ascending
  generalize findKeyPos own key = outcome at located
  cases located with
  | @present before _ _ below =>
    have noBefore : before.find? (fun item => item.1 = key) = none :=
      List.find?_eq_none.mpr (fun item member => by simpa using ne_of_lt (below item member))
    simp [List.find?_append, noBefore]
    rfl
  | @absent before behind below above =>
    have absent : (before ++ behind).find? (fun item => item.1 = key) = none := by
      refine List.find?_eq_none.mpr (fun item member => ?_)
      rcases mem_append.mp member with inBefore | inBehind
      · simpa using ne_of_lt (below item inBefore)
      · simpa using ne_of_gt (above item inBehind)
    rw [absent]
    rfl

variable (bounding : rules.Bounding) (tree : memory.Tree depth items)
    (linked : memory.Linked rules depth memory.root ⊤ none)

include bounding tree linked

theorem Tree.sought (key : Key) :
    ∃ left own ahead ids,
      memory.Sought key (memory.leafFor key depth memory.root) none items ids left own ahead ∧
      ids.Nodup ∧ items.Pairwise (fun left right => left.1 < right.1) ∧
      ∀ retries, (findLeafForRead key (retries + 1)).run handle memory =
        (.ok (if depth < maxScanLeafHops then some (memory.leafFor key depth memory.root) else none),
          memory) := by
  rcases tree.subtree with ⟨ids, subtree⟩
  rcases subtree.sought bounding linked ⟨bot_le, WithTop.coe_lt_top key⟩ with
    ⟨left, own, ahead, sought⟩
  exact ⟨left, own, ahead, ids, sought, subtree.nodup, subtree.represents.ordered.ascending,
    findLeafForRead_run (descendForRead_run subtree.represents _)⟩

theorem get_run (shallow : depth < maxScanLeafHops) :
    (get key).run handle memory =
      (.ok ((items.find? (fun item => item.1 = key)).map Prod.snd), memory) := by
  rcases tree.sought bounding linked key with ⟨_, _, _, _, sought, _, ascending, found⟩
  rw [sought.items_eq] at ascending
  have ownAscending := (pairwise_append.mp (pairwise_append.mp ascending).2.1).1
  rw [get, maxTraversalRetries, getLoop, maxTraversalRetries, Program.run_bind_ok (found 7),
    if_pos shallow]
  exact Program.run_bind_ok (sought.readLeaf_run 255 ownAscending) _

end Chains

end Memory

variable {Content : Type}

/-- A point read returns the row that is stored under its key. -/
theorem getRow_eq {memory : Memory (StoredRow Content)} {depth : Nat}
    {items : List (Key × StoredRow Content)} (key : Key) (wellFormed : memory.WellFormed depth items)
    (shallow : depth < maxScanLeafHops) :
    (getRow key).run Memory.handle memory =
      (.ok ((memory.pairs.find? (fun pair => pair.1 = key)).map (fun pair =>
        decodeLeafValueRef pair.2)), memory) := by
  have found := @Memory.get_run _ _ _ _ key _ strictRules_bounding wellFormed.tree wellFormed.linked shallow
  rw [wellFormed.tree.pairs_eq, getRow, Program.run_bind_ok found]
  simp only [Option.map_map]
  rfl

/-- A row without an undo record. -/
def sampleRow : StoredRow Nat :=
  { value := 7, commitLsn := 1, undoPageId := 0, undoSlotId := 3, flags := 0, intentTxnId := 0,
    intentLsn := 0 }

/-- Sixteen keys make two leaves, and the last one is in the right leaf. -/
theorem getRow_eq_twoLeaves : ∃ depth items,
    (ascendingTree sampleRow 16).WellFormed depth items ∧ depth < maxScanLeafHops ∧
    (getRow (countedKey 15)).run Memory.handle (ascendingTree sampleRow 16) =
      (.ok (((ascendingTree sampleRow 16).pairs.find? (fun pair => pair.1 = countedKey 15)).map
        (fun pair => decodeLeafValueRef pair.2)), ascendingTree sampleRow 16) := by
  rcases @ascendingTree_spec _ sampleRow 16 (by omega) with ⟨depth, tree, linked⟩
  have wellFormed : (ascendingTree sampleRow 16).WellFormed depth _ :=
    ⟨tree, linked strictRules_kept rfl⟩
  have shallow : depth < maxScanLeafHops := by
    rcases tree.subtree with ⟨_, subtree⟩
    have pages : (ascendingTree sampleRow 16).nextPageId = 4 := by decide +kernel
    exact lt_of_lt_of_le (pages ▸ subtree.depth_lt) (by decide)
  exact ⟨depth, _, wellFormed, shallow, getRow_eq _ wellFormed shallow⟩

end BTree
end ScaleKv
