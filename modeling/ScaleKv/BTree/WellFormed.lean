import ScaleKv.BTree.Insertion

namespace ScaleKv
namespace BTree

open Foundation List SearchTree

/-!
# Well-formed trees

A well-formed tree is a search tree whose pages have strictly ascending keys
and whose leaves are linked: each one names the next leaf in key order, and has
a high key above all its keys and not below its upper separator.  Only the last
leaf, which has no upper separator, has no high key.

Insertions keep trees well formed.  They need one round of their loop for every
level, so no tree is too deep for them.
-/

variable {Value : Type} {memory : Memory Value}

/-- The rules for a well-formed tree. -/
def strictRules (Value : Type) : LinkRules Value where
  strict := True
  fence high items
    | none => high = ⊤
    | some highKey => high ≤ (highKey : WithTop Key) ∧ ∀ item ∈ items, item.1 < highKey

theorem strictRules_kept : (strictRules Value).Kept where
  upsert := by
    intro _ _ highKey _ _ fence below
    cases highKey with
    | none => exact fence
    | some =>
      refine ⟨fence.1, ?_⟩
      intro item member
      rcases List.mem_append.mp member with before | rest
      · exact fence.2 item (List.mem_filter.mp before).1
      · rcases List.mem_cons.mp rest with same | behind
        · rw [same]
          exact WithTop.coe_lt_coe.mp (lt_of_lt_of_le below fence.1)
        · exact fence.2 item (List.mem_filter.mp behind).1
  left := by
    intro before _ below
    exact ⟨le_rfl, below⟩
  right := by
    intro _ before behind highKey fence
    cases highKey with
    | none => exact fence
    | some =>
      exact ⟨fence.1, fun item member => fence.2 item (List.mem_append_right _ member)⟩

namespace Memory

/-- A well-formed tree, its depth and its pairs. -/
structure WellFormed (memory : Memory Value) (depth : Nat) (items : List (Key × Value)) : Prop where
  tree : memory.Tree depth items
  linked : memory.Linked (strictRules Value) depth memory.root ⊤ none

/-! ## The chain of the leaves -/

/-- The leaves below a page in the order of the separators. -/
def leavesBelow (memory : Memory Value) : Nat -> PageId -> List PageId
  | 0, id => [id]
  | depth + 1, id =>
    match memory.pages[id]? with
    | some (.internal header entries) =>
      (header.leftChild :: entries.map Prod.snd).flatMap (leavesBelow memory depth)
    | _ => []

/-- The leaves that so many links lead to. -/
def chain (memory : Memory Value) : Nat -> Option PageId -> List PageId
  | rounds + 1, some id =>
    id :: chain memory rounds (memory.pages[id]?.bind (fun page => page.header.nextLeaf))
  | _, _ => []

section Chains

variable {rules : LinkRules Value} {depth : Nat} {id : PageId} {high : WithTop Key}
variable {next : Option PageId} {items : List (Key × Value)}

theorem chain_row {first : PageId} {rest : List (Key × PageId)}
    (each : ∀ {id high next}, memory.Linked rules depth id high next -> ∀ rounds,
      memory.chain ((memory.leavesBelow depth id).length + rounds)
        (some (memory.firstLeaf depth id)) = memory.leavesBelow depth id ++ memory.chain rounds next)
    (linked : LinkedRow (memory.Linked rules depth) (memory.firstLeaf depth) first rest high next)
    (rounds : Nat) :
    memory.chain (((first :: rest.map Prod.snd).flatMap (memory.leavesBelow depth)).length + rounds)
        (some (memory.firstLeaf depth first)) =
      (first :: rest.map Prod.snd).flatMap (memory.leavesBelow depth) ++ memory.chain rounds next := by
  induction rest generalizing first with
  | nil =>
    simp only [map_nil, flatMap_cons, flatMap_nil, append_nil]
    exact each linked rounds
  | cons _ _ ih =>
    rw [map_cons, flatMap_cons, length_append, Nat.add_assoc, each linked.1, ih linked.2, append_assoc]

/-- The links lead through the leaves below a page and then to what is behind. -/
theorem Linked.chain_eq (linked : memory.Linked rules depth id high next) (rounds : Nat) :
    memory.chain ((memory.leavesBelow depth id).length + rounds) (some (memory.firstLeaf depth id)) =
      memory.leavesBelow depth id ++ memory.chain rounds next := by
  induction depth generalizing id high next rounds with
  | zero =>
    rcases linked with ⟨header, _, stored, _, rfl⟩
    rw [leavesBelow, length_singleton, Nat.add_comm, firstLeaf, chain, stored]
    rfl
  | succ depth ih =>
    rcases linked with ⟨header, entries, stored, _, row⟩
    rw [firstLeaf_internal stored, leavesBelow, stored]
    exact chain_row (fun linked rounds => ih linked rounds) row rounds

theorem flatMap_leavesBelow {low : WithBot Key} {ids : List PageId}
    (tree : Represents memory.heap depth id low high items ids) :
    (memory.leavesBelow depth id).flatMap (itemsBelow memory.heap 1) = items := by
  induction depth generalizing id low high items ids with
  | zero =>
    rw [leavesBelow, flatMap_singleton]
    exact tree.itemsBelow_eq Nat.one_pos
  | succ depth ih =>
    rcases tree with ⟨first, _, _, node, row, -⟩
    rcases internalPage node with ⟨_, stored, isFirst⟩
    rw [leavesBelow, stored]
    dsimp only
    rw [isFirst]
    clear node stored isFirst
    induction row with
    | last holds => simpa using ih holds
    | cons holds _ _ inner =>
      rw [map_cons, flatMap_cons, flatMap_append, ih holds, inner]

/-- The links visit the leaves of a well-formed tree in the order of their keys,
each of them once, and end there. -/
theorem WellFormed.chain_eq_leaves (wellFormed : memory.WellFormed depth items) {rounds : Nat}
    (enough : (memory.leavesBelow depth memory.root).length ≤ rounds) :
    memory.chain rounds (some (memory.firstLeaf depth memory.root)) =
        memory.leavesBelow depth memory.root ∧
      (memory.leavesBelow depth memory.root).flatMap (itemsBelow memory.heap 1) = items ∧
      items.Pairwise (fun left right => left.1 < right.1) := by
  rcases wellFormed.tree.subtree with ⟨_, subtree⟩
  refine ⟨?_, flatMap_leavesBelow subtree.represents, subtree.represents.ordered.ascending⟩
  rw [← Nat.add_sub_of_le enough, wellFormed.linked.chain_eq]
  cases rounds - (memory.leavesBelow depth memory.root).length <;> exact append_nil _

end Chains

end Memory

/-! ## Trees of many keys -/

/-- The keys in ascending order, as many as three bytes can count. -/
def countedKey (number : Nat) : Key :=
  ⟨List.replicate 13 0 ++ [number / 65536, number / 256, number].map UInt8.ofNat, by simp [keySize]⟩

theorem countedKey_lt {left right : Nat} (less : left < right) (counted : right < 16777216) :
    countedKey left < countedKey right := by
  change (countedKey left).bytes.map UInt8.toFin < (countedKey right).bytes.map UInt8.toFin
  simp [countedKey, List.replicate, cons_lt_cons_iff, Fin.lt_def, Fin.ext_iff, UInt8.size]
  omega

/-- The tree into which the first keys have been inserted in ascending order. -/
def ascendingTree (value : Value) : Nat -> Memory Value
  | 0 => .empty
  | count + 1 =>
    let memory := ascendingTree value count
    ((insert (memory.nextPageId + 1) (countedKey count) value).run Memory.handle memory).2

def ascendingItems (value : Value) (count : Nat) : List (Key × Value) :=
  (List.range count).map (fun number => (countedKey number, value))

theorem ascendingTree_spec (value : Value) {count : Nat} (counted : count ≤ 16777216) :
    ∃ depth, (ascendingTree value count).Tree depth (ascendingItems value count) ∧
      ∀ {rules : LinkRules Value}, rules.Kept -> rules.fence ⊤ [] none ->
        (ascendingTree value count).Linked rules depth (ascendingTree value count).root ⊤ none := by
  induction count with
  | zero =>
    refine ⟨0, Memory.tree_empty, fun _ fence => ?_⟩
    exact ⟨.new 0, [], Std.TreeMap.getElem?_insert_self, fence, rfl⟩
  | succ count ih =>
    rcases ih (by omega) with ⟨depth, tree, linked⟩
    have shallow : depth < (ascendingTree value count).nextPageId := by
      rcases tree.subtree with ⟨_, subtree⟩
      exact subtree.depth_lt
    have stored : upsert (countedKey count) value (ascendingItems value count) =
        ascendingItems value (count + 1) := by
      have below : ∀ item ∈ ascendingItems value count, item.1 < countedKey count := by
        intro item member
        rcases mem_map.mp member with ⟨_, inRange, rfl⟩
        exact countedKey_lt (mem_range.mp inRange) (by omega)
      have appended := @upsert_absent _ _ _ _ value _ [] below (by simp)
      rw [append_nil] at appended
      rw [appended]
      simp [ascendingItems, range_succ]
    rcases insert_run ((ascendingTree value count).nextPageId + 1) (countedKey count) value tree with
      ⟨_, _, ran, ⟨_, _⟩ | ⟨_, _, newDepth, newTree, keeps⟩⟩
    · omega
    · rw [ascendingTree, ran, ← stored]
      exact ⟨newDepth, newTree, fun kept fence => keeps kept (linked kept fence)⟩

/-! ## Insertion -/

theorem length_upsert {items : List (Key × Value)} (key : Key) (value : Value)
    (ascending : items.Pairwise (fun left right => left.1 < right.1)) :
    (upsert key value items).length =
      if key ∈ items.map Prod.fst then items.length else items.length + 1 := by
  have located := findKeyPos_located key ascending
  generalize findKeyPos items key = outcome at located
  cases located with
  | @present _ _ _ below above =>
    rw [upsert_present below above, if_pos (by simp)]
    simp
  | @absent before behind below above =>
    have absent : key ∉ (before ++ behind).map Prod.fst := by
      intro member
      rcases List.mem_map.mp member with ⟨item, inItems, same⟩
      rcases List.mem_append.mp inItems with inBefore | inBehind
      · exact ne_of_lt (below item inBefore) same
      · exact ne_of_gt (above item inBehind) same
    rw [upsert_absent below above, if_neg absent]
    simp only [List.length_append, List.length_cons]
    omega

/-- An insertion into a well-formed tree returns.  It leaves a well-formed tree
with the value stored under the key, and counts the key if it is new. -/
theorem insert_wellFormed {depth rounds : Nat} {items : List (Key × Value)} (key : Key) (value : Value)
    (wellFormed : memory.WellFormed depth items) (enough : depth + 2 ≤ rounds) :
    ∃ after newDepth,
      (insert rounds key value).run Memory.handle memory = (.ok (), after) ∧
      after.WellFormed newDepth (upsert key value items) ∧
      after.pairs = upsert key value memory.pairs ∧
      after.len = (if key ∈ memory.pairs.map Prod.fst then memory.len else memory.len + 1) := by
  rcases wellFormed with ⟨tree, linked⟩
  rcases insert_run rounds key value tree with
    ⟨_, after, ran, ⟨_, _⟩ | ⟨isOk, len, newDepth, newTree, keeps⟩⟩
  · omega
  · subst isOk
    rcases tree.subtree with ⟨_, subtree⟩
    rw [length_upsert key value subtree.represents.ordered.ascending] at len
    refine ⟨after, newDepth, ran, ⟨newTree, keeps strictRules_kept linked⟩, ?_, ?_⟩
    · rw [newTree.pairs_eq, tree.pairs_eq]
    · rw [tree.pairs_eq]
      split_ifs at len ⊢ <;> omega

/-- Fifteen pairs fill the only leaf.  The next insertion cuts it in front of the
eighth key: this key is the separator below a new root and the high key of the
left leaf, which names the right one. -/
theorem insert_wellFormed_split : ∃ depth after newDepth,
    (ascendingTree 7 15).WellFormed depth (ascendingItems 7 15) ∧
    (insert 3 (countedKey 15) 8).run Memory.handle (ascendingTree 7 15) = (.ok (), after) ∧
    after.WellFormed newDepth (upsert (countedKey 15) 8 (ascendingItems 7 15)) ∧
    after.len = 16 ∧ after.root = 3 ∧ after.leavesBelow 1 3 = [1, 2] ∧ after.chain 2 (some 1) = [1, 2] ∧
    after.pages[1]?.bind (fun page => page.header.highKey) = some (countedKey 7) := by
  rcases @ascendingTree_spec _ 7 15 (by omega) with ⟨depth, tree, linked⟩
  have wellFormed : (ascendingTree 7 15).WellFormed depth _ := ⟨tree, linked strictRules_kept rfl⟩
  have shallow : depth + 2 ≤ 3 := by
    rcases tree.subtree with ⟨_, subtree⟩
    have pages : (ascendingTree 7 15).nextPageId = 2 := by decide +kernel
    exact Nat.succ_le_succ (pages ▸ subtree.depth_lt)
  have computed : (fun after : Memory Nat => after.len = 16 ∧ after.root = 3 ∧
      after.leavesBelow 1 3 = [1, 2] ∧ after.chain 2 (some 1) = [1, 2] ∧
      after.pages[1]?.bind (fun page => page.header.highKey) = some (countedKey 7))
        ((insert 3 (countedKey 15) 8).run Memory.handle (ascendingTree 7 15)).2 := by
    decide +kernel
  rcases insert_wellFormed (countedKey 15) 8 wellFormed shallow with ⟨after, newDepth, ran, kept, _, _⟩
  rw [ran] at computed
  exact ⟨depth, after, newDepth, wellFormed, ran, kept, computed⟩

end BTree
end ScaleKv
