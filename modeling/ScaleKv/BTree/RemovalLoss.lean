import ScaleKv.BTree.Insertion
import ScaleKv.BTree.Removal
import ScaleKv.Foundation.Run

namespace ScaleKv
namespace BTree

open Foundation Memory SearchTree

/-!
# When a removal removes exactly one key

Calls of `insert` and `remove` that run one at a time, from the empty tree on.
Every tree reached this way is a search tree whose counter is at least the
number of its pairs; it is larger once a removal has lost pairs.  A removal that
returns takes exactly its key away if and only if the siblings that it borrows
from give up no pair.
-/

section RemovalLoss

variable {Value : Type}

inductive Call (Value : Type)
  | insert (rounds : Nat) (key : Key) (value : Value)
  | remove (rounds : Nat) (key : Key)

/-- A call leaves a tree behind if it returns, with or without an error. -/
def treeAfter : Except Stop Unit × Memory Value -> Option (Memory Value)
  | (.ok (), after) => some after
  | (.error (.fault (.error _)), after) => some after
  | (.error (.fault .panicked), _) => none
  | (.error .diverged, _) => none

def step (tree : Memory Value) : Call Value -> Option (Memory Value)
  | .insert rounds key value => treeAfter ((insert rounds key value).run handle tree)
  | .remove rounds key => treeAfter ((remove rounds key).run handle tree)

/-- What holds of every tree between two calls. -/
structure Sound (tree : Memory Value) : Prop where
  shape : ∃ depth items, tree.Tree depth items ∧ items.length ≤ tree.len

theorem sound_empty : Sound (empty : Memory Value) :=
  ⟨0, [], tree_empty, le_rfl⟩

variable {tree next : Memory Value} {rounds : Nat}

theorem sound_insert {key : Key} {value : Value} (sound : Sound tree)
    (taken : step tree (.insert rounds key value) = some next) : Sound next := by
  rcases sound.shape with ⟨_, _, isTree, _⟩
  rcases insert_run rounds key value isTree with
    ⟨_, _, ran, ⟨isDiverged, _⟩ | ⟨isOk, _, newDepth, newTree, _⟩⟩
  · rw [step, ran, isDiverged] at taken
    cases taken
  · rw [step, ran, isOk] at taken
    cases taken
    exact ⟨newDepth, _, newTree, by omega⟩

theorem sound_remove {key : Key} (sound : Sound tree)
    (taken : step tree (.remove rounds key) = some next) : Sound next := by
  rcases sound.shape with ⟨_, _, isTree, _⟩
  have ended := remove_run rounds key isTree
  rw [step] at taken
  generalize (remove rounds key).run handle tree = outcome at taken ended
  cases ended with
  | diverged => cases taken
  | refused newTree sublist =>
    cases taken
    have shorter := sublist.length_le
    exact ⟨_, _, newTree, by omega⟩
  | @returned newDepth _ kept newTree drops len =>
    cases taken
    have shorter := drops.sublist.length_le
    refine ⟨newDepth, _, newTree, ?_⟩
    rw [len]
    split
    · next present =>
      have fewer := length_without_lt (drops.mem_iff.mpr present)
      omega
    · have fewer := @length_without_le _ _ _ key kept
      omega

theorem sound_of_reached (reached : Reaches step anyStep empty tree) : Sound tree := by
  refine reached.invariant sound_empty ?_
  intro _ call _ sound _ taken
  cases call with
  | insert => exact sound_insert sound taken
  | remove => exact sound_remove sound taken

/-! ## The removal -/

theorem removesExactly_iff {tree after : Memory Value} {rounds : Nat} {key : Key}
    (reached : Reaches step anyStep empty tree)
    (returned : (remove rounds key).run handle tree = (.ok (), after)) :
    (after.pairs = tree.pairs.filter (fun pair => pair.1 ≠ key) ∧
      after.len + (if key ∈ tree.pairs.map Prod.fst then 1 else 0) = tree.len) <->
    tree.borrowed key = [] := by
  rcases (sound_of_reached reached).shape with ⟨_, items, isTree, _⟩
  have ended := remove_run rounds key isTree
  rw [returned] at ended
  cases ended with
  | @returned _ _ _ newTree drops len =>
    have lenDrops : after.len + (if key ∈ items.map Prod.fst then 1 else 0) = tree.len := by
      rw [len]
      split
      · next present =>
        have nonempty : 0 < items.length := by
          rcases List.mem_map.mp present with ⟨_, member, _⟩
          exact List.length_pos_of_mem member
        omega
      · rfl
    rw [newTree.pairs_eq, isTree.pairs_eq, and_iff_left lenDrops]
    exact drops.without_eq_iff

theorem eq_ok_of_isOk {outcome : Except Stop Unit × Memory Value} (isOk : outcome.1.isOk = true) :
    outcome = (.ok (), outcome.2) := by
  rcases outcome with ⟨result, _⟩
  cases result with
  | error => cases isOk
  | ok => rfl

/-- Calls that insert the first keys in ascending order. -/
def insertions (count : Nat) : List (Call Nat) :=
  (List.range count).map (fun number => .insert 10 (Key.ofNat (number + 1)) number)

/-- The right one of two leaves has a pair to spare. -/
theorem removesExactly_iff_twoLeaves : ∃ tree after : Memory Nat,
    Reaches step anyStep empty tree ∧
    (remove 10 (Key.ofNat 16)).run handle tree = (.ok (), after) ∧
    after.pairs = tree.pairs.filter (fun pair => pair.1 ≠ Key.ofNat 16) ∧
    after.len + (if Key.ofNat 16 ∈ tree.pairs.map Prod.fst then 1 else 0) = tree.len := by
  have passed : (runGuarded step anyStep (empty : Memory Nat) (insertions 16)).any (fun tree =>
      ((remove 10 (Key.ofNat 16)).run handle tree).1.isOk &&
        (tree.borrowed (Key.ofNat 16)).isEmpty) = true := by
    decide +kernel
  rcases exists_reaches_of_runGuarded passed with ⟨tree, reached, holds⟩
  rcases Bool.and_eq_true_iff.mp holds with ⟨isOk, nothing⟩
  have returned := eq_ok_of_isOk isOk
  exact ⟨tree, _, reached, returned,
    (removesExactly_iff reached returned).mpr (List.isEmpty_iff.mp nothing)⟩

/-- Sixteen keys make two leaves of seven and nine pairs.  The removal of the
first key borrows the eighth pair for the left leaf and forgets it. -/
theorem not_removesExactly : ¬ ∀ (tree after : Memory Nat) (rounds : Nat) (key : Key),
    Reaches step anyStep empty tree ->
    (remove rounds key).run handle tree = (.ok (), after) ->
    after.pairs = tree.pairs.filter (fun pair => pair.1 ≠ key) ∧
      after.len + (if key ∈ tree.pairs.map Prod.fst then 1 else 0) = tree.len := by
  have passed : (runGuarded step anyStep (empty : Memory Nat) (insertions 16)).any (fun tree =>
      ((remove 10 (Key.ofNat 1)).run handle tree).1.isOk &&
        (((remove 10 (Key.ofNat 1)).run handle tree).2.pairs.map Prod.snd !=
          (tree.pairs.filter (fun pair => pair.1 ≠ Key.ofNat 1)).map Prod.snd)) = true := by
    decide +kernel
  intro claim
  rcases exists_reaches_of_runGuarded passed with ⟨tree, reached, holds⟩
  rcases Bool.and_eq_true_iff.mp holds with ⟨isOk, different⟩
  have returned := eq_ok_of_isOk isOk
  have exactly := (claim tree _ 10 (Key.ofNat 1) reached returned).1
  rw [exactly] at different
  simp at different

/-! ## How a removal ends -/

end RemovalLoss

end BTree
end ScaleKv
