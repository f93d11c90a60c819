import Mathlib.Tactic.Common

namespace ScaleKv
namespace Foundation

universe u

/-!
# Histories of versions

A history lists the versions of one object from the newest to the oldest, each
with its stamp; a version without a value is a deletion.  A reader with a bound
sees the first version whose stamp does not exceed the bound.
-/

variable {Value : Type u}

/-- What a reader with this bound sees. -/
def visibleAt (history : List (Nat × Option Value)) (bound : Nat) : Option Value :=
  (history.find? (fun version => version.1 ≤ bound)).bind Prod.snd

/-- The result belongs to the version with the largest stamp up to the bound, or
there is no such version. -/
def LatestAt (history : List (Nat × Option Value)) (bound : Nat) (result : Option Value) : Prop :=
  (∃ version ∈ history, version.1 ≤ bound ∧ result = version.2 ∧
      ∀ other ∈ history, other.1 ≤ bound -> other.1 ≤ version.1) ∨
    ((∀ version ∈ history, bound < version.1) ∧ result = none)

/-- The stamps fall from the newest version to the oldest. -/
def Descending (history : List (Nat × Option Value)) : Prop :=
  history.Pairwise (fun newer older => older.1 < newer.1)

theorem visibleAt_nil (bound : Nat) : visibleAt ([] : List (Nat × Option Value)) bound = none := rfl

theorem visibleAt_cons_of_le {stamp bound : Nat} (covered : stamp ≤ bound) (value : Option Value)
    (older : List (Nat × Option Value)) : visibleAt ((stamp, value) :: older) bound = value := by
  unfold visibleAt
  rw [List.find?_cons_of_pos, Option.bind_some]
  simpa using covered

theorem visibleAt_cons_of_lt {stamp bound : Nat} (newer : bound < stamp) (value : Option Value)
    (older : List (Nat × Option Value)) :
    visibleAt ((stamp, value) :: older) bound = visibleAt older bound := by
  unfold visibleAt
  rw [List.find?_cons_of_neg]
  simpa using newer

theorem latestAt_visibleAt {history : List (Nat × Option Value)} (descending : Descending history)
    (bound : Nat) : LatestAt history bound (visibleAt history bound) := by
  induction history with
  | nil => exact .inr ⟨fun _ member => absurd member List.not_mem_nil, rfl⟩
  | cons newest older ih =>
    rcases List.pairwise_cons.mp descending with ⟨below, rest⟩
    by_cases covered : newest.1 ≤ bound
    · refine .inl ⟨newest, List.mem_cons_self, covered, visibleAt_cons_of_le covered _ _, ?_⟩
      intro other member _
      rcases List.mem_cons.mp member with rfl | inside
      · exact Nat.le_refl _
      · exact Nat.le_of_lt (below other inside)
    · have newer : bound < newest.1 := Nat.lt_of_not_le covered
      have same : visibleAt (newest :: older) bound = visibleAt older bound :=
        visibleAt_cons_of_lt newer _ _
      rw [same]
      rcases ih rest with ⟨version, inside, atMost, result, latest⟩ | ⟨none_, result⟩
      · refine .inl ⟨version, List.mem_cons_of_mem _ inside, atMost, result, ?_⟩
        intro other member otherAtMost
        rcases List.mem_cons.mp member with rfl | otherInside
        · exact absurd otherAtMost covered
        · exact latest other otherInside otherAtMost
      · refine .inr ⟨?_, result⟩
        exact List.forall_mem_cons.mpr ⟨newer, none_⟩

end Foundation
end ScaleKv
