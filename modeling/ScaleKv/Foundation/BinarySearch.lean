import Mathlib.Tactic.Common

namespace ScaleKv
namespace Foundation

/-!
# Binary search

The loop `while lo < hi { mid = (lo + hi) / 2; ... }` over an index range, with
the length of the range as the bound on its rounds.
-/

namespace BinarySearch

/-- The first index of the range at which the search does not go right. -/
def partitionPoint (goesRight : Nat -> Bool) : Nat -> Nat -> Nat -> Nat
  | 0, low, _ => low
  | rounds + 1, low, high =>
    if low < high then
      if goesRight ((low + high) / 2) then
        partitionPoint goesRight rounds ((low + high) / 2 + 1) high
      else partitionPoint goesRight rounds low ((low + high) / 2)
    else low

theorem partitionPoint_spec {goesRight : Nat -> Bool} {rounds low high : Nat} (ordered : low ≤ high)
    (enough : high - low ≤ rounds)
    (monotone : ∀ left right, left ≤ right -> goesRight right = true -> goesRight left = true) :
    low ≤ partitionPoint goesRight rounds low high ∧
      partitionPoint goesRight rounds low high ≤ high ∧
      (∀ index, low ≤ index -> index < partitionPoint goesRight rounds low high ->
        goesRight index = true) ∧
      (∀ index, partitionPoint goesRight rounds low high ≤ index -> index < high ->
        goesRight index = false) := by
  induction rounds generalizing low high with
  | zero =>
    unfold partitionPoint
    exact ⟨Nat.le_refl _, ordered, fun index above below => by omega,
      fun index above below => by omega⟩
  | succ _ ih =>
    unfold partitionPoint
    split
    · next _ =>
      split
      · next right =>
        rcases @ih ((low + high) / 2 + 1) high (by omega) (by omega) with ⟨_, below, before, behind⟩
        refine ⟨by omega, below, ?_, behind⟩
        intro index lower upper
        by_cases past : (low + high) / 2 + 1 ≤ index
        · exact before index past upper
        · exact monotone index ((low + high) / 2) (by omega) right
      · next left =>
        rcases @ih low ((low + high) / 2) (by omega) (by omega) with ⟨above, _, before, behind⟩
        refine ⟨above, by omega, before, ?_⟩
        intro index lower upper
        by_cases past : index < (low + high) / 2
        · exact behind index lower past
        · cases goes : goesRight index with
          | false => rfl
          | true => exact absurd (monotone ((low + high) / 2) index (by omega) goes) left
    · exact ⟨Nat.le_refl _, ordered, fun index above below => by omega,
        fun index above below => by omega⟩

/-- The search ends behind the indexes below a count. -/
theorem partitionPoint_lt {count high : Nat} (inside : count ≤ high) :
    partitionPoint (fun index => decide (index < count)) high 0 high = count := by
  have monotone : ∀ left right, left ≤ right -> decide (right < count) = true ->
      decide (left < count) = true := by
    intro left right ordered below
    exact decide_eq_true (Nat.lt_of_le_of_lt ordered (of_decide_eq_true below))
  rcases partitionPoint_spec (Nat.zero_le high) (Nat.le_refl _) monotone with
    ⟨_, _, before, behind⟩
  simp only [decide_eq_true_eq, decide_eq_false_iff_not] at before behind
  generalize partitionPoint _ _ _ _ = point at before behind ⊢
  rcases Nat.lt_trichotomy point count with less | same | more
  · exact absurd less (behind point (Nat.le_refl _) (Nat.lt_of_lt_of_le less inside))
  · exact same
  · exact absurd (before count (Nat.zero_le _) more) (Nat.lt_irrefl _)

/-- The search for one element, which ends at the first match.  `side` says
whether the element at an index is below, at or above the one that is sought. -/
def find (side : Nat -> Ordering) : Nat -> Nat -> Nat -> Bool × Nat
  | 0, low, _ => (false, low)
  | rounds + 1, low, high =>
    if low < high then
      match side ((low + high) / 2) with
      | .eq => (true, (low + high) / 2)
      | .lt => find side rounds ((low + high) / 2 + 1) high
      | .gt => find side rounds low ((low + high) / 2)
    else (false, low)

/-- What a search over an ascending range finds. -/
inductive Found (side : Nat -> Ordering) (low high : Nat) : Bool × Nat -> Prop
  | present {index : Nat} : low ≤ index -> index < high -> side index = .eq ->
      Found side low high (true, index)
  | absent {index : Nat} : low ≤ index -> index ≤ high ->
      (∀ before, low ≤ before -> before < index -> side before = .lt) ->
      (∀ behind, index ≤ behind -> behind < high -> side behind = .gt) ->
      Found side low high (false, index)

theorem find_spec {side : Nat -> Ordering} {rounds low high : Nat} (ordered : low ≤ high)
    (enough : high - low ≤ rounds)
    (below : ∀ left right, left ≤ right -> side right = .lt -> side left = .lt)
    (above : ∀ left right, left ≤ right -> right < high -> side left = .gt -> side right = .gt) :
    Found side low high (find side rounds low high) := by
  induction rounds generalizing low high with
  | zero =>
    exact .absent (Nat.le_refl _) ordered (fun before _ _ => by omega) (fun behind _ _ => by omega)
  | succ rounds ih =>
    unfold find
    split
    · next _ =>
      split
      · next same => exact .present (by omega) (by omega) same
      · next lower =>
        have rest := @ih ((low + high) / 2 + 1) high (by omega) (by omega) above
        revert rest
        generalize find side rounds ((low + high) / 2 + 1) high = outcome
        rintro (⟨_, inRange, same⟩ | ⟨_, inRange, before, behind⟩)
        · exact .present (by omega) inRange same
        · refine .absent (by omega) inRange ?_ behind
          intro index atLeast less
          by_cases past : (low + high) / 2 + 1 ≤ index
          · exact before index past less
          · exact below index ((low + high) / 2) (by omega) lower
      · next upper =>
        have rest := @ih low ((low + high) / 2) (by omega) (by omega)
          (fun left right ordered inRange => above left right ordered (by omega))
        revert rest
        generalize find side rounds low ((low + high) / 2) = outcome
        rintro (⟨inside, _, same⟩ | ⟨inside, _, before, behind⟩)
        · exact .present inside (by omega) same
        · refine .absent inside (by omega) before ?_
          intro index atLeast less
          by_cases past : index < (low + high) / 2
          · exact behind index atLeast past
          · exact above ((low + high) / 2) index (by omega) less upper
    · exact .absent (Nat.le_refl _) ordered (fun before _ _ => by omega)
        (fun behind _ _ => by omega)

end BinarySearch

end Foundation
end ScaleKv
