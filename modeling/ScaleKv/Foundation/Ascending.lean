import Mathlib.Data.List.MinMax

namespace ScaleKv
namespace Foundation

open List

universe u v

/-!
# Lists that ascend in a measure

A log is a list whose entries ascend strictly in their sequence number.  The
largest entry of such a list is its last one, and a sublist that has kept the
last entry ends with it.
-/

namespace Ascending

variable {Entry : Type u} {Measure : Type v} [LinearOrder Measure]
variable {measure : Entry -> Measure} {entries : List Entry} {last : Entry}

section

variable (ascending : entries.Pairwise (fun left right => measure left < measure right))

include ascending

theorem argmax_eq_getLast? : entries.argmax measure = entries.getLast? := by
  induction entries using List.reverseRecOn with
  | nil => rfl
  | append_singleton earlier last ih =>
    rcases pairwise_append.mp ascending with ⟨before, _, below⟩
    rw [argmax_concat, ih before, List.getLast?_concat]
    cases largest : earlier.getLast? with
    | none => rfl
    | some entry =>
      have member : entry ∈ earlier := mem_of_getLast? largest
      exact if_pos (below entry member last mem_cons_self)

theorem eq_or_lt_getLast? (isLast : entries.getLast? = some last) {entry : Entry}
    (member : entry ∈ entries) : entry = last ∨ measure entry < measure last := by
  rcases List.getLast?_eq_some_iff.mp isLast with ⟨_, shape⟩
  rw [shape] at ascending member
  rcases mem_append.mp member with before | own
  · exact .inr ((pairwise_append.mp ascending).2.2 entry before last mem_cons_self)
  · exact .inl (mem_singleton.mp own)

theorem getLast?_of_sublist {kept : List Entry} (isLast : entries.getLast? = some last)
    (sublist : kept.Sublist entries) (member : last ∈ kept) : kept.getLast? = some last := by
  cases keptLast : kept.getLast? with
  | none =>
    rw [List.getLast?_eq_none_iff.mp keptLast] at member
    cases member
  | some other =>
    have otherMember : other ∈ entries := sublist.subset (mem_of_getLast? keptLast)
    rcases eq_or_lt_getLast? ascending isLast otherMember with same | below
    · rw [same]
    · rcases eq_or_lt_getLast? (ascending.sublist sublist) keptLast member with same | above
      · rw [same]
      · exact absurd (lt_trans below above) (lt_irrefl _)

end

theorem filter_append_filter (ordered : entries.Pairwise (fun left right => measure left ≤ measure right))
    (bound : Measure) :
    entries.filter (fun entry => measure entry ≤ bound) ++
      entries.filter (fun entry => bound < measure entry) = entries := by
  induction entries with
  | nil => rfl
  | cons first rest ih =>
    rcases pairwise_cons.mp ordered with ⟨least, ordered⟩
    by_cases below : measure first ≤ bound
    · rw [filter_cons_of_pos (by simpa using below), filter_cons_of_neg (by simpa using below),
        cons_append, ih ordered]
    · have above : ∀ entry, entry ∈ first :: rest -> bound < measure entry :=
        forall_mem_cons.mpr ⟨not_le.mp below, fun entry member =>
          (not_le.mp below).trans_le (least entry member)⟩
      rw [filter_eq_nil_iff.mpr (by simpa using above), filter_eq_self.mpr (by simpa using above),
        nil_append]

end Ascending

/-! ## The largest measure of a list, as loops compute it -/

namespace Largest

variable {Entry : Type u} {measure : Entry -> Nat} {entries : List Entry}

theorem le_foldl (start : Nat) : start ≤ entries.foldl (fun largest entry =>
    if largest < measure entry then measure entry else largest) start := by
  induction entries generalizing start with
  | nil => exact le_refl start
  | cons head tail ih =>
    rw [foldl_cons]
    refine le_trans ?_ (ih _)
    by_cases higher : start < measure head
    · rw [if_pos higher]
      exact le_of_lt higher
    · rw [if_neg higher]

theorem measure_le_foldl {entry : Entry} (member : entry ∈ entries) (start : Nat) :
    measure entry ≤ entries.foldl (fun largest entry =>
      if largest < measure entry then measure entry else largest) start := by
  induction entries generalizing start with
  | nil => cases member
  | cons head tail ih =>
    rw [foldl_cons]
    rcases mem_cons.mp member with same | inTail
    · refine le_trans ?_ (le_foldl _)
      rw [same]
      by_cases higher : start < measure head
      · rw [if_pos higher]
      · rw [if_neg higher]
        exact not_lt.mp higher
    · exact ih inTail _

theorem foldl_le {start bound : Nat} (small : start ≤ bound)
    (below : ∀ entry ∈ entries, measure entry ≤ bound) :
    entries.foldl (fun largest entry =>
      if largest < measure entry then measure entry else largest) start ≤ bound := by
  induction entries generalizing start with
  | nil => exact small
  | cons head tail ih =>
    rw [foldl_cons]
    refine ih ?_ (fun entry member => below entry (mem_cons_of_mem _ member))
    by_cases higher : start < measure head
    · rw [if_pos higher]
      exact below head mem_cons_self
    · rw [if_neg higher]
      exact small

end Largest

end Foundation
end ScaleKv
