import Mathlib.Order.Compare
import Mathlib.Tactic.Common

namespace ScaleKv
namespace Foundation

open Option Std

/-!
# Ordered maps

`TreeMap` states its lookup laws with the comparison function.  If the
comparison decides equality of keys, the laws take the shape in which they are
rewritten with below.
-/

namespace OrderedMap

variable {K V : Type} [Ord K] [Std.TransOrd K] [Std.LawfulEqOrd K] [DecidableEq K]

theorem lookup_insert (map : TreeMap K V) (written key : K) (value : V) :
    (map.insert written value)[key]? = if written = key then some value else map[key]? := by
  rw [TreeMap.getElem?_insert]
  simp only [Std.LawfulEqCmp.compare_eq_iff_eq]

variable {written key removed : K} {map : TreeMap K V}

theorem lookup_insert_of_ne (map : TreeMap K V) (value : V) (different : written ≠ key) :
    (map.insert written value)[key]? = map[key]? := by
  rw [lookup_insert, if_neg different]

/-- Where an entry of an updated map comes from. -/
theorem lookup_insert_cases {value found : V}
    (lookup : (map.insert written value)[key]? = some found) :
    (key = written ∧ found = value) ∨ (key ≠ written ∧ map[key]? = some found) := by
  rw [lookup_insert] at lookup
  by_cases same : written = key
  · rw [if_pos same, some_inj] at lookup
    exact .inl ⟨same.symm, lookup.symm⟩
  · rw [if_neg same] at lookup
    exact .inr ⟨Ne.symm same, lookup⟩

section Entries

variable {map : TreeMap K V} {written : K} {value : V} {holds : K -> V -> Prop}

omit [Std.LawfulEqOrd K] [DecidableEq K] in
theorem forall_empty : ∀ (key : K) found, (∅ : TreeMap K V)[key]? = some found ->
    holds key found := by
  intro key found lookup
  rw [TreeMap.getElem?_emptyc] at lookup
  cases lookup

theorem forall_insert (new : holds written value)
    (old : ∀ (key : K) found, map[key]? = some found -> holds key found) :
    ∀ (key : K) found, (map.insert written value)[key]? = some found -> holds key found := by
  intro key found lookup
  rcases lookup_insert_cases lookup with ⟨rfl, rfl⟩ | ⟨_, before⟩
  · exact new
  · exact old key found before

omit [DecidableEq K] in
theorem forall_iff_toList (map : TreeMap K V) (holds : K -> V -> Prop) :
    (∀ (key : K) found, map[key]? = some found -> holds key found) <->
      ∀ entry ∈ map.toList, holds entry.1 entry.2 :=
  ⟨fun all entry member => all entry.1 entry.2 (TreeMap.mem_toList_iff_getElem?_eq_some.mp member),
    fun all key found lookup =>
      all (key, found) (TreeMap.mem_toList_iff_getElem?_eq_some.mpr lookup)⟩

end Entries

theorem lookup_erase (map : TreeMap K V) (removed key : K) :
    (map.erase removed)[key]? = if removed = key then none else map[key]? := by
  rw [TreeMap.getElem?_erase]
  simp only [Std.LawfulEqCmp.compare_eq_iff_eq]

theorem lookup_erase_cases {found : V} (lookup : (map.erase removed)[key]? = some found) :
    key ≠ removed ∧ map[key]? = some found := by
  rw [lookup_erase] at lookup
  split at lookup
  · cases lookup
  · next different => exact ⟨Ne.symm different, lookup⟩

theorem forall_erase {holds : K -> V -> Prop}
    (old : ∀ (key : K) found, map[key]? = some found -> holds key found) :
    ∀ (key : K) found, (map.erase removed)[key]? = some found -> holds key found :=
  fun key found lookup => old key found (lookup_erase_cases lookup).2

omit [DecidableEq K] in
theorem toList_distinct (map : TreeMap K V) :
    map.toList.Pairwise (fun left right => left.1 ≠ right.1) := by
  refine map.distinct_keys_toList.imp ?_
  intro left right different
  simpa only [Std.LawfulEqCmp.compare_eq_iff_eq, ne_eq] using different

omit [DecidableEq K] in
theorem nodup_toList (set : TreeSet K) : set.toList.Nodup := by
  refine set.distinct_toList.imp ?_
  intro _ _ different
  simpa only [Std.LawfulEqCmp.compare_eq_iff_eq, ne_eq] using different

theorem find_toList (map : TreeMap K V) (key : K) :
    map.toList.find? (fun entry => entry.1 = key) = map[key]?.map (fun value => (key, value)) := by
  cases stored : map[key]? with
  | none =>
    rw [map_none, List.find?_eq_none]
    intro entry member
    have present := TreeMap.mem_toList_iff_getElem?_eq_some.mp member
    simp only [decide_eq_true_eq]
    intro same
    rw [same, stored] at present
    cases present
  | some value =>
    have member : (key, value) ∈ map.toList :=
      TreeMap.mem_toList_iff_getElem?_eq_some.mpr stored
    cases found : map.toList.find? (fun entry => entry.1 = key) with
    | none =>
      have absent := List.find?_eq_none.mp found _ member
      simp at absent
    | some entry =>
      have same : entry.1 = key := by simpa using List.find?_some found
      have present := TreeMap.mem_toList_iff_getElem?_eq_some.mp (List.mem_of_find?_eq_some found)
      rw [same, stored] at present
      rw [map_some, some_inj]
      exact Prod.ext same (some_inj.mp present).symm

omit [Std.TransOrd K] [Std.LawfulEqOrd K] in
/-- In a fold over entries with different keys every entry decides about its own key. -/
theorem lookup_foldl {Entry : Type} {overlay : TreeMap K V -> K × Entry -> TreeMap K V}
    {decides : Entry -> Option V -> Option V} {entries : List (K × Entry)}
    (distinct : entries.Pairwise (fun left right => left.1 ≠ right.1))
    (one : ∀ merged entry key, (overlay merged entry)[key]? =
      if entry.1 = key then decides entry.2 merged[key]? else merged[key]?)
    (merged : TreeMap K V) (key : K) :
    (entries.foldl overlay merged)[key]? =
      (entries.find? (fun entry => entry.1 = key)).elim merged[key]?
        (fun entry => decides entry.2 merged[key]?) := by
  induction entries generalizing merged with
  | nil => rfl
  | cons head tail ih =>
    rw [List.foldl_cons, ih (List.Pairwise.of_cons distinct), one]
    by_cases same : head.1 = key
    · have absent : tail.find? (fun entry => decide (entry.1 = key)) = none := by
        rw [List.find?_eq_none]
        intro entry member
        simpa [← same] using (List.rel_of_pairwise_cons distinct member).symm
      simp [absent, same]
    · simp [same]

omit [Std.LawfulEqOrd K] [DecidableEq K] in
theorem isEmpty_iff_lookup (map : TreeMap K V) :
    map.isEmpty = true <-> ∀ key : K, map[key]? = none := by
  rw [TreeMap.isEmpty_iff_forall_not_mem]
  constructor
  · intro empty key
    exact TreeMap.getElem?_eq_none (empty key)
  · intro empty key member
    rw [TreeMap.mem_iff_isSome_getElem?, empty key] at member
    cases member

omit [DecidableEq K] in
theorem least_le {map : TreeMap K Nat} {value : Nat} (stored : map[key]? = some value)
    (default : Nat) : ((map.toList.map Prod.snd).min?).getD default ≤ value := by
  have member : value ∈ map.toList.map Prod.snd :=
    List.mem_map.mpr ⟨(key, value), TreeMap.mem_toList_iff_getElem?_eq_some.mpr stored, rfl⟩
  cases smallest : (map.toList.map Prod.snd).min? with
  | none =>
    rw [List.min?_eq_none_iff.mp smallest] at member
    cases member
  | some => exact (List.min?_eq_some_iff.mp smallest).2 value member

omit [DecidableEq K] in
theorem least_le_default {map : TreeMap K Nat} {bound : Nat}
    (bounded : ∀ (key : K) value, map[key]? = some value -> value ≤ bound) :
    ((map.toList.map Prod.snd).min?).getD bound ≤ bound := by
  cases smallest : (map.toList.map Prod.snd).min? with
  | none => exact Nat.le_refl _
  | some =>
    rcases List.mem_map.mp (List.min?_eq_some_iff.mp smallest).1 with ⟨entry, member, rfl⟩
    exact bounded entry.1 entry.2 (TreeMap.mem_toList_iff_getElem?_eq_some.mp member)

end OrderedMap

end Foundation
end ScaleKv
