import Mathlib.Data.List.Nodup
import Mathlib.Data.List.Perm.Subperm

namespace ScaleKv
namespace Foundation

open List

universe u v

/-!
# Caches that drop the least recently used entry

The entries are listed from the most recently used to the least recently used
one.  A run of puts with distinct keys leaves the last of them that fit, which
is a closed form for the contents of a cache that was filled by a scan.
-/

structure Lru (K : Type u) (V : Type v) where
  capacity : Nat
  entries : List (K × V)
  positive : 0 < capacity
  distinct : (entries.map Prod.fst).Nodup
  fits : entries.length ≤ capacity

namespace Lru

variable {K : Type u} {V : Type v} [DecidableEq K]

omit [DecidableEq K] in
def empty (capacity : Nat) (positive : 0 < capacity) : Lru K V :=
  { capacity := capacity
    entries := []
    positive := positive
    distinct := nodup_nil
    fits := Nat.zero_le _ }

/-- The entries of the other keys. -/
def others (cache : Lru K V) (key : K) : List (K × V) :=
  cache.entries.filter (fun entry => entry.1 ≠ key)

theorem not_mem_others (cache : Lru K V) (key : K) : key ∉ (cache.others key).map Prod.fst := by
  intro member
  rcases mem_map.mp member with ⟨_, inside, same⟩
  exact of_decide_eq_true (mem_filter.mp inside).2 same

theorem distinct_others (cache : Lru K V) (key : K) : ((cache.others key).map Prod.fst).Nodup :=
  cache.distinct.sublist (filter_sublist.map Prod.fst)

/-- Without the entry of a key there is room for it, or the last entry goes. -/
def put (cache : Lru K V) (key : K) (value : V) : Lru K V :=
  { capacity := cache.capacity
    entries := (key, value) :: (cache.others key).take (cache.capacity - 1)
    positive := cache.positive
    distinct := by
      refine nodup_cons.mpr ⟨?_, ?_⟩
      · intro member
        exact cache.not_mem_others key ((take_sublist _ _).map Prod.fst |>.subset member)
      · exact (cache.distinct_others key).sublist ((take_sublist _ _).map Prod.fst)
    fits := by
      have short := length_take_le (cache.capacity - 1) (cache.others key)
      have positive := cache.positive
      rw [length_cons]
      omega }

/-- The value of a key, without using it. -/
def peek (cache : Lru K V) (key : K) : Option V :=
  (cache.entries.find? (fun entry => entry.1 = key)).map Prod.snd

/-- The value of a key, which becomes the most recently used one. -/
def get (cache : Lru K V) (key : K) : Option V × Lru K V :=
  match cache.peek key with
  | some value => (some value, cache.put key value)
  | none => (none, cache)

theorem get_fst (cache : Lru K V) (key : K) : (cache.get key).1 = cache.peek key := by
  unfold get
  split
  · next found => exact found.symm
  · next missing => exact missing.symm

variable {cache : Lru K V} {pages rest : List (K × V)} {capacity : Nat} {positive : 0 < capacity}
  {first : K × V} {working : List K} {key used : K} {value new : V}

theorem peek_of_mem (member : (key, value) ∈ cache.entries) : cache.peek key = some value := by
  unfold peek
  cases found : cache.entries.find? (fun entry => entry.1 = key) with
  | none => exact absurd (decide_eq_true rfl) (find?_eq_none.mp found _ member)
  | some entry =>
    have selected := find?_some found
    have same : entry.1 = key := of_decide_eq_true selected
    rw [inj_on_of_nodup_map cache.distinct (mem_of_find?_eq_some found) member same]
    rfl

/-! ## A working set -/

/-- The entry is in the cache, and no key outside the working set was used since. -/
def Keeps (cache : Lru K V) (working : List K) (key : K) (value : V) : Prop :=
  ∃ recent, recent <+: cache.entries ∧ recent.map Prod.fst ⊆ working ∧ (key, value) ∈ recent

omit [DecidableEq K] in
theorem Keeps.mem (keeps : cache.Keeps working key value) : (key, value) ∈ cache.entries := by
  rcases keeps with ⟨recent, front, _, kept⟩
  exact front.subset kept

theorem keeps_put (cache : Lru K V) (value : V) (member : key ∈ working) :
    (cache.put key value).Keeps working key value :=
  ⟨[(key, value)], prefix_append _ _, by simpa using member, mem_singleton_self _⟩

/-- A working set that fits drives none of its entries out. -/
theorem Keeps.put (keeps : cache.Keeps working key value) (fits : working.length ≤ cache.capacity)
    (member : used ∈ working) (other : used ≠ key) : (cache.put used new).Keeps working key value := by
  rcases keeps with ⟨recent, front, inside, kept⟩
  let left := recent.filter (fun entry => entry.1 ≠ used)
  have distinct : (used :: left.map Prod.fst).Nodup := by
    refine nodup_cons.mpr ⟨by simp [left], ?_⟩
    exact (cache.distinct.sublist (front.sublist.map _)).sublist (filter_sublist.map _)
  have subset : used :: left.map Prod.fst ⊆ working :=
    cons_subset.mpr ⟨member, fun _ isLeft => inside ((filter_sublist.map _).subset isLeft)⟩
  have short := (distinct.subperm subset).length_le
  rw [length_cons, length_map] at short
  refine ⟨(used, new) :: left, cons_prefix_cons.mpr ⟨rfl, ?_⟩, subset, ?_⟩
  · exact prefix_take_iff.mpr ⟨front.filter _, by omega⟩
  · exact mem_cons_of_mem _ (mem_filter.mpr ⟨kept, by simpa using Ne.symm other⟩)

/-! ## Filling a cache -/

def putAll (cache : Lru K V) (pages : List (K × V)) : Lru K V :=
  pages.foldl (fun filled entry => filled.put entry.1 entry.2) cache

theorem put_entries_of_new (value : V) (new : key ∉ cache.entries.map Prod.fst) :
    (cache.put key value).entries = ((key, value) :: cache.entries).take cache.capacity := by
  have unchanged : cache.others key = cache.entries := by
    apply filter_eq_self.mpr
    intro _ member
    apply decide_eq_true
    rintro rfl
    exact new (mem_map_of_mem member)
  show (key, value) :: (cache.others key).take (cache.capacity - 1) = _
  rw [unchanged, ← take_succ_cons, Nat.sub_add_cancel cache.positive]

section

variable (distinct : (pages.map Prod.fst).Nodup)

include distinct

theorem putAll_entries (new : ∀ entry ∈ pages, entry.1 ∉ cache.entries.map Prod.fst) :
    (cache.putAll pages).entries = (pages.reverse ++ cache.entries).take cache.capacity := by
  induction pages generalizing cache with
  | nil => exact (take_of_length_le cache.fits).symm
  | cons first rest ih =>
    rcases nodup_cons.mp distinct with ⟨firstNew, restDistinct⟩
    have entries := put_entries_of_new first.2 (new first mem_cons_self)
    have after : ((cache.put first.1 first.2).putAll rest).entries =
        (rest.reverse ++ (cache.put first.1 first.2).entries).take cache.capacity := by
      apply ih restDistinct
      intro entry member
      rw [entries]
      intro kept
      rcases mem_map.mp kept with ⟨other, inside, same⟩
      rcases mem_cons.mp ((take_sublist _ _).subset inside) with rfl | old
      · exact firstNew (mem_map.mpr ⟨entry, member, same.symm⟩)
      · exact new entry (mem_cons_of_mem _ member) (mem_map.mpr ⟨other, old, same⟩)
    show ((cache.put first.1 first.2).putAll rest).entries = _
    rw [after, entries, reverse_cons, append_assoc, singleton_append,
      take_append, take_append, take_take, Nat.min_eq_left (Nat.sub_le _ _)]

theorem putAll_empty_entries :
    ((empty capacity positive).putAll pages).entries = pages.reverse.take capacity := by
  rw [putAll_entries distinct (fun _ _ => not_mem_nil)]
  exact congrArg (take capacity) (append_nil _)

theorem peek_putAll_missing (missing : key ∉ pages.map Prod.fst) :
    ((empty capacity positive).putAll pages).peek key = none := by
  unfold peek
  rw [putAll_empty_entries distinct, Option.map_eq_none_iff, find?_eq_none]
  intro entry kept same
  have member : entry ∈ pages := mem_reverse.mp ((take_sublist _ _).subset kept)
  exact missing (mem_map.mpr ⟨entry, member, of_decide_eq_true same⟩)

end

omit [DecidableEq K] in
/-- The first entry of a list is among its last ones if and only if they are all. -/
theorem mem_take_reverse_cons {bound : Nat} (new : first ∉ rest) :
    first ∈ (first :: rest).reverse.take bound <-> (first :: rest).length ≤ bound := by
  rw [reverse_cons, take_append, mem_append, length_reverse, length_cons]
  constructor
  · rintro (earlier | last)
    · exact absurd (mem_reverse.mp ((take_sublist _ _).subset earlier)) new
    · by_cases room : rest.length < bound
      · exact room
      · rw [Nat.sub_eq_zero_of_le (Nat.le_of_not_lt room), take_zero] at last
        cases last
  · intro room
    right
    rw [take_of_length_le]
    · exact mem_singleton_self first
    · rw [length_singleton]
      omega

/-- A cache that is filled from the start keeps the first entry if and only if
nothing had to be dropped. -/
theorem peek_putAll_first (distinct : ((first :: rest).map Prod.fst).Nodup) :
    ((empty capacity positive).putAll (first :: rest)).peek first.1 =
      if (first :: rest).length ≤ capacity then some first.2 else none := by
  have firstNew := (nodup_cons.mp distinct).1
  have new : first ∉ rest := fun member => firstNew (mem_map_of_mem member)
  split
  · next room =>
    apply peek_of_mem
    rw [putAll_empty_entries distinct]
    exact (mem_take_reverse_cons new).mpr room
  · next full =>
    unfold peek
    rw [putAll_empty_entries distinct, Option.map_eq_none_iff, find?_eq_none]
    intro entry kept same
    have member : entry ∈ first :: rest :=
      mem_reverse.mp ((take_sublist _ _).subset kept)
    have isFirst := inj_on_of_nodup_map distinct member mem_cons_self (of_decide_eq_true same)
    exact full ((mem_take_reverse_cons new).mp (isFirst ▸ kept))

end Lru

end Foundation
end ScaleKv
