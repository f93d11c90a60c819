import ScaleKv.TxnKv.Manager

namespace ScaleKv
namespace TxnKv
namespace Txn

open Foundation.OrderedMap List

/-!
# Scans of a transaction

A scan lays the writes of the transaction over the visible versions of a range
and gives the rows that a get of every key would give.  It does not look at the
order of its bounds, except that equal ones end it, and `BTreeMap::range` panics
when the first lies behind the second and the store has a row.
-/

section Overlay

variable {Entry : Type} {overlay : Std.TreeMap Key Value -> Key × Entry -> Std.TreeMap Key Value}
  {decides : Entry -> Option Value -> Option Value}

theorem lookup_overlay (map : Std.TreeMap Key Entry) (start finish : Key)
    (one : ∀ merged entry key, (overlay merged entry)[key]? =
      if entry.1 = key then decides entry.2 merged[key]? else merged[key]?)
    (merged : Std.TreeMap Key Value) (key : Key) :
    ((map.toList.filter (fun entry => start ≤ entry.1 ∧ entry.1 < finish)).foldl overlay merged)[key]? =
      if start ≤ key ∧ key < finish then
        map[key]?.elim merged[key]? (fun entry => decides entry merged[key]?)
      else merged[key]? := by
  rw [lookup_foldl ((toList_distinct map).filter _) one, find?_filter]
  have selected (entry : Key × Entry) :
      decide ((start ≤ entry.1 ∧ entry.1 < finish) ∧ entry.1 = key) =
        decide ((start ≤ key ∧ key < finish) ∧ entry.1 = key) := by
    by_cases same : entry.1 = key <;> simp [same]
  simp only [decide_eq_true_eq, selected]
  split
  · next inside =>
    simp only [inside, and_self, true_and, find_toList]
    cases map[key]? <;> rfl
  · next outside =>
    rw [find?_eq_none.mpr (by simp [outside])]
    rfl

end Overlay

variable (txn : Txn) (store : Store) {start finish : Key}

theorem lookup_scanRange (key : Key) :
    (txn.scanRange store start finish)[key]? =
      if start ≤ key ∧ key < finish then txn.read store key else none := by
  unfold scanRange
  rw [@lookup_overlay _ _ (fun write _ => write) _ _ _ ?_, @lookup_overlay _ _ (fun versions found =>
    ((visibleVersion versions txn.readTs).bind Version.value).or found) _ _ _ ?_,
    Std.TreeMap.getElem?_emptyc]
  · unfold Txn.read readAtTs versionsOf
    rw [Std.TreeMap.getD_eq_getD_getElem?]
    split
    · cases txn.writeSet[key]? <;> cases store[key]? <;> simp [visibleVersion]
    · rfl
  · intro _ _ key
    split
    · next _ found => simp [lookup_insert, found]
    · next none => simp [none]
  · intro _ _ key
    split
    · next _ found => rw [lookup_insert, found]
    · next none => rw [lookup_erase, none]

theorem parseKey_bytes (key : Key) : parseKey key.bytes = .ok key := dif_pos key.length_eq

theorem mem_toList_scanRange (key : Key) (value : Value) :
    (key, value) ∈ (txn.scanRange store start finish).toList <-> start ≤ key ∧ key < finish ∧
      txn.get store false key.bytes = .ok (key, some value) := by
  rw [Std.TreeMap.mem_toList_iff_getElem?_eq_some, lookup_scanRange]
  have got : txn.get store false key.bytes = .ok (key, txn.read store key) := by
    rw [get, parseKey_bytes]
    rfl
  rw [got]
  split
  · next inside => simp [inside]
  · next outside => simp [← and_assoc, outside]

theorem toList_scanRange_eq_nil (behind : finish ≤ start) :
    (txn.scanRange store start finish).toList = [] := by
  refine eq_nil_iff_forall_not_mem.mpr (fun row member => ?_)
  rcases (mem_toList_scanRange txn store row.1 row.2).mp member with ⟨above, below, _⟩
  exact absurd (above.trans_lt below) (not_lt.mpr behind)

/-- The scan returns the first rows, in the order of their keys, that `get` finds
between its bounds. -/
def ScansAsGets (start finish : Key) (limit : Nat) : Prop :=
  ∃ rows : List (Key × Value), rows.Pairwise (fun left right => left.1 < right.1) ∧
    (∀ key value, (key, value) ∈ rows <-> start ≤ key ∧ key < finish ∧
      txn.get store false key.bytes = .ok (key, some value)) ∧
    txn.scan store false start.bytes finish.bytes limit = .returned (.ok (rows.take limit))

/-- This is so exactly if the bounds are in order, nothing is asked for, or the
store has no row. -/
theorem scan_eq_gets {limit : Nat} :
    ScansAsGets txn store start finish limit <-> limit = 0 ∨ start ≤ finish ∨ store.isEmpty = true := by
  constructor
  · rintro ⟨_, _, _, scanned⟩
    by_contra inverted
    rcases not_or.mp inverted with ⟨asked, inverted⟩
    rcases not_or.mp inverted with ⟨notOrdered, filled⟩
    have behind := not_le.mp notOrdered
    simp [scan, ensureNotTimedOut, parseKey_bytes, asked, behind.ne', behind, filled] at scanned
  · intro ordered
    refine ⟨(txn.scanRange store start finish).toList, ?_, mem_toList_scanRange txn store, ?_⟩
    · exact Std.TreeMap.ordered_keys_toList.imp (fun below => compare_lt_iff_lt.mp below)
    · by_cases none : limit = 0
      · simp [scan, ensureNotTimedOut, none]
      · simp only [scan, ensureNotTimedOut, parseKey_bytes, if_neg none]
        by_cases same : start = finish
        · subst same
          simp [toList_scanRange_eq_nil]
        · rcases ordered.resolve_left none with inOrder | empty
          · simp [same, not_lt.mpr inOrder]
          · simp [same, empty]

/-- A scan of a store with one row panics when its bounds are inverted. -/
theorem scan_panics : ¬ ∀ (txn : Txn) (store : Store) (start finish : Key) (limit : Nat),
    ScansAsGets txn store start finish limit := by
  intro scans
  rcases scans ⟨1, false, ∅⟩ ((∅ : Store).insert (Key.ofNat 1) [⟨1, some [5]⟩]) (Key.ofNat 2)
    (Key.ofNat 1) 1 with ⟨_, _, _, scanned⟩
  have inverted : Key.ofNat 1 < Key.ofNat 2 := by decide
  simp [scan, ensureNotTimedOut, parseKey_bytes, inverted.ne', inverted] at scanned

end Txn
end TxnKv
end ScaleKv
