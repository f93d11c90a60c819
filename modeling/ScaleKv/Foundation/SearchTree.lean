import Mathlib.Order.WithBot
import Mathlib.Data.List.Sublists

namespace ScaleKv
namespace Foundation

open List

/-!
# Search trees in a heap

A search tree of uniform depth whose nodes are cells of a heap: a leaf holds
its items, a branch the id of its first child and a row of separators, each
followed by the id of the child behind it.  A child is responsible for the keys
from the separator before it up to, but not including, the one behind it.

`Represents` says which items the tree below a cell holds, in which key range,
and which cells it occupies.  Changes are local: a row can be cut around any run
of neighbouring children, the run exchanged for another one over the same range,
and the row put together again.
-/

namespace SearchTree

inductive Node (Id Key Value : Type)
  | leaf (items : List (Key × Value))
  | branch (first : Id) (rest : List (Key × Id))

abbrev Heap (Id Key Value : Type) := Id -> Option (Node Id Key Value)

variable {Id Key Value : Type} [LinearOrder Key] {middle : List (Key × Id)}

/-- A key of the range that a subtree is responsible for. -/
def Inside (low : WithBot Key) (high : WithTop Key) (key : Key) : Prop :=
  low ≤ (key : WithBot Key) ∧ (key : WithTop Key) < high

/-- A separator that cuts a range into two, of which one may be empty. -/
def Between (low : WithBot Key) (high : WithTop Key) (separator : Key) : Prop :=
  low ≤ (separator : WithBot Key) ∧ (separator : WithTop Key) ≤ high

/-- Ascending items of the range. -/
structure Ordered (low : WithBot Key) (high : WithTop Key) (items : List (Key × Value)) : Prop where
  ascending : items.Pairwise (fun left right => left.1 < right.1)
  inside : ∀ item ∈ items, Inside low high item.1

/-- The children of a branch, from left to right, with the ranges that the
separators cut out.  `sub` is what holds of each child. -/
inductive Row
    (sub : Id -> WithBot Key -> WithTop Key -> List (Key × Value) -> List Id -> Prop) :
    WithBot Key -> WithTop Key -> Id -> List (Key × Id) -> List (Key × Value) -> List Id -> Prop
  | last {low : WithBot Key} {high : WithTop Key} {first : Id} {items : List (Key × Value)}
      {ids : List Id} :
      sub first low high items ids -> Row sub low high first [] items ids
  | cons {low : WithBot Key} {high : WithTop Key} {first next : Id} {separator : Key}
      {rest : List (Key × Id)} {items others : List (Key × Value)} {ids otherIds : List Id} :
      sub first low separator items ids -> Between low high separator ->
      Row sub separator high next rest others otherIds ->
      Row sub low high first ((separator, next) :: rest) (items ++ others) (ids ++ otherIds)

/-- The tree below a cell. -/
def Represents (heap : Heap Id Key Value) :
    Nat -> Id -> WithBot Key -> WithTop Key -> List (Key × Value) -> List Id -> Prop
  | 0, id, low, high, items, ids =>
    heap id = some (.leaf items) ∧ Ordered low high items ∧ ids = [id]
  | depth + 1, id, low, high, items, ids =>
    ∃ first rest below, heap id = some (.branch first rest) ∧
      Row (Represents heap depth) low high first rest items below ∧ ids = id :: below

/-! ## Ranges -/

section Ranges

variable {low lower : WithBot Key} {high higher : WithTop Key} {key separator : Key}
variable {items others : List (Key × Value)}

theorem Inside.widen (inside : Inside low high key) (below : lower ≤ low) (above : high ≤ higher) :
    Inside lower higher key :=
  ⟨le_trans below inside.1, lt_of_lt_of_le inside.2 above⟩

theorem Between.widen (between : Between low high key) (below : lower ≤ low)
    (above : high ≤ higher) : Between lower higher key :=
  ⟨le_trans below between.1, le_trans between.2 above⟩

theorem Ordered.widen (ordered : Ordered low high items) (below : lower ≤ low)
    (above : high ≤ higher) : Ordered lower higher items :=
  ⟨ordered.ascending, fun item member => (ordered.inside item member).widen below above⟩

theorem Ordered.append (left : Ordered low separator items) (right : Ordered separator high others)
    (between : Between low high separator) : Ordered low high (items ++ others) where
  ascending := by
    refine pairwise_append.mpr ⟨left.ascending, right.ascending, ?_⟩
    intro item member other otherMember
    have below := WithTop.coe_lt_coe.mp (left.inside item member).2
    exact lt_of_lt_of_le below (WithBot.coe_le_coe.mp (right.inside other otherMember).1)
  inside := by
    intro item member
    rcases mem_append.mp member with isLeft | isRight
    · exact (left.inside item isLeft).widen le_rfl between.2
    · exact (right.inside item isRight).widen between.1 le_rfl

theorem Inside.between (inside : Inside low high key) : Between low high key :=
  ⟨inside.1, le_of_lt inside.2⟩

variable {middle : Key × Value}

theorem Ordered.split (ordered : Ordered low high (items ++ middle :: others)) :
    Ordered low middle.1 items ∧ Ordered middle.1 high (middle :: others) ∧
      Between low high middle.1 := by
  rcases pairwise_append.mp ordered.ascending with ⟨left, right, across⟩
  have inside := fun item member => ordered.inside item (mem_append_right items member)
  have below := fun item member => across item member middle mem_cons_self
  refine ⟨⟨left, ?_⟩, ⟨right, ?_⟩, (inside middle mem_cons_self).between⟩
  · intro item member
    exact ⟨(ordered.inside item (mem_append_left _ member)).1,
      WithTop.coe_lt_coe.mpr (below item member)⟩
  · intro item member
    refine ⟨WithBot.coe_le_coe.mpr ?_, (inside item member).2⟩
    rcases mem_cons.mp member with same | behind
    · rw [same]
    · exact le_of_lt ((pairwise_cons.mp right).1 item behind)

theorem Ordered.low_lt (ordered : Ordered low high (items ++ middle :: others))
    (nonempty : items ≠ []) : low < (middle.1 : WithBot Key) := by
  rcases exists_mem_of_ne_nil items nonempty with ⟨item, member⟩
  have below := (pairwise_append.mp ordered.ascending).2.2 item member middle mem_cons_self
  exact lt_of_le_of_lt (ordered.inside item (mem_append_left _ member)).1
    (WithBot.coe_lt_coe.mpr below)

end Ranges

/-! ## Items -/

section Items

/-- The items after a value is stored under a key. -/
def upsert (key : Key) (value : Value) (items : List (Key × Value)) : List (Key × Value) :=
  items.filter (fun item => item.1 < key) ++ (key, value) :: items.filter (fun item => key < item.1)

def without (key : Key) (items : List (Key × Value)) : List (Key × Value) :=
  items.filter (fun item => item.1 ≠ key)

/-- Where a key is, or would be, in ascending items. -/
inductive Located (key : Key) : List (Key × Value) -> Bool × Nat -> Prop
  | present {before behind : List (Key × Value)} {value : Value} :
      (∀ item ∈ before, item.1 < key) -> (∀ item ∈ behind, key < item.1) ->
      Located key (before ++ (key, value) :: behind) (true, before.length)
  | absent {before behind : List (Key × Value)} :
      (∀ item ∈ before, item.1 < key) -> (∀ item ∈ behind, key < item.1) ->
      Located key (before ++ behind) (false, before.length)

variable {key : Key} {value : Value} {left own right : List (Key × Value)}

section Around

variable (below : ∀ item ∈ left, item.1 < key)
    (above : ∀ item ∈ right, key < item.1)

include below above

theorem filter_lt_append :
    (left ++ (own ++ right)).filter (fun item => item.1 < key) =
      left ++ own.filter (fun item => item.1 < key) := by
  have none : right.filter (fun item => item.1 < key) = [] := by
    refine filter_eq_nil_iff.mpr (fun item member => ?_)
    simpa using le_of_lt (above item member)
  have all : left.filter (fun item => item.1 < key) = left :=
    filter_eq_self.mpr (fun item member => by simpa using below item member)
  rw [filter_append, filter_append, none, all, append_nil]

theorem filter_gt_append :
    (left ++ (own ++ right)).filter (fun item => key < item.1) =
      own.filter (fun item => key < item.1) ++ right := by
  have none : left.filter (fun item => key < item.1) = [] := by
    refine filter_eq_nil_iff.mpr (fun item member => ?_)
    simpa using le_of_lt (below item member)
  have all : right.filter (fun item => key < item.1) = right :=
    filter_eq_self.mpr (fun item member => by simpa using above item member)
  rw [filter_append, filter_append, none, all, nil_append]

theorem upsert_append :
    upsert key value (left ++ (own ++ right)) = left ++ (upsert key value own ++ right) := by
  unfold upsert
  rw [filter_lt_append below above, filter_gt_append below above]
  simp only [append_assoc, cons_append]

theorem upsert_present {old : Value} :
    upsert key value (left ++ (key, old) :: right) = left ++ (key, value) :: right := by
  have stored := @upsert_append Key Value _ key value left [(key, old)] right below above
  simpa [upsert] using stored

theorem upsert_absent :
    upsert key value (left ++ right) = left ++ (key, value) :: right := by
  have stored := @upsert_append Key Value _ key value left [] right below above
  simpa [upsert] using stored

end Around

theorem without_eq_self (absent : ∀ item ∈ own, item.1 ≠ key) : without key own = own :=
  filter_eq_self.mpr (fun item member => by simpa using absent item member)

theorem without_append (below : ∀ item ∈ left, item.1 < key)
    (above : ∀ item ∈ right, key < item.1) :
    without key (left ++ (own ++ right)) = left ++ (without key own ++ right) := by
  have fixLeft := without_eq_self (fun item member => ne_of_lt (below item member))
  have fixRight := without_eq_self (fun item member => ne_of_gt (above item member))
  unfold without at *
  rw [filter_append, filter_append, fixLeft, fixRight]

theorem without_of_ascending
    (ascending : (left ++ (key, value) :: right).Pairwise (fun before behind => before.1 < behind.1)) :
    without key (left ++ (key, value) :: right) = left ++ right := by
  rcases pairwise_append.mp ascending with ⟨_, fromKey, across⟩
  have taken := @without_append Key Value _ key left [(key, value)] right
    (fun item member => across item member _ mem_cons_self) (pairwise_cons.mp fromKey).1
  simpa [without] using taken

theorem length_without_le : (without key own).length ≤ own.length :=
  length_filter_le _ _

theorem length_without_lt (present : key ∈ own.map Prod.fst) :
    (without key own).length < own.length := by
  rcases mem_map.mp present with ⟨item, member, same⟩
  exact length_filter_lt_length_iff_exists.mpr ⟨item, member, by simp [same]⟩

variable {low : WithBot Key} {high : WithTop Key}

theorem ordered_upsert (ordered : Ordered low high own) (inside : Inside low high key) :
    Ordered low high (upsert key value own) where
  ascending := by
    refine pairwise_append.mpr ⟨ordered.ascending.filter _, ?_, ?_⟩
    · refine pairwise_cons.mpr ⟨?_, ordered.ascending.filter _⟩
      intro item member
      simpa using (mem_filter.mp member).2
    · intro item member _ otherMember
      have below : item.1 < key := by simpa using (mem_filter.mp member).2
      rcases mem_cons.mp otherMember with same | behind
      · subst same
        exact below
      · exact lt_trans below (by simpa using (mem_filter.mp behind).2)
  inside := by
    intro item member
    rcases mem_append.mp member with before | rest
    · exact ordered.inside item (mem_filter.mp before).1
    · rcases mem_cons.mp rest with same | behind
      · subst same
        exact inside
      · exact ordered.inside item (mem_filter.mp behind).1

theorem Ordered.sublist {part : List (Key × Value)} (ordered : Ordered low high own)
    (sublist : part.Sublist own) : Ordered low high part :=
  ⟨ordered.ascending.sublist sublist, fun item member => ordered.inside item (sublist.subset member)⟩

end Items

/-! ## Rows -/

section Rows

variable {sub other : Id -> WithBot Key -> WithTop Key -> List (Key × Value) -> List Id -> Prop}
variable {low : WithBot Key} {high : WithTop Key} {first next : Id} {separator : Key}
variable {rest before behind : List (Key × Id)} {items : List (Key × Value)} {ids : List Id}

theorem Row.map (row : Row sub low high first rest items ids)
    (each : ∀ id low high items part, (∀ cell ∈ part, cell ∈ ids) ->
      sub id low high items part -> other id low high items part) :
    Row other low high first rest items ids := by
  induction row with
  | last holds => exact .last (each _ _ _ _ _ (fun _ member => member) holds)
  | cons holds between _ ih =>
    refine .cons (each _ _ _ _ _ (fun _ member => mem_append_left _ member) holds) between (ih ?_)
    intro id low high items part inside
    exact each id low high items part (fun cell member => mem_append_right _ (inside cell member))

theorem row_nil : Row sub low high first [] items ids <-> sub first low high items ids := by
  constructor
  · rintro ⟨holds⟩
    exact holds
  · exact .last

theorem row_append : Row sub low high first (before ++ (separator, next) :: behind) items ids <->
    ∃ left right leftIds rightIds, items = left ++ right ∧ ids = leftIds ++ rightIds ∧
      Between low high separator ∧ Row sub low separator first before left leftIds ∧
      Row sub separator high next behind right rightIds := by
  constructor
  · intro row
    induction before generalizing low first items ids with
    | nil =>
      cases row with
      | cons holds between row => exact ⟨_, _, _, _, rfl, rfl, between, .last holds, row⟩
    | cons head tail ih =>
      cases row with
      | @cons _ _ _ _ cut _ own _ ownIds _ holds between row =>
        rcases ih row with
          ⟨left, right, leftIds, rightIds, itemsEq, idsEq, inner, leftRow, rightRow⟩
        have ordered : cut ≤ separator := WithBot.coe_le_coe.mp inner.1
        refine ⟨own ++ left, right, ownIds ++ leftIds, rightIds, ?_, ?_,
          ⟨le_trans between.1 inner.1, inner.2⟩,
          .cons holds ⟨between.1, WithTop.coe_le_coe.mpr ordered⟩ leftRow, rightRow⟩
        · rw [itemsEq, append_assoc]
        · rw [idsEq, append_assoc]
  · rintro ⟨_, _, _, _, rfl, rfl, between, leftRow, rightRow⟩
    generalize bound : (separator : WithTop Key) = cut at leftRow
    induction leftRow with
    | last holds =>
      subst bound
      exact .cons holds between rightRow
    | cons holds inner _ ih =>
      subst bound
      rw [append_assoc, append_assoc]
      have ordered := WithTop.coe_le_coe.mp inner.2
      exact .cons holds ⟨inner.1, le_trans inner.2 between.2⟩
        (ih ⟨WithBot.coe_le_coe.mpr ordered, between.2⟩ rfl)

/-- The range of the child behind a part of a row. -/
def lowAfter (low : WithBot Key) (before : List (Key × Id)) : WithBot Key :=
  before.getLast?.elim low (fun entry => (entry.1 : WithBot Key))

def highBefore (high : WithTop Key) (behind : List (Key × Id)) : WithTop Key :=
  behind.head?.elim high (fun entry => (entry.1 : WithTop Key))

/-- The child behind a part of a row. -/
def childAfter (first : Id) (before : List (Key × Id)) : Id :=
  before.getLast?.elim first Prod.snd

omit [LinearOrder Key] in
@[simp] theorem lowAfter_snoc : lowAfter low (before ++ [(separator, next)]) = separator := by
  simp [lowAfter]

omit [LinearOrder Key] in
@[simp] theorem highBefore_cons : highBefore high ((separator, next) :: behind) = separator :=
  rfl

omit [LinearOrder Key] in
@[simp] theorem childAfter_snoc : childAfter first (before ++ [(separator, next)]) = next := by
  simp [childAfter]

/-- The children in front of a run of neighbours. -/
inductive Front
    (sub : Id -> WithBot Key -> WithTop Key -> List (Key × Value) -> List Id -> Prop)
    (low : WithBot Key) (first : Id) : List (Key × Id) -> List (Key × Value) -> List Id -> Prop
  | nil : Front sub low first [] [] []
  | snoc {separator : Key} {next : Id} {before : List (Key × Id)} {left : List (Key × Value)}
      {leftIds : List Id} : low ≤ (separator : WithBot Key) ->
      Row sub low separator first before left leftIds ->
      Front sub low first (before ++ [(separator, next)]) left leftIds

variable {left right : List (Key × Value)} {leftIds rightIds : List Id}

theorem Front.row {whole : List (Key × Id)} (front : Front sub low first whole left leftIds)
    (isSnoc : whole = before ++ [(separator, next)]) :
    Row sub low separator first before left leftIds := by
  cases front with
  | nil => simp at isSnoc
  | snoc _ row =>
    rcases append_inj' isSnoc rfl with ⟨rfl, sameLast⟩
    cases sameLast
    exact row

/-- The children behind a run of neighbours. -/
inductive Back
    (sub : Id -> WithBot Key -> WithTop Key -> List (Key × Value) -> List Id -> Prop)
    (high : WithTop Key) : List (Key × Id) -> List (Key × Value) -> List Id -> Prop
  | nil : Back sub high [] [] []
  | cons {separator : Key} {next : Id} {behind : List (Key × Id)} {right : List (Key × Value)}
      {rightIds : List Id} : (separator : WithTop Key) ≤ high ->
      Row sub separator high next behind right rightIds ->
      Back sub high ((separator, next) :: behind) right rightIds

/-- A row without a run of neighbours in its middle. -/
structure Hole
    (sub : Id -> WithBot Key -> WithTop Key -> List (Key × Value) -> List Id -> Prop)
    (low : WithBot Key) (high : WithTop Key) (first : Id) (before behind : List (Key × Id))
    (left right : List (Key × Value)) (leftIds rightIds : List Id) : Prop where
  front : Front sub low first before left leftIds
  back : Back sub high behind right rightIds
  lowBelow : ∀ entry ∈ behind.head?, lowAfter low before ≤ (entry.1 : WithBot Key)
  highAbove : ∀ entry ∈ before.getLast?,
    (entry.1 : WithTop Key) ≤ highBefore high behind

theorem Row.cut (row : Row sub low high first (before ++ (middle ++ behind)) items ids) :
    ∃ left own right leftIds ownIds rightIds,
      items = left ++ (own ++ right) ∧ ids = leftIds ++ (ownIds ++ rightIds) ∧
      Row sub (lowAfter low before) (highBefore high behind) (childAfter first before) middle own
        ownIds ∧
      Hole sub low high first before behind left right leftIds rightIds := by
  -- The cut behind the run, for whatever is in front of it.
  have behindCut : ∀ {low : WithBot Key} {first : Id} {items : List (Key × Value)}
      {ids : List Id}, Row sub low high first (middle ++ behind) items ids ->
      ∃ own right ownIds rightIds, items = own ++ right ∧ ids = ownIds ++ rightIds ∧
        Row sub low (highBefore high behind) first middle own ownIds ∧
        Back sub high behind right rightIds ∧
        ∀ entry ∈ behind.head?, low ≤ (entry.1 : WithBot Key) := by
    intro low first items ids row
    cases behind with
    | nil =>
      rw [append_nil] at row
      exact ⟨items, [], ids, [], by simp, by simp, row, .nil, by simp⟩
    | cons head tail =>
      rcases row_append.mp row with ⟨own, right, ownIds, rightIds, itemsEq, idsEq, between, rows⟩
      refine ⟨own, right, ownIds, rightIds, itemsEq, idsEq, rows.1, .cons between.2 rows.2, ?_⟩
      rintro _ ⟨⟩
      exact between.1
  rcases eq_nil_or_concat before with isNil | ⟨_, ⟨separator, next⟩, isSnoc⟩
  · subst isNil
    rcases behindCut row with ⟨own, right, ownIds, rightIds, itemsEq, idsEq, run, back, below⟩
    exact ⟨[], own, right, [], ownIds, rightIds, itemsEq, idsEq, run, .nil, back, below, by simp⟩
  · subst isSnoc
    rw [concat_eq_append, append_assoc] at row
    rw [concat_eq_append]
    rcases row_append.mp row with
      ⟨left, _, leftIds, _, itemsEq, idsEq, between, leftRow, otherRow⟩
    rcases behindCut otherRow with ⟨own, right, ownIds, rightIds, ownEq, ownIdsEq, run, back, below⟩
    refine ⟨left, own, right, leftIds, ownIds, rightIds, by rw [itemsEq, ownEq],
      by rw [idsEq, ownIdsEq], by rw [lowAfter_snoc, childAfter_snoc]; exact run,
      .snoc between.1 leftRow, back, ?_, ?_⟩
    · rw [lowAfter_snoc]
      exact below
    · intro entry last
      have same : (separator, next) = entry := by simpa using last
      subst same
      cases behind with
      | nil => exact between.2
      | cons head tail => exact WithTop.coe_le_coe.mpr (WithBot.coe_le_coe.mp (below head rfl))

section

variable (hole : Hole sub low high first before behind left right leftIds rightIds)

include hole

/-- Another run over the same range fits into the hole. -/
theorem Hole.fill {own : List (Key × Value)} {ownIds : List Id}
    (run : Row sub (lowAfter low before) (highBefore high behind) (childAfter first before) middle
      own ownIds) :
    Row sub low high first (before ++ (middle ++ behind)) (left ++ (own ++ right))
      (leftIds ++ (ownIds ++ rightIds)) := by
  have withBack : Row sub (lowAfter low before) high (childAfter first before) (middle ++ behind)
      (own ++ right) (ownIds ++ rightIds) := by
    cases hole.back with
    | nil => simpa [highBefore] using run
    | cons below backRow =>
      exact row_append.mpr ⟨own, right, ownIds, rightIds, rfl, rfl,
        ⟨hole.lowBelow _ rfl, below⟩, run, backRow⟩
  cases hole.front with
  | nil => exact withBack
  | @snoc separator next _ _ _ above frontRow =>
    rw [lowAfter_snoc, childAfter_snoc] at withBack
    have highBelow : highBefore high behind ≤ high := by
      cases hole.back with
      | nil => exact le_rfl
      | cons below => exact below
    have between : Between low high separator :=
      ⟨above, le_trans (hole.highAbove (separator, next) (by simp)) highBelow⟩
    rw [append_assoc]
    exact row_append.mpr ⟨left, own ++ right, leftIds, ownIds ++ rightIds, rfl, rfl, between,
      frontRow, withBack⟩

theorem Hole.map
    (each : ∀ id low high items part,
      (∀ cell ∈ part, cell ∈ leftIds ∨ cell ∈ rightIds) ->
      sub id low high items part -> other id low high items part) :
    Hole other low high first before behind left right leftIds rightIds where
  front := by
    cases hole.front with
    | nil => exact .nil
    | snoc above row =>
      exact .snoc above (row.map (fun id low high items part inside =>
        each id low high items part (fun cell member => .inl (inside cell member))))
  back := by
    cases hole.back with
    | nil => exact .nil
    | cons below row =>
      exact .cons below (row.map (fun id low high items part inside =>
        each id low high items part (fun cell member => .inr (inside cell member))))
  lowBelow := hole.lowBelow
  highAbove := hole.highAbove

end

section

variable (row : Row sub low high first rest items ids)

include row

theorem Row.ordered
    (each : ∀ id low high items part, sub id low high items part -> Ordered low high items) :
    Ordered low high items := by
  induction row with
  | last holds => exact each _ _ _ _ _ holds
  | cons holds between _ ih =>
    exact (each _ _ _ _ _ holds).append ih between

theorem Row.between : ∀ entry ∈ rest, Between low high entry.1 := by
  induction row with
  | last => simp
  | cons _ between _ ih =>
    exact forall_mem_cons.mpr ⟨between,
      fun entry inRest => (ih entry inRest).widen between.1 le_rfl⟩

theorem Row.ascending : rest.Pairwise (fun left right => left.1 ≤ right.1) := by
  induction row with
  | last => exact .nil
  | cons _ _ row ih =>
    refine pairwise_cons.mpr ⟨?_, ih⟩
    intro entry member
    exact WithBot.coe_le_coe.mp (row.between entry member).1

theorem Row.widen {lower : WithBot Key} {higher : WithTop Key} (below : lower ≤ low)
    (above : high ≤ higher)
    (each : ∀ id (low lower : WithBot Key) (high higher : WithTop Key) items part,
      lower ≤ low -> high ≤ higher -> sub id low high items part ->
      sub id lower higher items part) : Row sub lower higher first rest items ids := by
  induction row generalizing lower with
  | last holds => exact .last (each _ _ _ _ _ _ _ below above holds)
  | cons holds between _ ih =>
    exact .cons (each _ _ _ _ _ _ _ below le_rfl holds) (between.widen below above)
      (ih le_rfl above)

end

/-- The items around a hole are on both sides of every key of its range. -/
theorem Hole.apart {key : Key}
    (hole : Hole sub low high first before behind left right leftIds rightIds)
    (each : ∀ id low high items part, sub id low high items part -> Ordered low high items)
    (inside : Inside (lowAfter low before) (highBefore high behind) key) :
    (∀ item ∈ left, item.1 < key) ∧ (∀ item ∈ right, key < item.1) := by
  constructor
  · intro item member
    cases hole.front with
    | nil => simp at member
    | snoc _ row =>
      have below := WithTop.coe_lt_coe.mp ((row.ordered each).inside item member).2
      exact lt_of_lt_of_le below (WithBot.coe_le_coe.mp (by simpa using inside.1))
  · intro item member
    cases hole.back with
    | nil => simp at member
    | cons _ row =>
      have above := WithBot.coe_le_coe.mp ((row.ordered each).inside item member).1
      exact lt_of_lt_of_le (WithTop.coe_lt_coe.mp (by simpa using inside.2)) above

end Rows

/-! ## Trees -/

section Trees

variable {heap changed : Heap Id Key Value} {depth : Nat} {id : Id} {low lower : WithBot Key}
variable {high higher : WithTop Key} {items : List (Key × Value)} {ids : List Id}

section

variable (tree : Represents heap depth id low high items ids)

include tree

theorem Represents.mem : id ∈ ids := by
  cases depth with
  | zero => simp [tree.2.2]
  | succ =>
    rcases tree with ⟨_, _, _, _, _, idsEq⟩
    simp [idsEq]

theorem Represents.ordered : Ordered low high items := by
  induction depth generalizing id low high items ids with
  | zero => exact tree.2.1
  | succ _ ih =>
    rcases tree with ⟨_, _, _, _, row, _⟩
    exact row.ordered (fun _ _ _ _ _ holds => ih holds)

theorem Represents.frame (agree : ∀ cell ∈ ids, changed cell = heap cell) :
    Represents changed depth id low high items ids := by
  induction depth generalizing id low high items ids with
  | zero => exact ⟨(agree id tree.mem).trans tree.1, tree.2⟩
  | succ _ ih =>
    have inTree := tree.mem
    rcases tree with ⟨first, rest, below, node, row, idsEq⟩
    refine ⟨first, rest, below, (agree id inTree).trans node, ?_, idsEq⟩
    refine row.map (fun child low high items part inside holds => ih holds ?_)
    intro cell member
    exact agree cell (by rw [idsEq]; exact mem_cons_of_mem _ (inside cell member))

theorem Represents.widen (below : lower ≤ low) (above : high ≤ higher) :
    Represents heap depth id lower higher items ids := by
  induction depth generalizing id low lower high higher items ids with
  | zero => exact ⟨tree.1, tree.2.1.widen below above, tree.2.2⟩
  | succ _ ih =>
    rcases tree with ⟨first, rest, cells, node, row, idsEq⟩
    exact ⟨first, rest, cells, node, row.widen below above (fun _ _ _ _ _ _ _ below above holds =>
        ih holds below above), idsEq⟩

/-- A path to a leaf takes a cell on each level. -/
theorem Represents.depth_lt : depth < ids.length := by
  induction depth generalizing id low high items ids with
  | zero => simp [tree.2.2]
  | succ depth ih =>
    rcases tree with ⟨_, _, below, _, row, idsEq⟩
    have deep : depth < below.length := by
      cases row with
      | last holds => exact ih holds
      | cons holds =>
        have := ih holds
        simp only [length_append]
        omega
    simp only [idsEq, length_cons]
    omega

end

/-- A branch whose row has a hole, over a heap in which the run that fills the
hole and the node itself have changed. -/
theorem Hole.rebuild {first : Id} {before behind : List (Key × Id)}
    {left own right : List (Key × Value)} {leftIds ownIds rightIds : List Id}
    (hole : Hole (Represents heap depth) low high first before behind left right leftIds rightIds)
    (agree : ∀ cell, cell ∈ leftIds ∨ cell ∈ rightIds -> changed cell = heap cell)
    (node : changed id = some (.branch first (before ++ (middle ++ behind))))
    (run : Row (Represents changed depth) (lowAfter low before) (highBefore high behind)
      (childAfter first before) middle own ownIds) :
    Represents changed (depth + 1) id low high (left ++ (own ++ right))
      (id :: (leftIds ++ (ownIds ++ rightIds))) := by
  have framed := hole.map (fun _ _ _ _ _ inside (holds : Represents heap depth _ _ _ _ _) =>
    holds.frame (fun cell member => agree cell (inside cell member)))
  exact ⟨first, _, _, node, framed.fill run, rfl⟩

end Trees

end SearchTree

end Foundation
end ScaleKv
