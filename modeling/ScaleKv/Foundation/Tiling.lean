import Mathlib.Data.List.Basic

namespace ScaleKv
namespace Foundation

universe u

/-!
# Ranges that follow one another

A list of ranges tiles the numbers from a start to a stop if the first one begins
at the start, each one begins where the one before it ends, and the last one ends
at the stop.  No range is empty.  Such a list is what a counter that hands out
consecutive ranges has handed out, as long as they are given back from the front.
-/

section

variable {Range : Type u} (first last : Range -> Nat)

/-- The ranges lead from `start` to `stop` without gap or overlap. -/
def Tiles (start : Nat) : List Range -> Nat -> Prop
  | [], stop => start = stop
  | range :: rest, stop => first range = start ∧ start < last range ∧ Tiles (last range) rest stop

end

namespace Tiles

variable {Range : Type u} {first last : Range -> Nat} {start stop : Nat} {ranges : List Range}

variable (tiles : Tiles first last start ranges stop) {range : Range}

include tiles

theorem le : start ≤ stop := by
  induction ranges generalizing start with
  | nil => exact Nat.le_of_eq tiles
  | cons _ _ ih =>
    exact Nat.le_of_lt (Nat.lt_of_lt_of_le tiles.2.1 (ih tiles.2.2))

theorem bounds (member : range ∈ ranges) :
    start ≤ first range ∧ first range < last range ∧ last range ≤ stop := by
  induction ranges generalizing start with
  | nil => cases member
  | cons head _ ih =>
    rcases tiles with ⟨begins, proper, behind⟩
    rcases List.mem_cons.mp member with same | inside
    · rw [same, begins]
      exact ⟨Nat.le_refl _, proper, behind.le⟩
    · rcases ih behind inside with ⟨above, properInside, below⟩
      exact ⟨Nat.le_of_lt (Nat.lt_of_lt_of_le proper above), properInside, below⟩

theorem snoc (begins : first range = stop) (proper : stop < last range) :
    Tiles first last start (ranges ++ [range]) (last range) := by
  induction ranges generalizing start with
  | nil =>
    cases tiles
    exact ⟨begins, proper, rfl⟩
  | cons head _ ih =>
    exact ⟨tiles.1, tiles.2.1, ih tiles.2.2⟩

theorem front (member : range ∈ ranges) (begins : first range = start) :
    ∃ rest, ranges = range :: rest := by
  cases ranges with
  | nil => cases member
  | cons head rest =>
    rcases List.mem_cons.mp member with same | inside
    · exact ⟨rest, same ▸ rfl⟩
    · exact absurd begins (Nat.ne_of_gt (Nat.lt_of_lt_of_le tiles.2.1 (tiles.2.2.bounds inside).1))

theorem nodup : ranges.Nodup := by
  induction ranges generalizing start with
  | nil => exact List.nodup_nil
  | cons head _ ih =>
    rcases tiles with ⟨_, _, behind⟩
    refine List.nodup_cons.mpr ⟨?_, ih behind⟩
    intro member
    have above := (behind.bounds member).1
    omega

theorem givesBack (member : range ∈ ranges) (begins : first range = start) :
    Tiles first last (last range) ranges.tail stop ∧
      ∀ other, other ∈ ranges.tail <-> other ∈ ranges ∧ other ≠ range := by
  rcases tiles.front member begins with ⟨rest, rfl⟩
  refine ⟨tiles.2.2, ?_⟩
  intro other
  rw [List.tail_cons, List.mem_cons]
  constructor
  · intro inside
    refine ⟨.inr inside, ?_⟩
    rintro rfl
    exact (List.nodup_cons.mp tiles.nodup).1 inside
  · rintro ⟨inside, different⟩
    exact inside.resolve_left different

end Tiles

end Foundation
end ScaleKv
