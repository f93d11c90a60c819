import ScaleKv.Storage.Wal

namespace ScaleKv
namespace Storage
namespace SlottedPage

open List

/-!
# Redo of a slot delete

`clear_slot` writes four bytes at the place that a directory entry with the given
number would have.  Nothing compares the number with the slots of the page, so
the bytes may belong to a record or lie behind the page.
-/

variable {page : Bytes} {header : Header}

section Slices

variable {after : Bytes} {position length : Nat}

theorem slice_congr (sameLength : after.length = page.length)
    (same : ∀ index, position ≤ index -> index < position + length ->
      after[index]? = page[index]?) : slice after position length = slice page position length := by
  unfold slice
  rw [sameLength]
  split
  · refine congrArg _ (ext_getElem? (fun index => ?_))
    simp only [getElem?_take, getElem?_drop]
    split
    · exact same _ (by omega) (by omega)
    · rfl
  · rfl

theorem getElem?_eq_of_slice {index : Nat} (sameLength : after.length = page.length)
    (inside : position + length ≤ page.length)
    (same : slice after position length = slice page position length) (above : position ≤ index)
    (below : index < position + length) : after[index]? = page[index]? := by
  unfold slice at same
  rw [sameLength, if_pos inside, if_pos inside, Except.ok.injEq] at same
  have atIndex := congrArg (fun bytes : Bytes => bytes[index - position]?) same
  simpa only [getElem?_take, getElem?_drop, Nat.add_sub_of_le above,
    if_pos (show index - position < length by omega)] using atIndex

theorem readU16_zero (first : page[position]? = some 0) (second : page[position + 1]? = some 0) :
    readU16 page position = .ok 0 := by
  rcases List.getElem?_eq_some_iff.mp first with ⟨_, atFirst⟩
  rcases List.getElem?_eq_some_iff.mp second with ⟨inside, atSecond⟩
  unfold readU16 slice
  rw [if_pos (by omega), drop_eq_getElem_cons (by omega), drop_eq_getElem_cons inside, atFirst, atSecond]
  rfl

end Slices

theorem copyInto_spec {data : Bytes} {offset : Nat} (fits : offset + data.length ≤ page.length) :
    ∃ after, copyInto page offset data = .ok after ∧ after.length = page.length ∧
      ∀ position, after[position]? =
        if offset ≤ position ∧ position < offset + data.length then data[position - offset]?
        else page[position]? := by
  have start : (page.take offset).length = offset := by
    rw [length_take]
    omega
  refine ⟨_, if_pos fits, ?_, fun position => ?_⟩
  · simp only [length_append, length_drop]
    omega
  · simp only [getElem?_append, length_append, start, getElem?_take, getElem?_drop]
    rcases Nat.lt_or_ge position offset with before | above
    · rw [if_pos (by omega), if_pos before, if_pos before, if_neg (by omega)]
    · rcases Nat.lt_or_ge position (offset + data.length) with inside | behind
      · rw [if_pos inside, if_neg (by omega), if_pos ⟨above, inside⟩]
      · rw [if_neg (by omega), if_neg (by omega), Nat.add_sub_of_le behind]

/-- The four bytes become zero if they lie in the page, and nothing else changes. -/
theorem clearSlot_spec {slotId : Nat} (length_eq : page.length = pageSize)
    (fits : slotOffset slotId + slotEntrySize ≤ pageSize) :
    ∃ after, clearSlot page slotId = .ok after ∧ after.length = page.length ∧
      ∀ position, after[position]? =
        if slotOffset slotId ≤ position ∧ position < slotOffset slotId + slotEntrySize then some 0
        else page[position]? := by
  have two : (u16ToLeBytes 0).length = 2 := rfl
  have zeros : ∀ index, index < 2 -> (u16ToLeBytes 0)[index]? = some 0 := by decide
  unfold slotEntrySize at fits ⊢
  rcases @copyInto_spec page (u16ToLeBytes 0) (slotOffset slotId) (by rw [two]; omega) with
    ⟨first, firstWritten, firstLength, firstBytes⟩
  rcases @copyInto_spec first (u16ToLeBytes 0) (slotOffset slotId + 2) (by rw [two]; omega) with
    ⟨after, written, length, bytes⟩
  refine ⟨after, ?_, length.trans firstLength, fun position => ?_⟩
  · unfold clearSlot writeSlot writeU16
    rw [if_neg (not_not.mpr length_eq), firstWritten]
    exact written
  · rw [bytes, firstBytes, two]
    split
    · rw [zeros _ (by omega), if_pos (by omega)]
    · split
      · rw [zeros _ (by omega), if_pos (by omega)]
      · rw [if_neg (by omega)]

theorem fits_of_clearSlot {after : Bytes} {slotId : Nat} (length_eq : page.length = pageSize)
    (cleared : clearSlot page slotId = .ok after) : slotOffset slotId + slotEntrySize ≤ pageSize := by
  unfold clearSlot writeSlot at cleared
  rw [if_neg (not_not.mpr length_eq)] at cleared
  rcases bind_eq_ok.mp cleared with ⟨first, firstWritten, written⟩
  unfold writeU16 copyInto at firstWritten written
  split at firstWritten
  · next firstFits =>
    split at written
    · next fits =>
      cases firstWritten
      simp only [length_append, length_take, length_drop, u16ToLeBytes, length_cons, length_nil]
        at fits firstFits
      unfold slotEntrySize
      omega
    · cases written
  · cases firstWritten

/-- Header and directory in front, the records in the area behind `free_end`. -/
structure WellFormed (page : Bytes) (header : Header) : Prop where
  length_eq : page.length = pageSize
  header_eq : readHeader page = .ok header
  directory : header.freeStart = slotOffset header.slots
  free : header.freeStart ≤ header.freeEnd
  bounded : header.freeEnd ≤ pageSize
  records : ∀ slotId slot, slotId < header.slots -> readSlot page slotId = .ok slot ->
    slot.2 ≠ 0 -> header.freeEnd ≤ slot.1 ∧ slot.1 + slot.2 ≤ pageSize

/-- A redo that empties its slot, if the page has it, and does nothing else. -/
def DeletesOnly (page : Bytes) (header : Header) (record : WalRecord) : Prop :=
  ∃ after, applyWalRecord page record = .ok after ∧ readHeader after = .ok header ∧
    (record.slotId < header.slots -> readSlot after record.slotId = .ok (0, 0)) ∧
    ∀ slotId slot, slotId < header.slots -> slotId ≠ record.slotId ->
      readSlot page slotId = .ok slot -> readSlot after slotId = .ok slot ∧
        (slot.2 ≠ 0 -> slice after slot.1 slot.2 = slice page slot.1 slot.2)

/-- A delete does so exactly if its four bytes lie in the page and are zero already
wherever they belong to the record of another slot. -/
theorem applyWalRecord_pageDel {record : WalRecord} (formed : WellFormed page header)
    (isDelete : record.op = .pageDel) :
    DeletesOnly page header record <->
      slotOffset record.slotId + slotEntrySize ≤ pageSize ∧
        ∀ slotId slot, slotId < header.slots -> slotId ≠ record.slotId ->
          readSlot page slotId = .ok slot -> slot.2 ≠ 0 -> ∀ position,
          slot.1 ≤ position -> position < slot.1 + slot.2 -> slotOffset record.slotId ≤ position ->
          position < slotOffset record.slotId + slotEntrySize -> page[position]? = some 0 := by
  have redo : applyWalRecord page record = clearSlot page record.slotId := by
    unfold applyWalRecord
    rw [isDelete]
  constructor
  · rintro ⟨after, redone, _, _, others⟩
    rw [redo] at redone
    have fits := fits_of_clearSlot formed.length_eq redone
    rcases clearSlot_spec formed.length_eq fits with ⟨_, again, sameLength, bytes⟩
    cases again.symm.trans redone
    refine ⟨fits, fun slotId slot listed other found live position above below start stop => ?_⟩
    have kept := (others slotId slot listed other found).2 live
    have inside := (formed.records slotId slot listed found live).2
    rw [← formed.length_eq] at inside
    rw [← getElem?_eq_of_slice sameLength inside kept above below, bytes, if_pos ⟨start, stop⟩]
  · rintro ⟨fits, zero⟩
    rcases clearSlot_spec formed.length_eq fits with ⟨after, cleared, sameLength, bytes⟩
    have apart : ∀ position length,
        position + length ≤ slotOffset record.slotId ∨
          slotOffset record.slotId + slotEntrySize ≤ position ->
        slice after position length = slice page position length := by
      intro position length outside
      refine slice_congr sameLength (fun index _ _ => ?_)
      rw [bytes, if_neg (by omega)]
    refine ⟨after, redo.trans cleared, ?_, fun _ => ?_, ?_⟩
    · rw [← formed.header_eq]
      unfold slotOffset pageHeaderSize at apart
      unfold readHeader readU16
      rw [apart _ _ (by omega), apart _ _ (by omega), apart _ _ (by omega)]
    · have zeros : ∀ index, index < slotEntrySize ->
          after[slotOffset record.slotId + index]? = some 0 := by
        intro index inside
        rw [bytes, if_pos (by omega)]
      unfold readSlot
      rw [← Nat.add_zero (slotOffset record.slotId), readU16_zero (zeros 0 (by decide))
        (zeros 1 (by decide)), readU16_zero (zeros 2 (by decide)) (zeros 3 (by decide))]
      rfl
    · intro slotId slot listed other found
      constructor
      · rw [← found]
        unfold slotOffset slotEntrySize at apart
        unfold readSlot readU16 slotOffset slotEntrySize
        rw [apart _ _ (by omega), apart _ _ (by omega)]
      · intro live
        refine slice_congr sameLength (fun position above below => ?_)
        rw [bytes]
        split
        · next own => exact (zero slotId slot listed other found live position above below own.1 own.2).symm
        · rfl

theorem slice_append_left {front rest : Bytes} {position length : Nat}
    (inside : position + length ≤ front.length) :
    slice (front ++ rest) position length = slice front position length := by
  unfold slice
  rw [if_pos inside, if_pos (by simp only [length_append]; omega), drop_append_of_le_length (by omega),
    take_append_of_le_length (by rw [length_drop]; omega)]

/-- A page with two records of two bytes. -/
def twoSlots : Bytes :=
  [2, 0, 14, 0, 252, 63, 254, 63, 2, 0, 252, 63, 2, 0] ++ (replicate 16366 0 ++ [7, 8, 9, 10])

theorem readSlot_twoSlots : readSlot twoSlots 0 = .ok (16382, 2) ∧ readSlot twoSlots 1 = .ok (16380, 2) := by
  unfold readSlot readU16 twoSlots
  constructor <;> rw [slice_append_left (by decide), slice_append_left (by decide)] <;> rfl

theorem twoSlots_wellFormed : WellFormed twoSlots ⟨2, 14, 16380⟩ := by
  refine ⟨?_, ?_, by decide, by decide, by decide, ?_⟩
  · unfold twoSlots
    rw [length_append, length_append, length_replicate]
    rfl
  · unfold readHeader readU16 twoSlots
    rw [slice_append_left (by decide), slice_append_left (by decide), slice_append_left (by decide)]
    rfl
  · intro slotId slot listed found _
    rcases Nat.le_one_iff_eq_zero_or_eq_one.mp (Nat.lt_succ_iff.mp listed) with rfl | rfl
    · cases found.symm.trans readSlot_twoSlots.1
      decide
    · cases found.symm.trans readSlot_twoSlots.2
      decide

/-- The second record is deleted and the first one stays. -/
theorem applyWalRecord_pageDel_twoSlots : ∃ after,
    applyWalRecord twoSlots ⟨0, .pageDel, 7, 1, [], []⟩ = .ok after ∧
      readSlot after 1 = .ok (0, 0) ∧ readSlot after 0 = .ok (16382, 2) ∧
      slice after 16382 2 = slice twoSlots 16382 2 := by
  have only : DeletesOnly twoSlots ⟨2, 14, 16380⟩ ⟨0, .pageDel, 7, 1, [], []⟩ := by
    refine (applyWalRecord_pageDel twoSlots_wellFormed rfl).mpr ⟨by decide, ?_⟩
    intro slotId slot listed _ found live position above _ _ below
    have behind := (twoSlots_wellFormed.records slotId slot listed found live).1
    unfold slotOffset pageHeaderSize slotEntrySize at below
    dsimp only at behind below
    omega
  rcases only with ⟨after, redone, _, emptied, others⟩
  rcases others 0 _ (by decide) (by decide) readSlot_twoSlots.1 with ⟨entry, bytes⟩
  exact ⟨after, redone, emptied (by decide), entry, bytes (by decide)⟩

/-- An accepted batch deletes the slot 65535. -/
theorem applyWalRecord_pageDel_panics : ¬ ∀ page header durableLsn batch record,
    WellFormed page header -> validateIncomingWalBatch durableLsn batch = .ok () ->
    record ∈ batch.records -> record.op = .pageDel -> record.slotId < 65536 ->
    ∃ after, applyWalRecord page record = .ok after := by
  intro returns
  rcases returns twoSlots _ 0 ⟨1, 0, 1, [⟨0, .pageDel, 7, 65535, [], []⟩]⟩ _ twoSlots_wellFormed rfl
    mem_cons_self rfl (by decide) with ⟨_, redone⟩
  unfold applyWalRecord clearSlot writeSlot writeU16 at redone
  dsimp only at redone
  rw [if_neg (not_not.mpr twoSlots_wellFormed.length_eq), copyInto,
    if_neg (by rw [twoSlots_wellFormed.length_eq]; decide)] at redone
  cases redone

end SlottedPage
end Storage
end ScaleKv
