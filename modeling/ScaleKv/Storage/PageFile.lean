import ScaleKv.Storage.PageStore

namespace ScaleKv
namespace Storage

open Foundation.OrderedMap List

/-!
# The bytes of the page file

`PageFile` of `page_store.rs` keeps page `id` at the byte offset
`id * PAGE_SIZE`, computed in 64-bit arithmetic that wraps.  The rest of the
development takes the file as a map from page ids to pages; this module says
for which ids that is what the bytes give.  Seeking past the end and extending
the file are taken to succeed.
-/

/-- An open file.  What stands behind its end reads as zero once it is extended. -/
structure File where
  bytes : Nat -> UInt8
  length : Nat
  zeroBehind : ∀ position, length ≤ position -> bytes position = 0

namespace File

def setLen (file : File) (length : Nat) : File :=
  { bytes := fun position => if position < length then file.bytes position else 0
    length := length
    zeroBehind := fun _ behind => if_neg (not_lt.mpr behind) }

/-- `seek(SeekFrom::Start(offset))` and `write_all(image)`. -/
def writeAllAt (file : File) (offset : Nat) (image : PageImage) : File :=
  { bytes := fun position =>
      if offset ≤ position then image.bytes[position - offset]?.getD (file.bytes position)
      else file.bytes position
    length := max file.length (offset + pageSize)
    zeroBehind := by
      intro position behind
      have old := file.zeroBehind position (by omega)
      have past : image.bytes[position - offset]? = none :=
        List.getElem?_eq_none (by rw [image.length_eq]; omega)
      simp [old, past] }

/-- The `PAGE_SIZE` bytes from an offset on. -/
def pageAt (file : File) (offset : Nat) : PageImage :=
  ⟨(List.range pageSize).map (fun index => file.bytes (offset + index)), by simp⟩

theorem pageAt_congr {left right : File} {offset : Nat}
    (same : ∀ index, index < pageSize ->
      left.bytes (offset + index) = right.bytes (offset + index)) :
    left.pageAt offset = right.pageAt offset := by
  rw [pageAt, pageAt, PageImage.mk.injEq]
  apply map_congr_left
  intro index member
  exact same index (mem_range.mp member)

theorem setLen_bytes {file : File} {length : Nat} (longer : file.length ≤ length) :
    (file.setLen length).bytes = file.bytes := by
  funext position
  by_cases inside : position < length
  · simp [setLen, inside]
  · simp [setLen, inside, file.zeroBehind position (by omega)]

theorem pageAt_writeAllAt (file : File) (offset : Nat) (image : PageImage) :
    (file.writeAllAt offset image).pageAt offset = image := by
  rcases image with ⟨_, length_eq⟩
  rw [pageAt, PageImage.mk.injEq]
  apply ext_getElem
  · simp [length_eq]
  · intro _ _ inBytes
    simp [writeAllAt, inBytes]

theorem pageAt_writeAllAt_of_apart {file : File} {offset other : Nat} (image : PageImage)
    (apart : offset + pageSize ≤ other ∨ other + pageSize ≤ offset) :
    (file.writeAllAt offset image).pageAt other = file.pageAt other := by
  apply pageAt_congr
  intro index _
  have past : offset ≤ other + index -> image.bytes[other + index - offset]? = none := by
    intro behind
    apply List.getElem?_eq_none
    rw [image.length_eq]
    omega
  by_cases behind : offset ≤ other + index
  · simp [writeAllAt, behind, past behind]
  · simp [writeAllAt, behind]

end File

/-- `page_id * PAGE_SIZE as u64`. -/
def pageOffset (id : PageId) : Nat := id * pageSize % 2 ^ 64

/-- `offset + PAGE_SIZE as u64`. -/
def pageEnd (id : PageId) : Nat := (pageOffset id + pageSize) % 2 ^ 64

/-- `PageFile` of the source: the file and the length it is known to have. -/
structure RawPageFile where
  file : File
  size : Nat

namespace RawPageFile

/-- `PageFile::open` of a file that did not exist. -/
def created : RawPageFile :=
  { file := { bytes := fun _ => 0, length := 0, zeroBehind := fun _ _ => rfl }, size := 0 }

/-- `PageFile::read_page`; a file that ends within the page reads as `None`. -/
def readPage (pages : RawPageFile) (id : PageId) : Option PageImage :=
  if pages.size < pageEnd id then none
  else if pages.file.length < pageOffset id + pageSize then none
  else (some (pages.file.pageAt (pageOffset id))).filter (fun image => image ≠ PageImage.zero)

/-- `set_len(required_size)` where the file is too short. -/
def extended (pages : RawPageFile) (requiredSize : Nat) : RawPageFile :=
  if pages.size < requiredSize then
    { file := pages.file.setLen requiredSize, size := requiredSize }
  else pages

/-- `PageFile::write_page` behind the check of the length. -/
def store (pages : RawPageFile) (id : PageId) (image : PageImage) : RawPageFile :=
  let longer := pages.extended (pageEnd id)
  { longer with file := longer.file.writeAllAt (pageOffset id) image }

/-- The pages that a maintenance task writes one after another. -/
def storePages (pages : RawPageFile) (writes : List (PageId × PageImage)) : RawPageFile :=
  writes.foldl (fun current write => current.store write.1 write.2) pages

/-- `PageFile::write_page`. -/
def writePage (pages : RawPageFile) (id : PageId) (data : Bytes) : Result RawPageFile := do
  let image <- PageImage.ofSlice data
  .ok (pages.store id image)

/-- The file after a sequence of writes; a failing one leaves it as it was. -/
def afterWrites (pages : RawPageFile) (writes : List (PageId × Bytes)) : RawPageFile :=
  writes.foldl (fun current write => (current.writePage write.1 write.2).toOption.getD current) pages

/-- The writes of whole pages. -/
def accepted (writes : List (PageId × Bytes)) : List (PageId × PageImage) :=
  writes.filterMap (fun write => (PageImage.ofSlice write.2).toOption.map (fun image => (write.1, image)))

/-- The page ends below the last 64-bit offset. -/
def Addressable (id : PageId) : Prop := id * pageSize + pageSize < 2 ^ 64

instance : DecidablePred Addressable := fun _ => Nat.decLt _ _

variable {pages : RawPageFile} {sparse : PageFile} {id : PageId} {image : PageImage}

theorem Addressable.offset (fits : Addressable id) : pageOffset id = id * pageSize :=
  Nat.mod_eq_of_lt (lt_of_le_of_lt (Nat.le_add_right _ _) fits)

/-- The bytes give the pages of a map from page ids to pages. -/
structure Holds (pages : RawPageFile) (sparse : PageFile) : Prop where
  size : pages.size = pages.file.length
  within : ∀ id image, sparse[id]? = some image -> id * pageSize + pageSize ≤ pages.size
  stored : ∀ id, pages.file.pageAt (id * pageSize) = sparse[id]?.getD PageImage.zero

theorem holds_created : Holds created ∅ where
  size := rfl
  within := by simp
  stored := by
    intro _
    simp [File.pageAt, created, PageImage.zero, PageImage.filled]

theorem Holds.readPage (holds : Holds pages sparse) (fits : Addressable id) :
    pages.readPage id = sparse.readPage id := by
  have ends : pageEnd id = id * pageSize + pageSize := by
    rw [pageEnd, fits.offset]
    exact Nat.mod_eq_of_lt fits
  rw [RawPageFile.readPage, ends, fits.offset, holds.stored, PageFile.readPage, ← holds.size]
  cases found : sparse[id]? with
  | none => simp
  | some image =>
    have inside := holds.within id image found
    simp [not_lt.mpr inside]

/-- A page whose end offset does not wrap gets the room it needs. -/
theorem extended_eq (size : pages.size = pages.file.length)
    (fits : pageOffset id + pageSize < 2 ^ 64) :
    (pages.extended (pageEnd id)).size = max pages.size (pageOffset id + pageSize) ∧
      (pages.extended (pageEnd id)).file.length = (pages.extended (pageEnd id)).size ∧
      (pages.extended (pageEnd id)).file.bytes = pages.file.bytes := by
  have ends : pageEnd id = pageOffset id + pageSize := Nat.mod_eq_of_lt fits
  rw [ends, extended]
  split
  · next short =>
    exact ⟨(max_eq_right (le_of_lt short)).symm, rfl, File.setLen_bytes (by omega)⟩
  · next long => exact ⟨(max_eq_left (not_lt.mp long)).symm, size.symm, rfl⟩

theorem store_size : (pages.store id image).size = (pages.extended (pageEnd id)).size := by
  simp only [store]

theorem store_length : (pages.store id image).file.length =
    max (pages.extended (pageEnd id)).file.length (pageOffset id + pageSize) := by
  simp only [store, File.writeAllAt]

theorem Holds.store (holds : Holds pages sparse) (fits : Addressable id) :
    Holds (pages.store id image) (sparse.insert id image) := by
  rcases extended_eq holds.size (by rw [fits.offset]; exact fits) with ⟨size, length, bytes⟩
  constructor
  · rw [store_length, store_size, length, max_eq_left (by omega)]
  · rw [store_size, size, fits.offset]
    exact forall_insert (le_max_right _ _)
      (fun other page found => (holds.within other page found).trans (le_max_left _ _))
  · intro other
    rw [lookup_insert, RawPageFile.store, fits.offset]
    split
    · next same =>
      rw [← same]
      exact File.pageAt_writeAllAt _ _ image
    · next different =>
      rw [← holds.stored other, File.pageAt_writeAllAt_of_apart]
      · exact File.pageAt_congr (fun index _ => by rw [bytes])
      · rcases Nat.lt_or_gt_of_ne different with ahead | behind
        · left
          exact Nat.succ_mul id pageSize ▸ Nat.mul_le_mul_right pageSize ahead
        · right
          exact Nat.succ_mul other pageSize ▸ Nat.mul_le_mul_right pageSize behind

theorem Holds.storePages {writes : List (PageId × PageImage)} (holds : Holds pages sparse)
    (fit : ∀ write ∈ writes, Addressable write.1) :
    Holds (pages.storePages writes) (sparse.writePages writes) := by
  induction writes generalizing pages sparse with
  | nil => exact holds
  | cons _ _ ih =>
    rw [forall_mem_cons] at fit
    exact ih (holds.store fit.1) fit.2

theorem Holds.afterWrites {writes : List (PageId × Bytes)} (holds : Holds pages sparse)
    (fit : ∀ write ∈ writes, Addressable write.1) :
    Holds (pages.afterWrites writes) (sparse.writePages (accepted writes)) := by
  induction writes generalizing pages sparse with
  | nil => exact holds
  | cons first _ ih =>
    have restFit := fun write member => fit write (mem_cons_of_mem _ member)
    rw [RawPageFile.afterWrites, foldl_cons, RawPageFile.writePage]
    cases isPage : PageImage.ofSlice first.2 with
    | error =>
      rw [accepted, filterMap_cons_none (by rw [isPage]; rfl)]
      exact ih holds restFit
    | ok =>
      rw [accepted, filterMap_cons_some (by rw [isPage]; rfl)]
      exact ih (holds.store (fit first mem_cons_self)) restFit

/-- After some writes a page reads as the last data that was accepted for it, and
one more write changes what is read for no other id. -/
def Faithful (writes : List (PageId × Bytes)) (other : PageId) (data : Bytes) (id : PageId) : Prop :=
  (created.afterWrites writes).readPage id =
    (PageFile.writePages ∅ (accepted writes)).readPage id ∧
  ∀ after, (created.afterWrites writes).writePage other data = .ok after ->
    after.readPage id =
      if id = other then
        (PageImage.ofSlice data).toOption.filter (fun image => image ≠ PageImage.zero)
      else (created.afterWrites writes).readPage id

/-- The page file is a sparse array for the ids whose pages end below the last
64-bit offset. -/
theorem faithful_of_addressable {writes : List (PageId × Bytes)} {other : PageId} (data : Bytes)
    (fit : ∀ write ∈ writes, Addressable write.1) (otherFits : Addressable other)
    (fits : Addressable id) : Faithful writes other data id := by
  have holds := holds_created.afterWrites fit
  refine ⟨holds.readPage fits, ?_⟩
  intro _ written
  rcases bind_eq_ok.mp written with ⟨_, isPage, shape⟩
  cases shape
  rw [(holds.store otherFits).readPage fits, holds.readPage fits, PageFile.readPage, lookup_insert,
    isPage]
  by_cases same : id = other
  · simp [same, Except.toOption]
  · simp [same, Ne.symm same, PageFile.readPage]

theorem faithful_twoPages :
    Faithful [(0, (PageImage.filled 1).bytes)] (2 ^ 49) PageImage.zero.bytes 0 :=
  faithful_of_addressable _ (forall_mem_singleton.mpr (by decide)) (by decide) (by decide)

/-- Page `2 ^ 50` has the offset of page 0: writing it changes what page 0 reads. -/
theorem not_faithful : ¬ ∀ writes other data id, (∀ write ∈ writes, write.1 < 2 ^ 64) ->
    other < 2 ^ 64 -> id < 2 ^ 64 -> Faithful writes other data id := by
  intro faithful
  have accepts := fun byte => PageImage.ofSlice_eq_ok.mpr (@rfl _ (PageImage.filled byte).bytes)
  have once : created.afterWrites [(0, (PageImage.filled 1).bytes)] = created.store 0 (.filled 1) := by
    rw [afterWrites, foldl_cons, foldl_nil, writePage, accepts]
    rfl
  have holds : Holds (created.store 0 (.filled 1)) _ := holds_created.store (by decide)
  have aliased : ∀ pages : RawPageFile, pages.store (2 ^ 50) .zero = pages.store 0 .zero := by
    intro pages
    simp only [store, (by decide : pageOffset (2 ^ 50) = pageOffset 0),
      (by decide : pageEnd (2 ^ 50) = pageEnd 0)]
  have overwritten : Holds ((created.store 0 (.filled 1)).store 0 .zero) _ :=
    holds.store (by decide)
  have unchanged := (faithful [(0, (PageImage.filled 1).bytes)] (2 ^ 50) PageImage.zero.bytes 0
    (by simp) (by decide) (by decide)).2 ((created.store 0 (.filled 1)).store (2 ^ 50) .zero)
    (by rw [once, writePage, PageImage.zero, accepts]; rfl)
  have different : PageImage.filled 1 ≠ PageImage.zero := by
    intro same
    rcases replicate_inj.mp (congrArg PageImage.bytes same) with ⟨_, empty | equal⟩
    · cases empty
    · cases equal
  rw [once, if_neg (by decide), aliased, overwritten.readPage (by decide), holds.readPage (by decide)]
    at unchanged
  simp [PageFile.readPage, Option.filter, different] at unchanged

end RawPageFile
end Storage
end ScaleKv
