import ScaleKv.Storage.PageFile
import ScaleKv.Foundation.Run

namespace ScaleKv
namespace Storage

open Foundation OrderedMap List Option RawPageFile Std

/-!
# The page store over the bytes of its file

A page store takes its file as a map from ids to pages.  Here the bytes of the
file are carried along: each step writes to them what it writes to the map, and
reads go to the bytes.  As long as only pages with an addressable id are put, the
bytes hold the map, and each addressable page reads from them as its own image.
-/

namespace PageStore

/-! ## Changes of the pool -/

theorem lookup_clearDirty (pool : BufferPool) (pages : List DirtyPage) (id : PageId) :
    (clearDirty pool pages)[id]? =
      pool[id]?.map (fun page =>
        if id ∈ pages.map DirtyPage.id then { page with dirty := false } else page) := by
  unfold clearDirty
  induction pages generalizing pool with
  | nil => simp
  | cons head tail ih =>
    rw [foldl_cons, ih]
    cases lookup : pool[head.id]? with
    | none =>
      by_cases same : id = head.id
      · subst same
        simp [lookup]
      · simp [same]
    | some =>
      rw [lookup_insert]
      by_cases same : head.id = id
      · subst same
        simp [lookup]
      · simp [same, Ne.symm same]

section Entries

variable {pool : BufferPool} {property : PageId -> BufferPage -> Prop}
  (all : ∀ id page, pool[id]? = some page -> property id page)

include all

theorem forall_clearDirty {pages : List DirtyPage}
    (cleaned : ∀ id page, property id page -> property id { page with dirty := false }) :
    ∀ id page, (clearDirty pool pages)[id]? = some page -> property id page := by
  intro id page found
  rw [lookup_clearDirty] at found
  rcases map_eq_some_iff.mp found with ⟨old, pooled, rfl⟩
  split
  · exact cleaned id old (all id old pooled)
  · exact all id old pooled

omit all in
theorem lookup_removeCandidates (pool : BufferPool) (candidates : List (PageId × Bool))
    (id : PageId) :
    (removeCandidates pool candidates)[id]? =
      if id ∈ candidates.map Prod.fst then none else pool[id]? := by
  unfold removeCandidates
  induction candidates generalizing pool with
  | nil => simp
  | cons head tail ih =>
    rw [foldl_cons, ih, lookup_erase]
    by_cases same : head.1 = id
    · simp [same]
    · simp [same, Ne.symm same]

theorem forall_removeCandidates {candidates : List (PageId × Bool)} :
    ∀ id page, (removeCandidates pool candidates)[id]? = some page -> property id page := by
  intro id page found
  rw [lookup_removeCandidates] at found
  split at found
  · cases found
  · exact all id page found

end Entries

/-! ## Where the images in a page store come from -/

/-- All images that the store holds or is about to write are known. -/
structure Stores (store : PageStore) (known : PageId -> PageImage -> Prop) : Prop where
  pool : ∀ (id : PageId) (page : BufferPage), store.pool[id]? = some page -> known id page.data
  file : ∀ (id : PageId) (image : PageImage), store.file[id]? = some image -> known id image
  tasks : ∀ (id : TaskId) (task : Task), store.tasks[id]? = some task ->
    ∀ page ∈ task.toWrite, known page.1 page.2

section Stores

variable {store next : PageStore} {known : PageId -> PageImage -> Prop} {id : PageId}

variable {pages : List (PageId × PageImage)} {image : PageImage}

theorem lookup_writePages {file : PageFile} (lookup : (file.writePages pages)[id]? = some image) :
    (id, image) ∈ pages ∨ file[id]? = some image := by
  unfold PageFile.writePages at lookup
  induction pages generalizing file with
  | nil => exact .inr lookup
  | cons head tail ih =>
    rw [foldl_cons] at lookup
    rcases ih lookup with member | written
    · exact .inl (mem_cons_of_mem head member)
    · rcases lookup_insert_cases written with ⟨sameId, sameImage⟩ | ⟨_, before⟩
      · left
        rw [sameId, sameImage]
        exact mem_cons_self
      · exact .inr before

section

variable (stores : store.Stores known)

include stores

theorem Stores.writePages (written : ∀ page ∈ pages, known page.1 page.2) (id : PageId)
    (image : PageImage) (lookup : (store.file.writePages pages)[id]? = some image) :
    known id image := by
  rcases lookup_writePages lookup with member | before
  · exact written (id, image) member
  · exact stores.file id image before

theorem Stores.frame (id : TaskId) (task : Option Task)
    (sameTasks : next.tasks = task.elim (store.tasks.erase id) (store.tasks.insert id))
    (pool : ∀ (id : PageId) page, next.pool[id]? = some page ->
      known id page.data)
    (file : ∀ (id : PageId) image, next.file[id]? = some image -> known id image)
    (toWrite : ∀ new, task = some new -> ∀ page ∈ new.toWrite,
      known page.1 page.2) : next.Stores known := by
  refine ⟨pool, file, ?_⟩
  intro other otherTask found
  rcases tasks_cases sameTasks found with isNew | before
  · exact toWrite otherTask isNew
  · exact stores.tasks other otherTask before

theorem Stores.dirtyPages (page : PageId × PageImage)
    (member : page ∈ (PageStore.dirtyPages store.pool).map DirtyPage.entry) :
    known page.1 page.2 := by
  rcases mem_map.mp member with ⟨_, listed, same⟩
  rcases mem_map.mp listed with ⟨entry, pooled, equal⟩
  rw [← same, ← equal]
  exact stores.pool entry.1 entry.2
    (TreeMap.mem_toList_iff_getElem?_eq_some.mp (mem_filter.mp pooled).1)

theorem Stores.dirtyToFlush (candidates : List (PageId × Bool)) (page : PageId × PageImage)
    (member : page ∈ PageStore.dirtyToFlush store.pool candidates) : known page.1 page.2 := by
  rcases mem_filterMap.mp member with ⟨candidate, _, copied⟩
  split at copied
  · rcases Option.map_eq_some_iff.mp copied with ⟨entry, pooled, same⟩
    rw [← same]
    exact stores.pool candidate.1 entry pooled
  · cases copied

theorem Stores.get (id : PageId) : (store.getWithLsn id).2.Stores known := by
  unfold getWithLsn
  cases lookup : store.pool[id]? with
  | none => exact stores
  | some page =>
    refine { stores with pool := ?_ }
    exact forall_insert (stores.pool id page lookup) stores.pool

theorem Stores.put (isKnown : known id image) (lsn : Nat) :
    (store.put id image lsn).Stores known := by
  refine { stores with pool := ?_ }
  exact forall_insert isKnown stores.pool

theorem Stores.weaken {more : PageId -> PageImage -> Prop}
    (imply : ∀ id image, known id image -> more id image) : store.Stores more where
  pool := fun id page lookup => imply id page.data (stores.pool id page lookup)
  file := fun id image lookup => imply id image (stores.file id image lookup)
  tasks := fun id task lookup page member =>
    imply page.1 page.2 (stores.tasks id task lookup page member)

theorem Stores.fileWrites {action : PageStoreAction} (page : PageId × PageImage)
    (member : page ∈ store.fileWrites action) : known page.1 page.2 := by
  have ofTask : ∀ task : TaskId, page ∈ store.tasks[task]?.elim [] Task.toWrite ->
      known page.1 page.2 := by
    intro task listed
    cases lookup : store.tasks[task]? with
    | none =>
      rw [lookup] at listed
      cases listed
    | some entry =>
      rw [lookup] at listed
      exact stores.tasks task entry lookup page listed
  cases action with
  | writeAndSync task | flush task => exact ofTask task member
  | _ => cases member

end

/-- Maintenance brings no other image into the store. -/
theorem Stores.step {action : PageStoreAction} (stores : store.Stores known)
    (notPut : action.isPut = false) (taken : store.step action = some next) :
    next.Stores known := by
  cases moves_of_step taken with
  | puts => cases notPut
  | ticks => exact { stores with }
  | gets => exact stores.get _
  | idles => exact stores
  | snapshots =>
    refine stores.frame _ (some _) rfl stores.pool stores.file ?_
    rintro _ ⟨⟩
    exact stores.dirtyPages
  | syncFails lookup =>
    exact stores.frame _ none rfl stores.pool (stores.writePages (stores.tasks _ _ lookup))
      (by simp)
  | syncs lookup | flushes lookup =>
    exact stores.frame _ (some _) rfl stores.pool (stores.writePages (stores.tasks _ _ lookup))
      (by simp [Task.toWrite])
  | clears =>
    exact stores.frame _ (some _) rfl (forall_clearDirty stores.pool (fun _ _ isKnown => isKnown))
      stores.file (by simp [Task.toWrite])
  | copies =>
    refine stores.frame _ (some _) rfl stores.pool stores.file ?_
    rintro _ ⟨⟩
    exact stores.dirtyToFlush _
  | removes =>
    exact stores.frame _ none rfl (forall_removeCandidates stores.pool) stores.file (by simp)
  | stays | writesState =>
    exact stores.frame _ none rfl stores.pool stores.file (by simp)
  | raises | counts | selects =>
    exact stores.frame _ (some _) rfl stores.pool stores.file (by simp [Task.toWrite])

end Stores

/-- Every put is of a known image. -/
def putsKnown (known : PageId -> PageImage -> Prop) (_store : PageStore) : PageStoreAction -> Prop
  | .put id image _ => known id image
  | _ => True

instance putsKnownDecidable (known : PageId -> PageImage -> Prop)
    [∀ id image, Decidable (known id image)] (store : PageStore) (action : PageStoreAction) :
    Decidable (store.putsKnown known action) := by
  cases action <;> unfold putsKnown <;> infer_instance

/-! ## The bytes of the file -/

/-- A step of the store, with the bytes of its file. -/
def onFile : PageStore × RawPageFile -> PageStoreAction -> Option (PageStore × RawPageFile) :=
  alongside step (fun store action bytes => bytes.storePages (store.fileWrites action))

/-- `PageStore::get` over the bytes of the file. -/
def getFrom (store : PageStore) (bytes : RawPageFile) (id : PageId) : Option PageImage :=
  (store.pool[id]?.map BufferPage.data).or (bytes.readPage id)

/-- All images are known, and the bytes hold the pages of the map. -/
structure OnFile (known : PageId -> PageImage -> Prop) (state : PageStore × RawPageFile) : Prop where
  stores : state.1.Stores known
  holds : Holds state.2 state.1.file

variable {known : PageId -> PageImage -> Prop} {file : PageFile} {checkpointState : Nat}
  {bytes : RawPageFile} {guard : PageStore × RawPageFile -> PageStoreAction -> Prop}
  {final : PageStore × RawPageFile}

/-- So it stays in every run that puts known images of addressable pages only. -/
theorem onFile_of_reaches (fits : ∀ id image, known id image -> Addressable id)
    (putKnown : ∀ state action, guard state action -> state.1.putsKnown known action)
    (holds : Holds bytes file)
    (atStart : ∀ (id : PageId) image, file[id]? = some image -> known id image)
    (reached : Reaches onFile guard (opened file checkpointState, bytes) final) :
    OnFile known final := by
  apply reached.invariant
  · exact ⟨⟨forall_empty, atStart, forall_empty⟩, holds⟩
  · rintro ⟨store, bytes⟩ action _ ⟨stores, holds⟩ admitted taken
    rcases map_eq_some_iff.mp taken with ⟨next, stepped, rfl⟩
    refine ⟨?_, ?_⟩
    · have isKnown := putKnown _ _ admitted
      cases action with
      | put =>
        cases stepped
        exact stores.put isKnown _
      | _ => exact stores.step rfl stepped
    · rw [(moves_of_step stepped).file_eq]
      exact holds.storePages (fun page member => fits _ _ (stores.fileWrites page member))

/-- No interleaving of the calls makes up an image or takes it for that of another
page.  What an addressable page reads as, from the pool or from the bytes of the
file, and what the tasks in progress are about to write was put for that page or
was there at the start. -/
theorem stores_known (fits : ∀ id image, known id image -> Addressable id)
    (holds : Holds bytes file)
    (atStart : ∀ (id : PageId) image, file[id]? = some image -> known id image)
    (reached : Reaches onFile (fun state => state.1.putsKnown known) (opened file checkpointState, bytes)
      final) :
    final.1.Stores known ∧ ∀ id image, Addressable id ->
      final.1.getFrom final.2 id = some image -> known id image := by
  rcases onFile_of_reaches fits (fun _ _ admitted => admitted) holds atStart reached with ⟨stores, held⟩
  refine ⟨stores, ?_⟩
  intro id image addressable found
  unfold getFrom at found
  rw [held.readPage addressable] at found
  rcases or_eq_some_iff.mp found with pooled | ⟨_, filed⟩
  · rcases map_eq_some_iff.mp pooled with ⟨page, lookup, rfl⟩
    exact stores.pool id page lookup
  · exact stores.file id image (filter_eq_some_iff.mp filed).1

/-- The images of two pages, told apart by their first bytes. -/
def TwoImages (id : PageId) (image : PageImage) : Prop :=
  (id = 1 ∨ id = 2) ∧ image.bytes.head? = some (if id = 1 then 7 else 8)

instance twoImagesDecidable (id : PageId) (image : PageImage) : Decidable (TwoImages id image) :=
  inferInstanceAs (Decidable (_ ∧ _))

/-- Two pages are put, written by a checkpoint and evicted, and each of them is read
from the bytes as it was put. -/
theorem stores_known_evicted : ∃ final first second,
    Reaches onFile (fun state => state.1.putsKnown TwoImages) (opened ∅ 0, .created) final ∧
      final.1.pool.isEmpty = true ∧ final.1.checkpointLsn = 4 ∧
      final.1.getFrom final.2 1 = some first ∧ first.bytes.head? = some 7 ∧
      final.1.getFrom final.2 2 = some second ∧ second.bytes.head? = some 8 := by
  have fits : ∀ id image, TwoImages id image -> Addressable id := by
    rintro _ _ ⟨rfl | rfl, _⟩ <;> decide
  have passed : (runGuarded onFile (fun state => state.1.putsKnown TwoImages) (opened ∅ 0, .created)
      [.put 1 (.filled 7) 3, .put 2 (.filled 8) 4, .checkpoint 0, .writeAndSync 0 false, .clearFlags 0,
        .updateCheckpointLsn 0, .evictColdPages 1 ⟨0, 1⟩, .selectCandidates 1 [1, 2], .copyDirty 1,
        .flush 1, .remove 1]).any (fun final => (final.1.pool.isEmpty = true ∧
          final.1.checkpointLsn = 4) ∧ (final.1.file.readPage 1).isSome = true ∧
          (final.1.file.readPage 2).isSome = true) = true := by
    decide +kernel
  rcases exists_reaches_of_decide passed with ⟨final, reached, ⟨evicted, lsn⟩, inFirst, inSecond⟩
  have held := (onFile_of_reaches fits (fun _ _ admitted => admitted) holds_created forall_empty
    reached).holds
  have isKnown := (stores_known fits holds_created forall_empty reached).2
  have isRead : ∀ id, Addressable id -> (final.1.file.readPage id).isSome = true ->
      ∃ image, final.1.getFrom final.2 id = some image := by
    intro id addressable filed
    rw [← isSome_iff_exists, getFrom, isSome_or, held.readPage addressable, filed, Bool.or_true]
  rcases isRead 1 (by decide) inFirst with ⟨first, readFirst⟩
  rcases isRead 2 (by decide) inSecond with ⟨second, readSecond⟩
  exact ⟨final, first, second, reached, evicted, lsn, readFirst, (isKnown 1 _ (by decide) readFirst).2,
    readSecond, (isKnown 2 _ (by decide) readSecond).2⟩

end PageStore

end Storage
end ScaleKv
