import ScaleKv.Storage.PageStoreBytes

namespace ScaleKv
namespace Storage

open Foundation OrderedMap List Option RawPageFile Std

/-!
# The page store loses no write outside the maintenance windows

A checkpoint clears the dirty flag of every page that it copied, and an
eviction drops every page that it selected.  Neither looks whether the page is
still the one that was copied or selected.  A put inside such a window is
therefore overtaken: its page is taken for clean, or removed, although the
file has an older image.

Runs that keep puts out of these windows, and put addressable pages only, lose
nothing.  All maintenance tasks may still overlap each other in any way.
-/

namespace PageStore

/-- What a read of the page returns, an all-zero page counting as absent. -/
def effectiveContent (store : PageStore) (bytes : RawPageFile) (id : PageId) : Option PageImage :=
  (store.getFrom bytes id).filter (fun image => image ≠ PageImage.zero)

/-- The data of the last put, an all-zero page counting as absent. -/
def lastPutContent (store : PageStore) (id : PageId) : Option PageImage :=
  store.lastPut[id]?.filter (fun image => image ≠ PageImage.zero)

/-- The pool entry of the page is clean or absent. -/
def cleanOrAbsent (store : PageStore) (id : PageId) : Bool :=
  store.pool[id]?.all (fun page => !page.dirty)

/-- The store, with the bytes of its file, has every addressable page as it was put
last. -/
structure NoLostWrite (store : PageStore) (bytes : RawPageFile) : Prop where
  effective : ∀ id, Addressable id ->
    store.effectiveContent bytes id = store.lastPutContent id
  persisted : ∀ id, Addressable id -> store.cleanOrAbsent id = true ->
    bytes.readPage id = store.lastPutContent id

end PageStore

/-- The task has copied the page, or has noted that it need not be copied, and
will act on this when it clears flags or removes pages. -/
def Task.reliesOn (id : PageId) : Task -> Bool
  | .snapshotted pages => pages.any (fun page => page.id = id)
  | .synced pages => pages.any (fun page => page.id = id)
  | .cleared _ => false
  | .stored _ => false
  | .counted _ => false
  | .selected candidates => candidates.any (fun candidate => candidate.1 = id ∧ candidate.2 = false)
  | .copied candidates _ => candidates.any (fun candidate => candidate.1 = id)
  | .flushed candidates => candidates.any (fun candidate => candidate.1 = id)

namespace PageStore

/-- A page is put only while no maintenance task relies on it. -/
def putsOutsideWindows (store : PageStore) : PageStoreAction -> Prop
  | .put id _ _ => ∀ entry ∈ store.tasks.toList, entry.2.reliesOn id = false
  | _ => True

instance putsOutsideWindowsDecidable (store : PageStore) (action : PageStoreAction) :
    Decidable (store.putsOutsideWindows action) := by
  unfold putsOutsideWindows
  induction action using PageStoreAction.casesOn <;> infer_instance

/-! ## The invariant -/

/-- The page file holds what was put last. -/
def Settled (store : PageStore) (id : PageId) : Prop :=
  store.file[id]? = store.lastPut[id]?

/-- What a task may count on. -/
def TaskInv (store : PageStore) : Task -> Prop
  | .snapshotted pages => ∀ page ∈ pages, store.lastPut[page.id]? = some page.data
  | .synced pages => ∀ page ∈ pages, store.Settled page.id
  | .cleared _ => True
  | .stored _ => True
  | .counted _ => True
  | .selected candidates => ∀ candidate ∈ candidates, candidate.2 = false ->
      store.Settled candidate.1
  | .copied candidates pages =>
    (∀ page ∈ pages,
      page.1 ∈ candidates.map Prod.fst ∧ store.lastPut[page.1]? = some page.2) ∧
      ∀ candidate ∈ candidates,
        candidate.1 ∈ pages.map Prod.fst ∨ store.Settled candidate.1
  | .flushed candidates => ∀ candidate ∈ candidates, store.Settled candidate.1

structure Inv (store : PageStore) : Prop where
  pooled : ∀ (id : PageId) (page : BufferPage), store.pool[id]? = some page ->
    store.lastPut[id]? = some page.data
  settled : ∀ id, store.cleanOrAbsent id = true -> store.Settled id
  tasks : ∀ (id : TaskId) (task : Task), store.tasks[id]? = some task -> store.TaskInv task

theorem inv_opened (file : PageFile) (checkpointState : Nat) :
    (opened file checkpointState).Inv where
  pooled := by intro id page lookup; simp [opened] at lookup
  settled := fun _ _ => rfl
  tasks := by intro id task lookup; simp [opened] at lookup

theorem Inv.noLostWrite {store : PageStore} {bytes : RawPageFile} (inv : store.Inv)
    (holds : Holds bytes store.file) : store.NoLostWrite bytes := by
  have persisted : ∀ id, Addressable id -> store.cleanOrAbsent id = true ->
      bytes.readPage id = store.lastPutContent id := by
    intro id addressable clean
    have settled : store.file[id]? = store.lastPut[id]? := inv.settled id clean
    rw [holds.readPage addressable, PageFile.readPage, settled, lastPutContent]
  refine ⟨?_, persisted⟩
  intro id addressable
  unfold effectiveContent getFrom
  cases lookup : store.pool[id]? with
  | some page => rw [map_some, some_or, lastPutContent, inv.pooled id page lookup]
  | none =>
    rw [map_none, none_or, persisted id addressable (by simp [cleanOrAbsent, lookup]), lastPutContent,
      Option.filter_filter]
    simp

/-! ## What one step preserves -/

section Frame

variable {store next : PageStore}

/-- A task notices neither pool changes nor file writes of the last put. -/
theorem TaskInv.frame {task : Task} (taskInv : store.TaskInv task)
    (sameLastPut : next.lastPut = store.lastPut)
    (keepsSettled : ∀ id, store.Settled id -> next.Settled id) : next.TaskInv task := by
  cases task with
  | snapshotted =>
    intro page member
    rw [sameLastPut]
    exact taskInv page member
  | synced => exact fun page member => keepsSettled page.id (taskInv page member)
  | cleared => trivial
  | stored => trivial
  | counted => trivial
  | selected =>
    exact fun candidate member clean => keepsSettled _ (taskInv candidate member clean)
  | copied =>
    refine ⟨?_, ?_⟩
    · intro page member
      rw [sameLastPut]
      exact taskInv.1 page member
    · intro candidate member
      exact (taskInv.2 candidate member).imp_right (keepsSettled _)
  | flushed => exact fun candidate member => keepsSettled _ (taskInv candidate member)

/-- A step of one task: it leaves a task whose facts hold, or none. -/
theorem Inv.frame (inv : store.Inv) (id : TaskId) (task : Option Task)
    (sameTasks : next.tasks = task.elim (store.tasks.erase id) (store.tasks.insert id))
    (sameLastPut : next.lastPut = store.lastPut)
    (keepsSettled : ∀ id, store.Settled id -> next.Settled id)
    (pooled : ∀ (id : PageId) page, next.pool[id]? = some page ->
      next.lastPut[id]? = some page.data)
    (settled : ∀ id, next.cleanOrAbsent id = true -> next.Settled id)
    (taskInv : ∀ new, task = some new -> next.TaskInv new) : next.Inv := by
  refine ⟨pooled, settled, ?_⟩
  intro other otherTask found
  rcases tasks_cases sameTasks found with isNew | before
  · exact taskInv otherTask isNew
  · exact (inv.tasks other otherTask before).frame sameLastPut keepsSettled

end Frame

/-- Writing pages whose data are those of the last put settles them and
unsettles nothing. -/
theorem writePages_settles (pages : List (PageId × PageImage))
    (lastPut : TreeMap PageId PageImage) (file : PageFile)
    (current : ∀ page ∈ pages, lastPut[page.1]? = some page.2) (id : PageId)
    (settled : id ∈ pages.map Prod.fst ∨ file[id]? = lastPut[id]?) :
    (file.writePages pages)[id]? = lastPut[id]? := by
  unfold PageFile.writePages
  induction pages generalizing file with
  | nil => simpa using settled
  | cons head tail ih =>
    rw [foldl_cons]
    refine ih _ (fun page member => current page (mem_cons_of_mem _ member)) ?_
    by_cases same : head.1 = id
    · right
      rw [lookup_insert, if_pos same, ← same]
      exact (current head mem_cons_self).symm
    · rw [lookup_insert_of_ne _ _ same]
      rcases settled with member | settled
      · left
        rcases mem_cons.mp member with equal | member
        · exact absurd equal.symm same
        · exact member
      · exact .inr settled

section Steps

variable {store : PageStore}

theorem TaskInv.put {task : Task} {id : PageId} (taskInv : store.TaskInv task)
    (independent : task.reliesOn id = false) (data : PageImage) (lsn : Nat) :
    (store.put id data lsn).TaskInv task := by
  have kept : ∀ other : PageId, id ≠ other ->
      (store.put id data lsn).lastPut[other]? = store.lastPut[other]? :=
    fun other different => lookup_insert_of_ne _ _ different
  have keptSettled : ∀ other, id ≠ other -> store.Settled other ->
      (store.put id data lsn).Settled other := by
    intro other different settled
    unfold Settled
    rw [kept other different]
    exact settled
  cases task with
  | snapshotted =>
    intro page member
    rw [kept page.id]
    · exact taskInv page member
    · rintro rfl
      simpa using any_eq_false.mp independent page member
  | synced =>
    intro page member
    refine keptSettled page.id ?_ (taskInv page member)
    rintro rfl
    simpa using any_eq_false.mp independent page member
  | cleared => trivial
  | stored => trivial
  | counted => trivial
  | selected =>
    intro candidate member clean
    refine keptSettled candidate.1 ?_ (taskInv candidate member clean)
    rintro rfl
    simpa [clean] using any_eq_false.mp independent candidate member
  | copied candidates =>
    have untouched : ∀ candidate ∈ candidates.map Prod.fst, id ≠ candidate := by
      rintro _ member rfl
      rcases mem_map.mp member with ⟨selected, selectedMember, same⟩
      simpa [same] using any_eq_false.mp independent selected selectedMember
    refine ⟨?_, ?_⟩
    · intro page member
      rcases taskInv.1 page member with ⟨candidate, current⟩
      rw [kept page.1 (untouched page.1 candidate)]
      exact ⟨candidate, current⟩
    · intro candidate member
      exact (taskInv.2 candidate member).imp_right
        (keptSettled candidate.1 (untouched candidate.1 (mem_map_of_mem member)))
  | flushed =>
    intro candidate member
    refine keptSettled candidate.1 ?_ (taskInv candidate member)
    rintro rfl
    simpa using any_eq_false.mp independent candidate member

theorem Inv.put (inv : store.Inv) {id : PageId}
    (independent : ∀ entry ∈ store.tasks.toList, entry.2.reliesOn id = false)
    (data : PageImage) (lsn : Nat) : (store.put id data lsn).Inv where
  pooled := by
    intro other page lookup
    change (store.lastPut.insert id data)[other]? = some page.data
    rcases lookup_insert_cases lookup with ⟨same, equal⟩ | ⟨different, lookup⟩
    · rw [lookup_insert, if_pos same.symm, equal]
    · rw [lookup_insert_of_ne _ _ (Ne.symm different)]
      exact inv.pooled other page lookup
  settled := by
    intro other clean
    unfold cleanOrAbsent at clean
    simp only [PageStore.put] at clean
    rw [lookup_insert] at clean
    unfold Settled
    simp only [PageStore.put]
    rw [lookup_insert]
    split at clean
    · simp at clean
    · next different =>
      rw [if_neg different]
      exact inv.settled other clean
  tasks := by
    intro task entry lookup
    exact (inv.tasks task entry lookup).put
      (independent (task, entry) (TreeMap.mem_toList_iff_getElem?_eq_some.mpr lookup)) data lsn

theorem Inv.get (inv : store.Inv) (id : PageId) : (store.getWithLsn id).2.Inv := by
  unfold getWithLsn
  cases lookup : store.pool[id]? with
  | none => exact inv
  | some page =>
    refine ⟨?_, ?_, inv.tasks⟩
    · exact forall_insert (inv.pooled id page lookup) inv.pooled
    · intro other clean
      refine inv.settled other ?_
      unfold cleanOrAbsent at clean ⊢
      simp only [] at clean
      rw [lookup_insert] at clean
      split at clean
      · next same =>
        rw [← same, lookup]
        exact clean
      · exact clean

theorem Inv.checkpoint (inv : store.Inv) (task : TaskId) :
    (store.setTask task (.snapshotted (dirtyPages store.pool))).Inv := by
  refine inv.frame task (some _) rfl rfl (fun _ settled => settled) inv.pooled inv.settled ?_
  rintro _ ⟨⟩ _ member
  rcases mem_map.mp member with ⟨entry, stored, equal⟩
  rw [← equal]
  exact inv.pooled entry.1 entry.2
    (TreeMap.mem_toList_iff_getElem?_eq_some.mp (mem_of_mem_filter stored))

variable {task : TaskId} {pages : List DirtyPage}

section

variable (inv : store.Inv)

include inv

theorem Inv.writeAndSync (lookup : store.tasks[task]? = some (.snapshotted pages))
    (after : Option Task) (shape : ∀ new, after = some new -> new = .synced pages) :
    Inv { store with
      file := store.file.writePages (pages.map DirtyPage.entry)
      tasks := after.elim (store.tasks.erase task) (store.tasks.insert task) } := by
  have current : ∀ page ∈ pages.map DirtyPage.entry,
      store.lastPut[page.1]? = some page.2 := by
    intro page member
    rcases mem_map.mp member with ⟨dirty, dirtyMember, equal⟩
    rw [← equal]
    exact inv.tasks task _ lookup dirty dirtyMember
  have settles := writePages_settles _ store.lastPut store.file current
  refine inv.frame task after rfl rfl (fun id settled => settles id (.inr settled)) inv.pooled
    (fun id clean => settles id (.inr (inv.settled id clean))) ?_
  intro new equal
  rw [shape new equal]
  intro page member
  refine settles page.id (.inl ?_)
  exact mem_map_of_mem (f := Prod.fst) (mem_map_of_mem (f := DirtyPage.entry) member)

theorem Inv.clearFlags (lookup : store.tasks[task]? = some (.synced pages)) :
    Inv ({ store with pool := clearDirty store.pool pages }.setTask task
      (.cleared (maxLsn pages))) := by
  refine inv.frame task (some _) rfl rfl (fun _ settled => settled) ?_ ?_
    (fun _ equal => by cases equal; trivial)
  · intro id page found
    change (clearDirty store.pool pages)[id]? = some page at found
    rw [lookup_clearDirty, map_eq_some_iff] at found
    rcases found with ⟨entry, stored, equal⟩
    rw [← equal]
    change store.lastPut[id]? = _
    rw [inv.pooled id entry stored]
    split <;> rfl
  · intro id clean
    change (clearDirty store.pool pages)[id]?.all (fun page => !page.dirty) = true at clean
    rw [lookup_clearDirty, Option.all_map] at clean
    by_cases written : id ∈ pages.map DirtyPage.id
    · rcases mem_map.mp written with ⟨page, member, same⟩
      rw [← same]
      exact inv.tasks task _ lookup page member
    · refine inv.settled id ?_
      simpa [cleanOrAbsent, written, Function.comp_def] using clean

theorem Inv.endTask (task : TaskId) : (store.endTask task).Inv :=
  inv.frame task none rfl rfl (fun _ settled => settled) inv.pooled inv.settled
    (fun _ equal => by cases equal)

theorem Inv.selectCandidates (task : TaskId) (order : List PageId) :
    (store.setTask task (.selected (candidates store.pool order))).Inv := by
  refine inv.frame task (some _) rfl rfl (fun _ settled => settled) inv.pooled inv.settled ?_
  rintro _ ⟨⟩ _ member clean
  rcases mem_map.mp member with ⟨id, _, rfl⟩
  refine inv.settled id ?_
  unfold cleanOrAbsent
  cases lookup : store.pool[id]? with
  | none => rfl
  | some => simpa [lookup] using clean

theorem Inv.copyDirty {selected : List (PageId × Bool)}
    (lookup : store.tasks[task]? = some (.selected selected)) :
    (store.setTask task (.copied selected (dirtyToFlush store.pool selected))).Inv := by
  refine inv.frame task (some _) rfl rfl (fun _ settled => settled) inv.pooled inv.settled ?_
  rintro _ ⟨⟩
  refine ⟨?_, ?_⟩
  · intro _ member
    rcases mem_filterMap.mp member with ⟨candidate, candidateMember, copy⟩
    split at copy
    · rcases map_eq_some_iff.mp copy with ⟨entry, stored, rfl⟩
      exact ⟨mem_map_of_mem candidateMember, inv.pooled candidate.1 entry stored⟩
    · cases copy
  · intro candidate member
    cases dirty : candidate.2 with
    | false => exact .inr (inv.tasks task _ lookup candidate member dirty)
    | true =>
      cases stored : store.pool[candidate.1]? with
      | none => exact .inr (inv.settled candidate.1 (by simp [cleanOrAbsent, stored]))
      | some entry =>
        left
        refine mem_map.mpr ⟨(candidate.1, entry.data), ?_, rfl⟩
        exact mem_filterMap.mpr ⟨candidate, member, by simp [dirty, stored]⟩

theorem Inv.flush {candidates : List (PageId × Bool)} {pages : List (PageId × PageImage)}
    (lookup : store.tasks[task]? = some (.copied candidates pages)) :
    Inv ({ store with file := store.file.writePages pages }.setTask task (.flushed candidates)) := by
  have copied : store.TaskInv (.copied candidates pages) := inv.tasks task _ lookup
  have settles := writePages_settles pages store.lastPut store.file
    (fun page member => (copied.1 page member).2)
  refine inv.frame task (some _) rfl rfl (fun id settled => settles id (.inr settled)) inv.pooled
    (fun id clean => settles id (.inr (inv.settled id clean))) ?_
  rintro _ ⟨⟩ candidate member
  exact settles candidate.1 (copied.2 candidate member)

theorem Inv.remove {candidates : List (PageId × Bool)}
    (lookup : store.tasks[task]? = some (.flushed candidates)) :
    Inv ({ store with pool := removeCandidates store.pool candidates }.endTask task) := by
  refine inv.frame task none rfl rfl (fun _ settled => settled) (forall_removeCandidates inv.pooled) ?_
    (fun _ equal => by cases equal)
  intro id clean
  by_cases removed : id ∈ candidates.map Prod.fst
  · rcases mem_map.mp removed with ⟨candidate, member, same⟩
    rw [← same]
    exact inv.tasks task _ lookup candidate member
  · refine inv.settled id ?_
    change (removeCandidates store.pool candidates)[id]?.all (fun page => !page.dirty) = true at clean
    rw [lookup_removeCandidates, if_neg removed] at clean
    exact clean

theorem inv_step {next : PageStore} {action : PageStoreAction}
    (admitted : store.putsOutsideWindows action) (taken : store.step action = some next) :
    next.Inv := by
  cases moves_of_step taken with
  | ticks => exact { inv with }
  | gets => exact inv.get _
  | puts => exact inv.put admitted _ _
  | idles => exact inv
  | snapshots => exact inv.checkpoint _
  | syncFails lookup => exact inv.writeAndSync lookup none (fun _ equal => by cases equal)
  | syncs lookup => exact inv.writeAndSync lookup (some _) (fun _ equal => by cases equal; rfl)
  | clears lookup => exact inv.clearFlags lookup
  | raises | counts =>
    exact inv.frame _ (some _) rfl rfl (fun _ settled => settled) inv.pooled inv.settled
      (fun _ equal => by cases equal; trivial)
  | stays => exact inv.endTask _
  | writesState =>
    exact inv.frame _ none rfl rfl (fun _ settled => settled) inv.pooled inv.settled
      (fun _ equal => by cases equal)
  | selects => exact inv.selectCandidates _ _
  | copies lookup => exact inv.copyDirty lookup
  | flushes lookup => exact inv.flush lookup
  | removes lookup => exact inv.remove lookup

end

end Steps

/-- Puts of addressable pages outside the windows. -/
def putsAdmitted (state : PageStore × RawPageFile) (action : PageStoreAction) : Prop :=
  state.1.putsKnown (fun id _ => Addressable id) action ∧ state.1.putsOutsideWindows action

instance putsAdmittedDecidable (state : PageStore × RawPageFile) (action : PageStoreAction) :
    Decidable (putsAdmitted state action) :=
  inferInstanceAs (Decidable (_ ∧ _))

/-- Runs in which no page is put while a maintenance task relies on it lose no
write, however the tasks overlap each other. -/
theorem noLostWrite_of_putsOutsideWindows {bytes : RawPageFile} {file : PageFile}
    (checkpointState : Nat) {final : PageStore × RawPageFile} (holds : Holds bytes file)
    (fit : ∀ (id : PageId) image, file[id]? = some image -> Addressable id)
    (reached : Reaches onFile putsAdmitted (opened file checkpointState, bytes) final) :
    final.1.NoLostWrite final.2 := by
  have inv : final.1.Inv := (reached.forget (fun _ _ admitted => admitted.2)).invariant
    (inv_opened file checkpointState) (fun _ _ _ inv admitted taken => inv_step inv admitted taken)
  exact inv.noLostWrite
    (onFile_of_reaches (fun _ _ fits => fits) (fun _ _ admitted => admitted.1) holds fit reached).holds

/-- A checkpoint and an eviction that overlap, with puts between their windows. -/
theorem noLostWrite_of_putsOutsideWindows_overlap :
    ∃ final, Reaches onFile putsAdmitted (opened ∅ 0, .created) final ∧
      final.1.NoLostWrite final.2 ∧ final.1.pool.isEmpty = true ∧ final.1.checkpointLsn = 1 := by
  have passed : (runGuarded onFile putsAdmitted (opened ∅ 0, .created)
      [.put 1 (.filled 1) 1, .checkpoint 0, .evictColdPages 1 ⟨0, 1⟩, .selectCandidates 1 [1],
        .copyDirty 1, .writeAndSync 0 false, .clearFlags 0, .flush 1, .updateCheckpointLsn 0,
        .remove 1]).any (fun final => final.1.pool.isEmpty ∧ final.1.checkpointLsn = 1) = true := by
    decide +kernel
  rcases exists_reaches_of_decide passed with ⟨final, reached, observed⟩
  exact ⟨final, reached, noLostWrite_of_putsOutsideWindows 0 holds_created forall_empty reached, observed⟩

/-- A put between the copy of a checkpoint and the clearing of its flags is
taken for clean, and the next eviction drops it: the file keeps the old image. -/
theorem not_noLostWrite :
    ¬ (∀ final, Reaches onFile (fun state => state.1.putsKnown (fun id _ => Addressable id))
      (opened ∅ 0, .created) final -> final.1.NoLostWrite final.2) := by
  intro safe
  have passed : (runGuarded onFile (fun state => state.1.putsKnown (fun id _ => Addressable id))
      (opened ∅ 0, .created)
      [.put 1 (.filled 1) 1, .checkpoint 0, .put 1 (.filled 2) 2, .writeAndSync 0 false,
        .clearFlags 0, .updateCheckpointLsn 0, .evictColdPages 1 ⟨0, 1⟩, .selectCandidates 1 [1],
        .copyDirty 1, .flush 1, .remove 1]).any (fun final => final.1.cleanOrAbsent 1 = true ∧
          (final.1.file.readPage 1).map (fun image => image.bytes.head?) = some (some 1) ∧
          (final.1.lastPutContent 1).map (fun image => image.bytes.head?) = some (some 2)) = true := by
    decide +kernel
  rcases exists_reaches_of_decide passed with ⟨final, reached, clean, stale, latest⟩
  have held := (onFile_of_reaches (fun _ _ fits => fits) (fun _ _ admitted => admitted) holds_created
    forall_empty reached).holds
  rw [← held.readPage (by decide), (safe final reached).persisted 1 (by decide) clean, latest] at stale
  cases stale

end PageStore

end Storage
end ScaleKv
