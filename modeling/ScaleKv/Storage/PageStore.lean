import ScaleKv.Common
import ScaleKv.Foundation.OrderedMap

namespace ScaleKv
namespace Storage

open Option Std

/-!
# The page store and its maintenance tasks

`PageStore` keeps recently written pages in a buffer pool in front of the page
file.  A checkpoint copies the dirty pages, writes and syncs them, and then
clears the dirty flags.  An eviction picks the coldest pages, writes those that
were dirty, and then drops them from the pool.  Each of these steps takes the
pool lock or the file lock anew, so any other call may come between two of
them.  The tasks in flight are part of the state for that reason.
-/

/-- An entry of the buffer pool. -/
structure BufferPage where
  data : PageImage
  dirty : Bool
  lsn : Nat
  lastAccessed : Nat

/-- `HashMap<PageId, BufferPage>`; where its iteration order shows, the step
takes the order as an argument. -/
abbrev BufferPool := TreeMap PageId BufferPage

/-- The pages written to `pages.dat`; the bytes between them are zero.  The source
computes the place of a page in 64-bit words, which `RawPageFile` models; for ids
that fit, its bytes hold these pages. -/
abbrev PageFile := TreeMap PageId PageImage

namespace PageFile

/-- `PageFile::read_page`: an all-zero page counts as missing. -/
def readPage (file : PageFile) (id : PageId) : Option PageImage :=
  file[id]?.filter (fun image => image ≠ PageImage.zero)

def writePages (file : PageFile) (pages : List (PageId × PageImage)) : PageFile :=
  pages.foldl (fun current page => current.insert page.1 page.2) file

end PageFile

/-- A dirty page as the checkpoint copies it. -/
structure DirtyPage where
  id : PageId
  data : PageImage
  lsn : Nat

def DirtyPage.entry (page : DirtyPage) : PageId × PageImage := (page.id, page.data)

structure BufferPoolConfig where
  maxPages : Nat
  evictionBatchSize : Nat

/-- Where a call of `checkpoint` (the first four) or of `evict_cold_pages` (the
others) stands.  A candidate carries the dirty flag seen at its selection. -/
inductive Task
  | snapshotted (dirtyPages : List DirtyPage)
  | synced (dirtyPages : List DirtyPage)
  | cleared (maxLsn : Nat)
  | stored (maxLsn : Nat)
  | counted (toEvict : Nat)
  | selected (candidates : List (PageId × Bool))
  | copied (candidates : List (PageId × Bool)) (dirtyToFlush : List (PageId × PageImage))
  | flushed (candidates : List (PageId × Bool))

/-- The pages that a task is about to write to the page file. -/
def Task.toWrite : Task -> List (PageId × PageImage)
  | .snapshotted pages => pages.map DirtyPage.entry
  | .copied _ pages => pages
  | _ => []

abbrev TaskId := Nat

/-- The page store.  `lastPut` records, for every page, the data of the last
put, starting from what the file held when it was opened; no step reads it. -/
structure PageStore where
  pool : BufferPool
  file : PageFile
  checkpointLsn : Nat
  checkpointState : Nat
  clock : Nat
  tasks : TreeMap TaskId Task
  lastPut : TreeMap PageId PageImage

namespace PageStore

/-- `PageStore::open`. -/
def opened (file : PageFile) (checkpointState : Nat) : PageStore :=
  { pool := ∅
    file := file
    checkpointLsn := checkpointState
    checkpointState := checkpointState
    clock := 0
    tasks := ∅
    lastPut := file }

/-- `PageStore::get_with_lsn`: a hit touches the entry, and a page that comes
from the file has no known LSN. -/
def getWithLsn (store : PageStore) (id : PageId) : Option (PageImage × Nat) × PageStore :=
  match store.pool[id]? with
  | some page =>
    (some (page.data, page.lsn),
      { store with pool := store.pool.insert id { page with lastAccessed := store.clock } })
  | none => ((store.file.readPage id).map (fun data => (data, 0)), store)

/-- `PageStore::put` of a slice that has the page size; another slice is refused
and changes nothing. -/
def put (store : PageStore) (id : PageId) (data : PageImage) (lsn : Nat) : PageStore :=
  { store with
    pool := store.pool.insert id
      { data := data, dirty := true, lsn := lsn, lastAccessed := store.clock }
    lastPut := store.lastPut.insert id data }

/-- The dirty pages in the order of their ids. -/
def dirtyPages (pool : BufferPool) : List DirtyPage :=
  (pool.toList.filter (fun entry => entry.2.dirty)).map
    (fun entry => { id := entry.1, data := entry.2.data, lsn := entry.2.lsn })

def maxLsn (pages : List DirtyPage) : Nat :=
  pages.foldl (fun largest page => if largest < page.lsn then page.lsn else largest) 0

/-- `if let Some(bp) = pool.get_mut(page_id) { bp.dirty = false }` for every
page that the checkpoint wrote. -/
def clearDirty (pool : BufferPool) (pages : List DirtyPage) : BufferPool :=
  pages.foldl
    (fun current page =>
      match current[page.id]? with
      | some entry => current.insert page.id { entry with dirty := false }
      | none => current)
    pool

/-- An order in which the candidates may come out of the sort by access time;
pages accessed at the same time come in any order. -/
def coldestFirst (pool : BufferPool) (order : List PageId) : Bool :=
  decide (order.Perm pool.keys) &&
    decide (order.Pairwise (fun left right =>
      pool[left]?.elim 0 BufferPage.lastAccessed ≤ pool[right]?.elim 0 BufferPage.lastAccessed))

def candidates (pool : BufferPool) (order : List PageId) : List (PageId × Bool) :=
  order.map (fun id => (id, pool[id]?.any BufferPage.dirty))

/-- The data of the candidates that were dirty and are still in the pool. -/
def dirtyToFlush (pool : BufferPool) (candidates : List (PageId × Bool)) :
    List (PageId × PageImage) :=
  candidates.filterMap (fun candidate =>
    if candidate.2 then pool[candidate.1]?.map (fun page => (candidate.1, page.data)) else none)

def removeCandidates (pool : BufferPool) (candidates : List (PageId × Bool)) : BufferPool :=
  candidates.foldl (fun current candidate => current.erase candidate.1) pool

def setTask (store : PageStore) (id : TaskId) (task : Task) : PageStore :=
  { store with tasks := store.tasks.insert id task }

def endTask (store : PageStore) (id : TaskId) : PageStore :=
  { store with tasks := store.tasks.erase id }

end PageStore

/-- The steps of the calls on a page store.  Time passes between any two of
them; a put of a slice of another size is no step. -/
inductive PageStoreAction
  | tick (elapsed : Nat)
  | get (id : PageId)
  | put (id : PageId) (data : PageImage) (lsn : Nat)
  | checkpoint (task : TaskId)
  | writeAndSync (task : TaskId) (syncFails : Bool)
  | clearFlags (task : TaskId)
  | updateCheckpointLsn (task : TaskId)
  | writeCheckpointState (task : TaskId)
  | evictColdPages (task : TaskId) (config : BufferPoolConfig)
  | selectCandidates (task : TaskId) (order : List PageId)
  | copyDirty (task : TaskId)
  | flush (task : TaskId)
  | remove (task : TaskId)

def PageStoreAction.isPut : PageStoreAction -> Bool
  | .put .. => true
  | _ => false

namespace PageStore

/-- One step.  A call that has nothing to do returns at once and leaves no task
behind; a checkpoint whose sync fails returns its error with the flags still
set. -/
def step (store : PageStore) : PageStoreAction -> Option PageStore
  | .tick elapsed => some { store with clock := store.clock + elapsed }
  | .get id => some (store.getWithLsn id).2
  | .put id data lsn => some (store.put id data lsn)
  | .checkpoint task =>
    if store.tasks.contains task then none
    else
      let pages := dirtyPages store.pool
      if pages.isEmpty then some store else some (store.setTask task (.snapshotted pages))
  | .writeAndSync task syncFails => do
      match <- store.tasks[task]? with
      | .snapshotted pages =>
        let written :=
          { store with file := store.file.writePages (pages.map DirtyPage.entry) }
        return if syncFails then written.endTask task else written.setTask task (.synced pages)
      | _ => none
  | .clearFlags task => do
      match <- store.tasks[task]? with
      | .synced pages =>
        return { store with pool := clearDirty store.pool pages }.setTask task
          (.cleared (maxLsn pages))
      | _ => none
  | .updateCheckpointLsn task => do
      match <- store.tasks[task]? with
      | .cleared maxLsn =>
        if store.checkpointLsn < maxLsn then
          return { store with checkpointLsn := maxLsn }.setTask task (.stored maxLsn)
        else return store.endTask task
      | _ => none
  | .writeCheckpointState task => do
      match <- store.tasks[task]? with
      | .stored maxLsn => return { store with checkpointState := maxLsn }.endTask task
      | _ => none
  | .evictColdPages task config =>
    if store.tasks.contains task then none
    else if store.pool.size ≤ config.maxPages then some store
    else some (store.setTask task
      (.counted (store.pool.size - config.maxPages + config.evictionBatchSize)))
  | .selectCandidates task order => do
      match <- store.tasks[task]? with
      | .counted toEvict =>
        if coldestFirst store.pool order then
          return store.setTask task (.selected (candidates store.pool (order.take toEvict)))
        else none
      | _ => none
  | .copyDirty task => do
      match <- store.tasks[task]? with
      | .selected candidates =>
        return store.setTask task (.copied candidates (dirtyToFlush store.pool candidates))
      | _ => none
  | .flush task => do
      match <- store.tasks[task]? with
      | .copied candidates pages =>
        return { store with file := store.file.writePages pages }.setTask task
          (.flushed candidates)
      | _ => none
  | .remove task => do
      match <- store.tasks[task]? with
      | .flushed candidates =>
        return { store with pool := removeCandidates store.pool candidates }.endTask task
      | _ => none

/-- The pages that a step writes to the page file. -/
def fileWrites (store : PageStore) : PageStoreAction -> List (PageId × PageImage)
  | .writeAndSync task _ | .flush task => store.tasks[task]?.elim [] Task.toWrite
  | _ => []

theorem tasks_cases {store next : PageStore} {id other : TaskId} {task : Option Task} {found : Task}
    (sameTasks : next.tasks = task.elim (store.tasks.erase id) (store.tasks.insert id))
    (lookup : next.tasks[other]? = some found) : task = some found ∨ store.tasks[other]? = some found := by
  rw [sameTasks] at lookup
  cases task with
  | none => exact .inr (Foundation.OrderedMap.lookup_erase_cases lookup).2
  | some =>
    rcases Foundation.OrderedMap.lookup_insert_cases lookup with ⟨_, rfl⟩ | ⟨_, before⟩
    · exact .inl rfl
    · exact .inr before

/-- What a step can do; the invariants of the store are proved case by case
over this relation. -/
inductive Moves (store : PageStore) : PageStoreAction -> PageStore -> Prop
  | ticks {elapsed} : Moves store (.tick elapsed) { store with clock := store.clock + elapsed }
  | gets {id} : Moves store (.get id) (store.getWithLsn id).2
  | puts {id data lsn} : Moves store (.put id data lsn) (store.put id data lsn)
  | idles {action} (nothing : store.fileWrites action = []) : Moves store action store
  | snapshots {task} : Moves store (.checkpoint task)
      (store.setTask task (.snapshotted (dirtyPages store.pool)))
  | syncFails {task pages} (lookup : store.tasks[task]? = some (.snapshotted pages)) :
      Moves store (.writeAndSync task true)
        ({ store with file := store.file.writePages (pages.map DirtyPage.entry) }.endTask task)
  | syncs {task pages} (lookup : store.tasks[task]? = some (.snapshotted pages)) :
      Moves store (.writeAndSync task false)
        ({ store with file := store.file.writePages (pages.map DirtyPage.entry) }.setTask task
          (.synced pages))
  | clears {task pages} (lookup : store.tasks[task]? = some (.synced pages)) :
      Moves store (.clearFlags task)
        ({ store with pool := clearDirty store.pool pages }.setTask task (.cleared (maxLsn pages)))
  | raises {task maxLsn} (lookup : store.tasks[task]? = some (.cleared maxLsn))
      (higher : store.checkpointLsn < maxLsn) : Moves store (.updateCheckpointLsn task)
        ({ store with checkpointLsn := maxLsn }.setTask task (.stored maxLsn))
  | stays {task} : Moves store (.updateCheckpointLsn task) (store.endTask task)
  | writesState {task maxLsn} (lookup : store.tasks[task]? = some (.stored maxLsn)) :
      Moves store (.writeCheckpointState task)
        ({ store with checkpointState := maxLsn }.endTask task)
  | counts {task config toEvict} :
      Moves store (.evictColdPages task config) (store.setTask task (.counted toEvict))
  | selects {task order taken} : Moves store (.selectCandidates task order)
      (store.setTask task (.selected (candidates store.pool taken)))
  | copies {task candidates} (lookup : store.tasks[task]? = some (.selected candidates)) :
      Moves store (.copyDirty task)
        (store.setTask task (.copied candidates (dirtyToFlush store.pool candidates)))
  | flushes {task candidates pages} (lookup : store.tasks[task]? = some (.copied candidates pages)) :
      Moves store (.flush task)
        ({ store with file := store.file.writePages pages }.setTask task (.flushed candidates))
  | removes {task candidates} (lookup : store.tasks[task]? = some (.flushed candidates)) :
      Moves store (.remove task)
        ({ store with pool := removeCandidates store.pool candidates }.endTask task)

theorem moves_of_step {store next : PageStore} {action : PageStoreAction}
    (taken : store.step action = some next) : Moves store action next := by
  cases action with
  | tick =>
    cases taken
    exact .ticks
  | get =>
    cases taken
    exact .gets
  | put =>
    cases taken
    exact .puts
  | checkpoint =>
    simp only [step] at taken
    split at taken
    · cases taken
    · split at taken
      · cases taken
        exact .idles rfl
      · cases taken
        exact .snapshots
  | evictColdPages =>
    simp only [step] at taken
    split at taken
    · cases taken
    · split at taken
      · cases taken
        exact .idles rfl
      · cases taken
        exact .counts
  | writeAndSync _ syncFails =>
    rcases bind_eq_some_iff.mp taken with ⟨entry, lookup, taken⟩
    cases entry with
    | snapshotted =>
      cases taken
      cases syncFails with
      | true => exact .syncFails lookup
      | false => exact .syncs lookup
    | _ => cases taken
  | clearFlags =>
    rcases bind_eq_some_iff.mp taken with ⟨entry, lookup, taken⟩
    cases entry with
    | synced =>
      cases taken
      exact .clears lookup
    | _ => cases taken
  | updateCheckpointLsn =>
    rcases bind_eq_some_iff.mp taken with ⟨entry, lookup, taken⟩
    cases entry with
    | cleared =>
      dsimp only at taken
      split at taken
      · next higher =>
        cases taken
        exact .raises lookup higher
      · cases taken
        exact .stays
    | _ => cases taken
  | writeCheckpointState =>
    rcases bind_eq_some_iff.mp taken with ⟨entry, lookup, taken⟩
    cases entry with
    | stored =>
      cases taken
      exact .writesState lookup
    | _ => cases taken
  | selectCandidates =>
    rcases bind_eq_some_iff.mp taken with ⟨entry, _, taken⟩
    cases entry with
    | counted =>
      dsimp only at taken
      split at taken
      · cases taken
        exact .selects
      · cases taken
    | _ => cases taken
  | copyDirty =>
    rcases bind_eq_some_iff.mp taken with ⟨entry, lookup, taken⟩
    cases entry with
    | selected =>
      cases taken
      exact .copies lookup
    | _ => cases taken
  | flush =>
    rcases bind_eq_some_iff.mp taken with ⟨entry, lookup, taken⟩
    cases entry with
    | copied =>
      cases taken
      exact .flushes lookup
    | _ => cases taken
  | remove =>
    rcases bind_eq_some_iff.mp taken with ⟨entry, lookup, taken⟩
    cases entry with
    | flushed =>
      cases taken
      exact .removes lookup
    | _ => cases taken

theorem Moves.file_eq {store next : PageStore} {action : PageStoreAction}
    (moves : Moves store action next) :
    next.file = store.file.writePages (store.fileWrites action) := by
  cases moves with
  | gets =>
    unfold getWithLsn
    split <;> rfl
  | idles nothing =>
    rw [nothing]
    rfl
  | syncFails lookup | syncs lookup | flushes lookup =>
    rw [fileWrites, lookup]
    rfl
  | _ => rfl

end PageStore

end Storage
end ScaleKv
