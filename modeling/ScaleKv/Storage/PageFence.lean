import ScaleKv.Storage.Watermark

namespace ScaleKv
namespace Storage

open Foundation WalNode List Std Option

/-!
# The fence of `getPage`

The handler of `getPage` puts `durable_lsn` into its reply and then reads the
page.  The writer loop stores `durable_lsn` before it hands a batch over to
replay, so the page may be older than the LSN next to it says.

A reply is sound when replay had caught up with the LSN of the reply before the
page was read.
-/

/-- The reply that a handler sends. -/
structure PageReply where
  pageId : PageId
  durableLsn : Nat
  page : Option PageImage

/-- A storage node with its `getPage` handlers.  A call in progress has its page
id and the value of `durable_lsn` that it has read. -/
structure PageServer where
  node : WalNode
  calls : TreeMap Nat (PageId × Nat)
  replies : List PageReply

inductive PageServerAction
  | node (action : WalNodeAction)
  | getPage (call : Nat) (id : PageId)
  | getPageLatest (call : Nat)

namespace PageServer

open StorageNode (logged logged_append logged_singleton)

def opened (node : WalNode) : PageServer := { node := node, calls := ∅, replies := [] }

def replied (server : PageServer) (call : Nat) (id : PageId) (durableLsn : Nat) : PageServer :=
  { node := { server.node with store := (server.node.store.getWithLsn id).2 }
    calls := server.calls.erase call
    replies := server.replies ++
      [{ pageId := id, durableLsn := durableLsn, page := server.node.store.get id }] }

def step (server : PageServer) : PageServerAction -> Option PageServer
  | .node action => (server.node.step action).map (fun node => { server with node := node })
  | .getPage call id =>
    if server.calls.contains call then none
    else some { server with calls := server.calls.insert call (id, server.node.durableLsn) }
  | .getPageLatest call => do
      let (id, durableLsn) <- server.calls[call]?
      return server.replied call id durableLsn

/-- The condition under which `page_fetcher` takes the page of a reply. -/
def accepts (need : Nat) (reply : PageReply) : Prop := need ≤ reply.durableLsn

/-- The page is what later records have made of the image of a record. -/
def Reflects (records : List WalRecord) (record : WalRecord) (page : PageImage) : Prop :=
  ∃ later : List WalRecord, (∀ other ∈ later,
    other ∈ records ∧ other.pageId = record.pageId ∧ record.lsn < other.lsn) ∧
      later.foldlM applyWalRecord record.value = .ok page.bytes

/-- A page that is accepted for a snapshot has all flushed images of the page
from before the snapshot. -/
def FenceSound (server : PageServer) : Prop :=
  ∀ reply ∈ server.replies, ∀ need, accepts need reply ->
    ∀ page, reply.page = some page ->
      ∀ record ∈ logged server.node.accepted, record.op = .pageImage ->
        record.pageId = reply.pageId -> record.lsn < need ->
        Reflects (logged server.node.accepted) record page

/-- The loops of the node, without checkpoints and evictions. -/
def isLoopStep : WalNodeAction -> Bool
  | .maintain _ => false
  | _ => true

/-- Buffers are flushed in order, and a page is read when replay has caught up
with the LSN in the reply. -/
def caughtUp (server : PageServer) : PageServerAction -> Prop
  | .node action => isLoopStep action = true ∧ server.node.flushesInOrder action
  | .getPage _ _ => True
  | .getPageLatest call =>
    (server.calls[call]?.all (fun entry => entry.2 ≤ server.node.lastApplied + 1)) = true

instance caughtUpDecidable (server : PageServer) (action : PageServerAction) :
    Decidable (server.caughtUp action) := by
  cases action with
  | node action => exact instDecidableAnd
  | getPage call id => exact instDecidableTrue
  | getPageLatest call => exact instDecidableEqBool _ _

/-! ## What the pages show -/

/-- The records of one page in the order of their LSNs. -/
structure OfPage (id : PageId) (records : List WalRecord) : Prop where
  page : ∀ record ∈ records, record.pageId = id
  ascending : records.Pairwise (fun left right => left.lsn < right.lsn)

/-- The LSN of a page that was put and has not reached the last applied one. -/
def writtenLsn : LoopStage -> Nat
  | .written lsn _ => lsn
  | _ => 0

/-- Every image that was put is still what the page was made from. -/
structure Shows (node : WalNode) : Prop where
  applied : ∀ record ∈ node.applied,
    record ∈ logged node.accepted ∧ record.lsn ≤ max node.lastApplied (writtenLsn node.loop)
  reflects : ∀ record ∈ node.applied, record.op = .pageImage ->
    ∃ page, node.store.get record.pageId = some page ∧
      Reflects (logged node.accepted) record page
  buffers : ∀ id, OfPage id (node.bufferOf id).records
  inHand : ∀ id records resume, node.loop = .flushing id records resume -> OfPage id records

variable {action : WalNodeAction}

section Shows

variable {first seen mark : Nat} {node next : WalNode} {records : List WalRecord}
variable {record : WalRecord} {id : PageId}

theorem OfPage.nil (id : PageId) : OfPage id [] :=
  ⟨fun _ member => absurd member not_mem_nil, List.Pairwise.nil⟩

theorem OfPage.concat (ofPage : OfPage record.pageId records)
    (newer : ∀ other ∈ records, other.lsn < record.lsn) :
    OfPage record.pageId (records ++ [record]) := by
  refine ⟨?_, ?_⟩
  · exact forall_mem_append.mpr ⟨ofPage.page, forall_mem_singleton.mpr rfl⟩
  · refine pairwise_append.mpr ⟨ofPage.ascending, pairwise_singleton _ _, ?_⟩
    intro left before _ own
    rw [mem_singleton.mp own]
    exact newer left before

theorem Reflects.mono {more : List WalRecord} {page : PageImage}
    (reflects : Reflects records record page)
    (subset : ∀ other ∈ records, other ∈ more) : Reflects more record page := by
  rcases reflects with ⟨later, behind, redone⟩
  refine ⟨later, ?_, redone⟩
  intro other member
  rcases behind other member with ⟨listed, same, newer⟩
  exact ⟨subset other listed, same, newer⟩

section Transfer

variable (shows : Shows node)
    (accepted : ∀ record ∈ logged node.accepted, record ∈ logged next.accepted)
    (applied : next.applied = node.applied)

include shows accepted applied

theorem Shows.transfer (bound : max node.lastApplied (writtenLsn node.loop) ≤
      max next.lastApplied (writtenLsn next.loop)) (store : next.store = node.store)
    (buffers : ∀ id, OfPage id (next.bufferOf id).records)
    (inHand : ∀ id records resume, next.loop = .flushing id records resume ->
      OfPage id records) : Shows next where
  applied := by
    intro record member
    rw [applied] at member
    rcases shows.applied record member with ⟨listed, below⟩
    exact ⟨accepted record listed, below.trans bound⟩
  reflects := by
    intro record member image
    rw [applied] at member
    rw [store]
    rcases shows.reflects record member image with ⟨page, stored, reflects⟩
    exact ⟨page, stored, reflects.mono accepted⟩
  buffers := buffers
  inHand := inHand

theorem Shows.outside (lastApplied : next.lastApplied = node.lastApplied)
    (loop : next.loop = node.loop) (store : next.store = node.store)
    (buffers : next.buffers = node.buffers) : Shows next := by
  refine shows.transfer accepted applied ?_ store ?_ ?_
  · rw [lastApplied, loop]
  · intro id
    unfold bufferOf
    rw [buffers]
    exact shows.buffers id
  · rw [loop]
    exact shows.inHand

end Transfer

theorem Shows.moveLoop (shows : Shows node) {loop : LoopStage}
    (bound : writtenLsn node.loop ≤ node.lastApplied)
    (inHand : loop.inHand = []) : Shows { node with loop := loop } := by
  refine shows.transfer (fun _ member => member) rfl ?_ rfl shows.buffers ?_
  · exact (max_le le_rfl bound).trans (le_max_left _ _)
  · intro id records resume flushing
    change loop = .flushing id records resume at flushing
    rw [flushing] at inHand
    change records = [] at inHand
    rw [inHand]
    exact .nil id

theorem redoRecords_eq_ok {store result : PageStore} (redone : store.redoRecords id records = .ok result) :
    ∃ page : PageImage,
      records.foldlM applyWalRecord ((store.get id).getD .zero).bytes = .ok page.bytes ∧
        ∀ other, result.get other = if id = other then some page else store.get other := by
  rcases bind_eq_ok.mp redone with ⟨_, applied, rest⟩
  rcases bind_eq_ok.mp rest with ⟨page, sized, put⟩
  refine ⟨page, ?_, ?_⟩
  · rw [applied, PageImage.ofSlice_eq_ok.mp sized]
  · intro other
    cases put
    rw [PageStore.get_put, PageStore.get_getWithLsn]

/-- The image of a record in a flush makes the earlier records of the flush
irrelevant. -/
theorem reflects_of_mem {before : Bytes} {flushed : PageImage} {log : List WalRecord}
    (ofPage : OfPage id records) (listed : ∀ other ∈ records, other ∈ log)
    (redone : records.foldlM applyWalRecord before = .ok flushed.bytes)
    (member : record ∈ records) (image : record.op = .pageImage) : Reflects log record flushed := by
  rcases append_of_mem member with ⟨_, later, shape⟩
  rw [shape, foldlM_append] at redone
  rcases bind_eq_ok.mp redone with ⟨_, _, rest⟩
  rw [foldlM_cons] at rest
  rcases bind_eq_ok.mp rest with ⟨own, applied, behind⟩
  have whole : own = record.value := by
    unfold applyWalRecord at applied
    rw [image] at applied
    dsimp only at applied
    split at applied
    · cases applied
    · exact (Except.ok.inj applied).symm
  have ascending := ofPage.ascending
  rw [shape] at ascending
  have newer := (pairwise_cons.mp (pairwise_append.mp ascending).2.1).1
  rw [whole] at behind
  refine ⟨later, ?_, behind⟩
  intro other isLater
  have among : other ∈ records := by
    rw [shape]
    exact mem_append_right _ (mem_cons_of_mem _ isLater)
  exact ⟨listed other among, (ofPage.page other among).trans (ofPage.page record member).symm,
    newer other isLater⟩

section

variable (ordered : WalNode.Ordered first node)

include ordered

theorem Shows.redoes
    (tracks : WalNode.Tracks first seen mark node) (shows : Shows node) {resume : Resume}
    {store : PageStore} (loop : node.loop = .flushing id records resume)
    (redone : node.store.redoRecords id records = .ok store) :
    Shows (node.putRecords store records resume) := by
  have waits : ∀ other ∈ records, node.Waits other := by
    intro other member
    right
    rw [loop]
    exact member
  have listed : ∀ other ∈ records, other ∈ logged node.accepted :=
    fun other member => (ordered.waits other (waits other member)).1
  have ofPage := shows.inHand id records resume loop
  have free : writtenLsn node.loop = 0 := by
    rw [loop]
    rfl
  rcases redoRecords_eq_ok redone with ⟨page, folded, pages⟩
  refine ⟨?_, ?_, shows.buffers, ?_⟩
  · intro record member
    rcases mem_append.mp member with before | own
    · rcases shows.applied record before with ⟨known, below⟩
      rw [free] at below
      exact ⟨known, below.trans (max_le_max_left _ (Nat.zero_le _))⟩
    · exact ⟨listed record own, (le_maxLsn own).trans (le_max_right _ _)⟩
  · intro record member image
    rw [putRecords, pages]
    rcases mem_append.mp member with before | own
    · rcases shows.reflects record before image with ⟨old, stored, later, behind, redoneOld⟩
      split
      · next same =>
        rw [← same] at stored
        rw [stored] at folded
        refine ⟨page, rfl, later ++ records, ?_, ?_⟩
        · intro other isLater
          rcases mem_append.mp isLater with known | new
          · exact behind other known
          · have below := (shows.applied record before).2
            have above := (tracks.waits other (waits other new)).1
            have := tracks.lastApplied
            rw [free] at below
            exact ⟨listed other new, (ofPage.page other new).trans same, by omega⟩
        · rw [foldlM_append, redoneOld]
          exact folded
      · exact ⟨old, stored, later, behind, redoneOld⟩
    · rw [if_pos (ofPage.page record own).symm]
      exact ⟨page, rfl, reflects_of_mem ofPage listed folded own image⟩
  · intro _ _ _ flushing
    cases flushing

omit ordered in
theorem bufferOf_insert (node : WalNode) (written : PageId) (buffer : ReplayBuffer) (loop : LoopStage)
    (buffers : ∀ id, OfPage id (node.bufferOf id).records) (ofPage : OfPage written buffer.records)
    (id : PageId) :
    OfPage id (bufferOf { node.setBuffer written buffer with loop := loop } id).records := by
  change OfPage id ((node.setBuffer written buffer).bufferOf id).records
  rw [bufferOf_setBuffer]
  split
  · next same =>
    rw [← same]
    exact ofPage
  · exact buffers id

theorem Shows.pushed
    (tracks : WalNode.Tracks first seen mark node) (shows : Shows node) {lastSeen : Nat}
    {rest : List WalRecord} (loop : node.loop = .running (.records lastSeen (record :: rest))) :
    OfPage record.pageId ((node.bufferOf record.pageId).records ++ [record]) := by
  refine (shows.buffers record.pageId).concat ?_
  intro other buffered
  have before := (tracks.waits other (.inl (mem_waiting.mpr ⟨_, buffered⟩))).2
  have ahead := tracks.ahead record (ordered.head loop).1
  omega

theorem shows_step (tracks : WalNode.Tracks first seen mark node) (shows : Shows node)
    (isLoop : isLoopStep action = true) (taken : node.step action = some next) : Shows next := by
  have same : ∀ record ∈ logged node.accepted, record ∈ logged node.accepted :=
    fun _ member => member
  have free {stage : LoopStage} (loop : node.loop = stage) (none : writtenLsn stage = 0) :
      writtenLsn node.loop ≤ node.lastApplied := by
    rw [loop, none]
    exact Nat.zero_le _
  cases moves_of_step taken with
  | refuses => exact shows
  | @flushes =>
    refine shows.outside ?_ rfl rfl rfl rfl rfl
    intro record member
    rw [logged_flushed]
    exact mem_append_left _ member
  | @receives batch _ loop =>
    have moved := @Shows.moveLoop node shows (.running (.records node.lastApplied batch.records))
      (free loop rfl) rfl
    exact moved.outside same rfl rfl rfl rfl rfl
  | endsBatch loop | skips loop | breaksOff loop | passes loop | ends loop | hasNothing loop
  | redoFails loop | closes _ _ loop => exact shows.moveLoop (free loop rfl) rfl
  | waits loop =>
    refine shows.transfer same rfl ?_ rfl
      (bufferOf_insert node _ _ _ shows.buffers (shows.pushed ordered tracks loop)) ?_
    · rw [loop]
      exact le_rfl
    · nofun
  | fills loop =>
    refine shows.transfer same rfl ?_ rfl ?_ ?_
    · rw [loop]
      exact le_rfl
    · exact bufferOf_insert (node.setBuffer _ _) _ _ _
        (bufferOf_insert node _ _ node.loop shows.buffers (shows.pushed ordered tracks loop))
        (.nil _)
    · intro _ records resume flushing
      cases flushing
      exact shows.pushed ordered tracks loop
  | takes loop =>
    refine shows.transfer same rfl ?_ rfl (bufferOf_insert node _ _ _ shows.buffers (.nil _)) ?_
    · rw [loop]
      exact le_rfl
    · intro _ records resume flushing
      cases flushing
      exact shows.buffers _
  | redoes loop _ redone => exact shows.redoes ordered tracks loop redone
  | raises loop higher =>
    refine shows.transfer same rfl ?_ rfl shows.buffers ?_
    · rw [loop]
      exact max_le (higher.le.trans (le_max_left _ _)) (le_max_left _ _)
    · nofun
  | keeps loop lower =>
    refine shows.moveLoop ?_ rfl
    rw [loop]
    exact lower
  | @writesState _ resume loop =>
    have moved := @Shows.moveLoop node shows (.running resume) (free loop rfl) rfl
    exact moved.outside same rfl rfl rfl rfl rfl
  | maintains => cases isLoop
  | _ =>
    have outside := outside_of_step rfl taken
    refine shows.outside ?_ outside.applied outside.lastApplied outside.loop outside.store
      outside.buffers
    rw [outside.accepted]
    exact same

/-- The flushed batches only grow, and `durable_lsn` is stored as their end. -/
theorem accepted_step (taken : node.step action = some next) :
    ∃ new, next.accepted = node.accepted ++ new ∧
      (next.durableLsn = node.durableLsn ∨
        next.durableLsn = first + (logged next.accepted).length) := by
  have unchanged : ∃ new, node.accepted = node.accepted ++ new ∧
      (node.durableLsn = node.durableLsn ∨
        node.durableLsn = first + (logged node.accepted).length) :=
    ⟨[], (append_nil _).symm, .inl rfl⟩
  cases moves_of_step taken with
  | rotates | appends =>
    rcases node.rotateIfNeeded_eq with ⟨_, _, _, shape, _⟩
    rw [shape]
    exact unchanged
  | @appendFails batch inFile =>
    rcases node.rotateIfNeeded_fail batch inFile with ⟨_, _, _, _, shape⟩
    rw [shape]
    exact unchanged
  | @flushFails batch inFile =>
    rcases node.fail_eq batch inFile with ⟨_, _, shape⟩
    rw [shape]
    exact unchanged
  | @flushes batch => exact ⟨[batch], rfl, .inl rfl⟩
  | publishes writer =>
    exact ⟨[], (append_nil _).symm, .inr (ordered.at_stage writer).writer⟩
  | _ => exact unchanged

end

end Shows

/-! ## Calls and replies -/

/-- No call has an LSN from behind the end of the log, and the replies are
sound. -/
structure Fenced (first : Nat) (server : PageServer) : Prop where
  follows : WalNode.Follows first server.node
  shows : Shows server.node
  durable : server.node.durableLsn ≤ first + (logged server.node.accepted).length
  calls : ∀ (call : Nat) (entry : PageId × Nat), server.calls[call]? = some entry ->
    entry.2 ≤ first + (logged server.node.accepted).length
  replies : ∀ reply ∈ server.replies,
    reply.durableLsn ≤ first + (logged server.node.accepted).length
  sound : server.FenceSound

section Fenced

variable {first : Nat} {server next : PageServer}

section

variable (fenced : Fenced first server)

include fenced

theorem Fenced.node {node : WalNode}
    (isLoop : isLoopStep action = true) (inOrder : server.node.flushesInOrder action)
    (taken : server.node.step action = some node) : Fenced first { server with node := node } := by
  rcases fenced.follows.tracked with ⟨_, _, tracks⟩
  rcases accepted_step fenced.follows.ordered taken with ⟨new, grown, durable⟩
  have log : logged node.accepted = logged server.node.accepted ++ logged new := by
    rw [grown, logged_append]
  have longer : (logged server.node.accepted).length ≤ (logged node.accepted).length := by
    rw [log, length_append]
    exact Nat.le_add_right _ _
  have ordered := ordered_step fenced.follows.ordered taken
  refine ⟨⟨ordered, tracked_step fenced.follows.ordered fenced.follows.tracked inOrder taken⟩,
    shows_step fenced.follows.ordered tracks fenced.shows isLoop taken, ?_, ?_, ?_, ?_⟩
  · change node.durableLsn ≤ first + (logged node.accepted).length
    have := fenced.durable
    omega
  · intro call entry found
    have := fenced.calls call entry found
    change entry.2 ≤ first + (logged node.accepted).length
    omega
  · intro reply member
    have := fenced.replies reply member
    change reply.durableLsn ≤ first + (logged node.accepted).length
    omega
  · intro reply member need accepted page found record listed image own below
    have numbered := ordered.numbered
    rw [log] at listed numbered ⊢
    rcases mem_append.mp listed with known | isNew
    · exact (fenced.sound reply member need accepted page found record known image own below).mono
        (fun _ old => mem_append_left _ old)
    · -- A record flushed since then has an LSN from behind the reply.
      have behind := ((Numbered.append.mp numbered).2.bounds isNew).1
      have within := fenced.replies reply member
      unfold accepts at accepted
      omega

theorem Fenced.getPage (call : Nat) (id : PageId) :
    Fenced first
      { server with calls := server.calls.insert call (id, server.node.durableLsn) } := by
  refine { fenced with calls := ?_ }
  exact OrderedMap.forall_insert fenced.durable fenced.calls

omit fenced in
theorem Shows.read {node : WalNode} (shows : Shows node) (id : PageId) :
    Shows { node with store := (node.store.getWithLsn id).2 } := by
  refine { shows with reflects := ?_ }
  intro record member image
  rw [PageStore.get_getWithLsn]
  exact shows.reflects record member image

theorem Fenced.getPageLatest {call : Nat} {id : PageId}
    {durableLsn : Nat} (found : server.calls[call]? = some (id, durableLsn))
    (applied : durableLsn ≤ server.node.lastApplied + 1) :
    Fenced first (server.replied call id durableLsn) := by
  rcases fenced.follows.tracked with ⟨_, _, tracks⟩
  have taken : server.node.step (.maintain (.get id)) =
      some { server.node with store := (server.node.store.getWithLsn id).2 } := rfl
  refine ⟨⟨ordered_step fenced.follows.ordered taken,
    tracked_step fenced.follows.ordered fenced.follows.tracked
      (show server.node.flushesInOrder (.maintain (.get id)) from trivial) taken⟩,
    fenced.shows.read id, fenced.durable, ?_, ?_, ?_⟩
  · intro other entry present
    exact fenced.calls other entry (OrderedMap.lookup_erase_cases present).2
  · refine forall_mem_append.mpr ⟨fenced.replies, forall_mem_singleton.mpr ?_⟩
    exact fenced.calls call _ found
  · intro reply member need accepted page reads record listed image same below
    rcases mem_append.mp member with before | own
    · exact fenced.sound reply before need accepted page reads record listed image same below
    · rw [mem_singleton.mp own] at accepted reads same
      have isPage : record.op.isTxn = false := by
        rw [image]
        rfl
      have old : record.lsn ≤ server.node.lastApplied := by
        unfold accepts at accepted
        dsimp only at accepted
        omega
      have isApplied := tracks.watermarkSound record listed isPage (.inl old)
      rcases fenced.shows.reflects record isApplied image with ⟨_, stored, reflects⟩
      rw [same] at stored
      cases stored.symm.trans reads
      exact reflects

theorem fenced_step {action : PageServerAction}
    (guard : server.caughtUp action) (taken : server.step action = some next) :
    Fenced first next := by
  cases action with
  | node =>
    rcases map_eq_some_iff.mp taken with ⟨node, stepped, rfl⟩
    exact fenced.node guard.1 guard.2 stepped
  | getPage call id =>
    rw [step] at taken
    split at taken
    · cases taken
    · cases taken
      exact fenced.getPage call id
  | getPageLatest =>
    rcases bind_eq_some_iff.mp taken with ⟨⟨_, _⟩, found, shape⟩
    cases shape
    rw [caughtUp, found] at guard
    exact fenced.getPageLatest found (of_decide_eq_true guard)

end

end Fenced

/-- The steps of the two loops and of the handlers. -/
def loopSteps (_server : PageServer) : PageServerAction -> Prop
  | .node action => isLoopStep action = true
  | _ => True

instance loopStepsDecidable (server : PageServer) (action : PageServerAction) :
    Decidable (server.loopSteps action) := by
  cases action with
  | node action => exact instDecidableEqBool _ _
  | getPage call id => exact instDecidableTrue
  | getPageLatest call => exact instDecidableTrue

end PageServer

end Storage
end ScaleKv
