import ScaleKv.Storage.TxnReads

namespace ScaleKv
namespace Storage

open Foundation OrderedMap List Option Std

/-!
# Read handles and the collection of versions

A caller of `begin_mvcc_ro_guard` loads `durable_lsn` and registers it as its
snapshot in a second step.  The replay loop collects versions in three steps: it
loads `durable_lsn`, takes the least registered snapshot, and removes the
versions below.  Between a load and its registration no pass sees the snapshot,
and a pass that runs there with a `durable_lsn` that has moved removes what the
handle is to read.

Any number of calls may append, so that several batches pass the validation
against one value of `durable_lsn`; the writer loop takes them in groups.  The
pages that the replay loop writes are left out, and so is `abort_active_read`,
with which an operator ends the reads of others.
-/

/-! ## Reads at a snapshot -/

namespace Mvcc

variable {mvcc left right : Mvcc} {bound readLsn watermark : Nat} {key : Bytes}

theorem getAt_push (mvcc : Mvcc) (pushed key : Bytes) (version : MvccVersion) (readLsn : Nat) :
    (mvcc.push pushed version).getAt key readLsn =
      if pushed = key ∧ version.commitLsn ≤ readLsn then some version.value
      else mvcc.getAt key readLsn := by
  unfold getAt push
  rw [lookup_insert]
  by_cases same : pushed = key
  · rw [if_pos same, bind_some, reverse_concat, List.find?_cons]
    by_cases visible : version.commitLsn ≤ readLsn
    · rw [if_pos ⟨same, visible⟩, decide_eq_true visible]
      rfl
    · rw [if_neg (fun both => visible both.2), decide_eq_false visible, same,
        TreeMap.getD_eq_getD_getElem?]
      cases mvcc[key]? with
      | none => rfl
      | some => rfl
  · rw [if_neg same, if_neg (fun both => same both.1)]

/-- The last version up to the watermark stays, and a snapshot that is not
below the watermark sees it or a later one. -/
theorem find_collect (small : watermark ≤ readLsn) (versions : List MvccVersion) :
    (collect watermark versions).reverse.find? (fun version => version.commitLsn ≤ readLsn) =
      versions.reverse.find? (fun version => version.commitLsn ≤ readLsn) := by
  unfold collect
  have split : versions.takeWhile (fun version => version.commitLsn ≤ watermark) ++
      versions.dropWhile (fun version => version.commitLsn ≤ watermark) = versions :=
    takeWhile_append_dropWhile
  rcases eq_nil_or_concat'
    (versions.takeWhile (fun version => version.commitLsn ≤ watermark)) with none | ⟨_, last, some⟩
  · rw [none]
    rfl
  · have member : last ∈ versions.takeWhile (fun version => version.commitLsn ≤ watermark) :=
      some ▸ mem_concat_self
    have visible : last.commitLsn ≤ watermark := by simpa using mem_takeWhile_imp member
    rw [some, append_assoc, singleton_append] at split
    rw [some, length_append, length_singleton, Nat.add_sub_cancel, ← split,
      drop_left, reverse_append, List.find?_append]
    refine (or_of_isSome ?_).symm
    exact List.find?_isSome.mpr ⟨last, mem_reverse.mpr mem_cons_self,
      decide_eq_true (Nat.le_trans visible small)⟩

theorem getAt_gcVersions (small : watermark ≤ readLsn) :
    (mvcc.gcVersions watermark).getAt key readLsn = mvcc.getAt key readLsn := by
  unfold getAt gcVersions
  rw [TreeMap.getElem?_map]
  cases mvcc[key]? with
  | none => rfl
  | some versions => exact congrArg (Option.map MvccVersion.value) (find_collect small versions)

/-- Two maps that no snapshot from the bound on tells apart. -/
def SameFrom (bound : Nat) (left right : Mvcc) : Prop :=
  ∀ key readLsn, bound ≤ readLsn -> left.getAt key readLsn = right.getAt key readLsn

theorem SameFrom.applyTxnBatch (same : SameFrom bound left right) (batch : WalBatch) :
    SameFrom bound (left.applyTxnBatch batch) (right.applyTxnBatch batch) := by
  refine applyTxnBatch_related batch ?_ same
  intro left right _ _ same key readLsn above
  rw [getAt_push, getAt_push, same key readLsn above]

/-- What happens to the map: a batch is taken in, or versions are collected. -/
inductive Change
  | applyTxnBatch (batch : WalBatch)
  | gcVersions (watermark : Nat)

def Change.batch : Change -> Option WalBatch
  | .applyTxnBatch batch => some batch
  | .gcVersions _ => none

def apply (mvcc : Mvcc) : Change -> Mvcc
  | .applyTxnBatch batch => mvcc.applyTxnBatch batch
  | .gcVersions watermark => mvcc.gcVersions watermark

theorem SameFrom.apply (same : SameFrom bound left right) {changes : List Change}
    (small : ∀ watermark, .gcVersions watermark ∈ changes -> watermark ≤ bound) :
    SameFrom bound (changes.foldl Mvcc.apply left)
      ((changes.filterMap Change.batch).foldl Mvcc.applyTxnBatch right) := by
  induction changes generalizing left right with
  | nil => exact same
  | cons change _ ih =>
    have later := fun watermark member => small watermark (mem_cons_of_mem _ member)
    cases change with
    | applyTxnBatch batch => exact ih (same.applyTxnBatch batch) later
    | gcVersions watermark =>
      refine ih (fun key readLsn above => ?_) later
      exact (getAt_gcVersions ((small watermark mem_cons_self).trans above)).trans
        (same key readLsn above)

/-- No snapshot that is not below a watermark notices the passes. -/
theorem getAt_after_passes (mvcc : Mvcc) (changes : List Change) (key : Bytes) (readLsn : Nat)
    (above : ∀ watermark, .gcVersions watermark ∈ changes -> watermark ≤ readLsn) :
    (changes.foldl apply mvcc).getAt key readLsn =
      ((changes.filterMap Change.batch).foldl applyTxnBatch mvcc).getAt key readLsn := by
  have start : SameFrom readLsn mvcc mvcc := fun _ _ _ => rfl
  exact start.apply above key readLsn le_rfl

theorem getAt_after_passes_twoPasses :
    ([.applyTxnBatch (WalNode.txnBatch 1 [7] [1]), .applyTxnBatch (WalNode.txnBatch 3 [7] [2]),
        .gcVersions 5, .applyTxnBatch (WalNode.txnBatch 5 [7] [3]), .gcVersions 4].foldl apply
          ∅).getAt [7] 5 =
      ([WalNode.txnBatch 1 [7] [1], WalNode.txnBatch 3 [7] [2], WalNode.txnBatch 5 [7] [3]].foldl
        applyTxnBatch ∅).getAt [7] 5 :=
  getAt_after_passes ∅ _ [7] 5 (by simp)

theorem getAt_foldl_applyTxnBatch {batches : List WalBatch}
    (later : ∀ batch ∈ batches, readLsn < batch.endLsn) :
    (batches.foldl applyTxnBatch mvcc).getAt key readLsn = mvcc.getAt key readLsn := by
  induction batches generalizing mvcc with
  | nil => rfl
  | cons head tail ih =>
    have behind := later head mem_cons_self
    rw [foldl_cons, ih (fun batch member => later batch (mem_cons_of_mem _ member))]
    refine @applyTxnBatch_related mvcc mvcc
      (fun left _ => left.getAt key readLsn = mvcc.getAt key readLsn) head ?_ rfl
    intro left _ _ _ same
    rw [getAt_push, if_neg (fun both => Nat.not_le.mpr behind both.2), same]

end Mvcc

/-! ## The node -/

/-- A handle of `begin_mvcc_ro`, with the id of its guard until it is closed. -/
structure MvccReadHandle where
  readLsn : Nat
  guard : Option Nat
deriving DecidableEq

/-- Where the replay loop stands with a pass of the collection: it has taken in
enough batches, it has loaded `durable_lsn`, or it has computed the watermark. -/
inductive GcStage
  | idle
  | due
  | loaded (durable : Nat)
  | collecting (watermark : Nat)

/-- What reads and the collection share.  `requests` wait for the writer loop,
`channel` for the replay loop, and `starting` are the callers that have loaded
a snapshot and not registered it.  The handles are listed by the id under which
they were registered.  `uncollected` is read by no step: it takes in the same
batches as `mvcc` and is never collected. -/
structure MvccNode where
  durableLsn : Nat
  requests : List WalBatch
  channel : List WalBatch
  mvcc : Mvcc
  uncollected : Mvcc
  mvccGcEveryWalBatches : Nat
  gcBatchCounter : Nat
  gc : GcStage
  nextId : Nat
  activeReads : TreeMap Nat Nat
  starting : TreeMap Nat Nat
  handles : TreeMap Nat MvccReadHandle

inductive MvccAction
  | appendWalBatch (batch : WalBatch)
  | writeGroup (count : Nat)
  | writeFails (count : Nat)
  | receiveBatch
  | loadDurableLsn
  | minReadLsn
  | gcMvccVersions
  | loadReadLsn (caller : Nat)
  | register (caller : Nat)
  | close (id : Nat)

/-- No pass goes beyond the bound or has loaded more than `durable_lsn`. -/
def GcStage.Within (bound durableLsn : Nat) : GcStage -> Prop
  | .loaded durable => durable ≤ durableLsn
  | .collecting watermark => watermark ≤ bound
  | _ => True

theorem GcStage.Within.mono {bound lower higher : Nat} {stage : GcStage}
    (within : stage.Within bound lower) (grows : lower ≤ higher) : stage.Within bound higher := by
  cases stage with
  | loaded => exact Nat.le_trans within grows
  | collecting => exact within
  | _ => trivial

namespace MvccNode

/-- A node that has just been opened. -/
def opened (durableLsn : Nat) (mvcc : Mvcc) (mvccGcEveryWalBatches : Nat) : MvccNode :=
  { durableLsn := durableLsn
    requests := []
    channel := []
    mvcc := mvcc
    uncollected := mvcc
    mvccGcEveryWalBatches := mvccGcEveryWalBatches
    gcBatchCounter := 0
    gc := .idle
    nextId := 1
    activeReads := ∅
    starting := ∅
    handles := ∅ }

/-- `max_end_lsn` of the batches that are written together. -/
def maxEndLsn (batches : List WalBatch) : Nat :=
  batches.foldl (fun lsn batch => max lsn batch.endLsn) 0

/-- The watermark of a pass that has loaded `durable_lsn`. -/
def watermark (node : MvccNode) : Option Nat :=
  match node.gc with
  | .loaded durable =>
    some (min (((node.activeReads.toList.map Prod.snd).min?).getD durable) durable)
  | _ => none

/-- `is_active`. -/
def isActive (node : MvccNode) (handle : MvccReadHandle) : Bool :=
  handle.guard.any (fun id => node.activeReads.contains id)

/-- `mvcc_get`.  The clock belongs to the caller; a call that is timed out also
closes the handle, which is the step `close`. -/
def mvccGet (node : MvccNode) (handle : MvccReadHandle) (isTimedOut : Bool) (key : Bytes) :
    Except Error (Option Bytes) :=
  if isTimedOut then .error .txnTimeout
  else if !node.isActive handle then
    .error (.io .interrupted "mvcc read handle aborted or closed")
  else .ok ((node.mvcc.getAt key handle.readLsn).getD none)

/-- The snapshot of a caller is registered. -/
def registered (node : MvccNode) (caller readLsn : Nat) : MvccNode :=
  { node with
    nextId := node.nextId + 1
    activeReads := node.activeReads.insert node.nextId readLsn
    starting := node.starting.erase caller
    handles := node.handles.insert node.nextId ⟨readLsn, some node.nextId⟩ }

/-- One step.  The batches of a group are sent to the replay loop one by one
when their end has been stored; it takes them in at any later time. -/
def step (node : MvccNode) : MvccAction -> Option MvccNode
  | .appendWalBatch batch =>
    match validateIncomingWalBatch node.durableLsn batch with
    | .error _ => some node
    | .ok () => some { node with requests := node.requests ++ [batch] }
  | .writeGroup count =>
    if node.requests.take count = [] then none
    else
      some { node with
        durableLsn := maxEndLsn (node.requests.take count)
        requests := node.requests.drop count
        channel := node.channel ++ node.requests.take count }
  | .writeFails count => some { node with requests := node.requests.drop count }
  | .receiveBatch =>
    match node.gc, node.channel with
    | .idle, batch :: rest =>
      let received := { node with
        channel := rest
        mvcc := node.mvcc.applyTxnBatch batch
        uncollected := node.uncollected.applyTxnBatch batch }
      if node.mvccGcEveryWalBatches ≤ node.gcBatchCounter + 1 then
        some { received with gcBatchCounter := 0, gc := .due }
      else some { received with gcBatchCounter := node.gcBatchCounter + 1 }
    | _, _ => none
  | .loadDurableLsn =>
    match node.gc with
    | .due => some { node with gc := .loaded node.durableLsn }
    | _ => none
  | .minReadLsn => node.watermark.map (fun watermark => { node with gc := .collecting watermark })
  | .gcMvccVersions =>
    match node.gc with
    | .collecting watermark =>
      some { node with mvcc := node.mvcc.gcVersions watermark, gc := .idle }
    | _ => none
  | .loadReadLsn caller =>
    some { node with starting := node.starting.insert caller node.durableLsn }
  | .register caller =>
    node.starting[caller]?.map (node.registered caller)
  | .close id =>
    node.handles[id]?.map (fun handle =>
      { node with
        activeReads := handle.guard.elim node.activeReads node.activeReads.erase
        handles := node.handles.insert id { handle with guard := none } })

/-- What a run is asked for: no group lowers `durable_lsn`, and no watermark lies
above a snapshot that has been loaded and not registered. -/
def admits (node : MvccNode) : MvccAction -> Bool
  | .writeGroup count => node.durableLsn ≤ maxEndLsn (node.requests.take count)
  | .minReadLsn => node.watermark.all (fun watermark =>
      node.starting.toList.all (fun entry => watermark ≤ entry.2))
  | _ => true

/-! ## What no read tells from a node without collection -/

/-- Snapshots from the bound on, and those are all that are registered or will
be, read the same with and without collection. -/
structure Inv (bound : Nat) (node : MvccNode) : Prop where
  durable : bound ≤ node.durableLsn
  starting : ∀ (caller readLsn : Nat), node.starting[caller]? = some readLsn -> bound ≤ readLsn
  active : ∀ (id readLsn : Nat), node.activeReads[id]? = some readLsn ->
    bound ≤ readLsn ∧ id < node.nextId
  handles : ∀ (id : Nat) (handle : MvccReadHandle), node.handles[id]? = some handle ->
    ∀ guard, handle.guard = some guard -> guard < node.nextId ∧
      ∀ readLsn, node.activeReads[guard]? = some readLsn -> readLsn = handle.readLsn
  stage : node.gc.Within bound node.durableLsn
  same : node.mvcc.SameFrom bound node.uncollected

variable {bound : Nat} {node next : MvccNode} {action : MvccAction}

theorem Inv.opened (durableLsn : Nat) (mvcc : Mvcc) (mvccGcEveryWalBatches : Nat) :
    Inv 0 (opened durableLsn mvcc mvccGcEveryWalBatches) where
  durable := Nat.zero_le _
  starting := forall_empty
  active := forall_empty
  handles := forall_empty
  stage := trivial
  same := fun _ _ _ => rfl

section Kept

variable (inv : Inv bound node)

include inv

theorem Inv.unregister (id : Nat) :
    Inv bound { node with activeReads := node.activeReads.erase id } where
  durable := inv.durable
  starting := inv.starting
  active := forall_erase inv.active
  handles := fun other handle held guard guarded =>
    have ⟨known, agrees⟩ := inv.handles other handle held guard guarded
    ⟨known, fun readLsn lookup => agrees readLsn (lookup_erase_cases lookup).2⟩
  stage := inv.stage
  same := inv.same

theorem Inv.register {caller readLsn : Nat} (loaded : node.starting[caller]? = some readLsn) :
    Inv bound (node.registered caller readLsn) where
  durable := inv.durable
  starting := forall_erase inv.starting
  active := forall_insert ⟨inv.starting caller readLsn loaded, Nat.lt_succ_self _⟩
    (fun id found lookup => ⟨(inv.active id found lookup).1, Nat.lt_succ_of_lt (inv.active id found lookup).2⟩)
  handles := by
    refine forall_insert ?_ ?_
    · rintro _ ⟨⟩
      refine ⟨Nat.lt_succ_self _, fun found lookup => ?_⟩
      rw [registered, lookup_insert, if_pos rfl] at lookup
      cases lookup
      rfl
    · intro id handle held guard guarded
      rcases inv.handles id handle held guard guarded with ⟨known, agrees⟩
      refine ⟨Nat.lt_succ_of_lt known, fun found lookup => agrees found ?_⟩
      rw [registered, lookup_insert_of_ne _ _ (ne_of_gt known)] at lookup
      exact lookup
  stage := inv.stage
  same := inv.same

/-- The watermark becomes the bound, for it lies below every snapshot. -/
theorem Inv.minReadLsn {watermark : Nat} (computed : node.watermark = some watermark)
    (covered : ∀ (caller readLsn : Nat), node.starting[caller]? = some readLsn ->
      watermark ≤ readLsn) :
    Inv (max bound watermark) { node with gc := .collecting watermark } := by
  have loaded : ∃ durable, node.gc = .loaded durable ∧
      min (((node.activeReads.toList.map Prod.snd).min?).getD durable) durable = watermark := by
    unfold MvccNode.watermark at computed
    split at computed
    · next durable loaded => exact ⟨durable, loaded, some_inj.mp computed⟩
    · cases computed
  rcases loaded with ⟨durable, loaded, isLeast⟩
  have stage := inv.stage
  rw [loaded] at stage
  exact {
    durable := Nat.max_le.mpr ⟨inv.durable, isLeast ▸ Nat.le_trans (Nat.min_le_right _ _) stage⟩
    starting := fun caller readLsn lookup => Nat.max_le.mpr
      ⟨inv.starting caller readLsn lookup, covered caller readLsn lookup⟩
    active := fun id readLsn lookup => ⟨Nat.max_le.mpr ⟨(inv.active id readLsn lookup).1,
      isLeast ▸ Nat.le_trans (Nat.min_le_left _ _) (least_le lookup durable)⟩,
      (inv.active id readLsn lookup).2⟩
    handles := inv.handles
    stage := le_max_right _ _
    same := fun key readLsn above => inv.same key readLsn (Nat.le_trans (Nat.le_max_left _ _) above) }

end Kept

theorem Inv.step (inv : Inv bound node) (admitted : node.admits action = true)
    (taken : node.step action = some next) : ∃ bound, Inv bound next := by
  cases action with
  | appendWalBatch =>
    rw [MvccNode.step] at taken
    split at taken
    · cases taken
      exact ⟨bound, inv⟩
    · cases taken
      exact ⟨bound, { inv with }⟩
  | writeGroup =>
    have grows := of_decide_eq_true admitted
    rw [MvccNode.step] at taken
    split at taken
    · cases taken
    · cases taken
      exact ⟨bound, { inv with
        durable := Nat.le_trans inv.durable grows
        stage := inv.stage.mono grows }⟩
  | writeFails =>
    cases taken
    exact ⟨bound, { inv with }⟩
  | receiveBatch =>
    rw [MvccNode.step] at taken
    split at taken
    · next batch _ _ _ =>
      have same := inv.same.applyTxnBatch batch
      split at taken
      · cases taken
        exact ⟨bound, { inv with stage := trivial, same := same }⟩
      · cases taken
        exact ⟨bound, { inv with same := same }⟩
    · cases taken
  | loadDurableLsn =>
    rw [MvccNode.step] at taken
    split at taken
    · cases taken
      exact ⟨bound, { inv with stage := Nat.le_refl node.durableLsn }⟩
    · cases taken
  | minReadLsn =>
    rcases map_eq_some_iff.mp taken with ⟨_, computed, rfl⟩
    rw [admits, computed] at admitted
    refine ⟨_, inv.minReadLsn computed ?_⟩
    intro caller readLsn lookup
    exact of_decide_eq_true (all_eq_true.mp admitted (caller, readLsn)
      (TreeMap.mem_toList_iff_getElem?_eq_some.mpr lookup))
  | gcMvccVersions =>
    rw [MvccNode.step] at taken
    split at taken
    · next _ collecting =>
      cases taken
      have low := inv.stage
      rw [collecting] at low
      refine ⟨bound, { inv with stage := trivial, same := ?_ }⟩
      intro key readLsn above
      exact (Mvcc.getAt_gcVersions (Nat.le_trans low above)).trans (inv.same key readLsn above)
    · cases taken
  | loadReadLsn =>
    cases taken
    exact ⟨bound, { inv with starting := forall_insert inv.durable inv.starting }⟩
  | register =>
    rcases map_eq_some_iff.mp taken with ⟨_, loaded, rfl⟩
    exact ⟨bound, inv.register loaded⟩
  | close =>
    rcases map_eq_some_iff.mp taken with ⟨handle, _, rfl⟩
    have kept : Inv bound { node with
        activeReads := handle.guard.elim node.activeReads node.activeReads.erase } := by
      cases handle.guard with
      | none => exact inv
      | some guard => exact inv.unregister guard
    exact ⟨bound, { kept with handles := forall_insert nofun kept.handles }⟩

/-- The map that all durable batches make when nothing is ever collected. -/
def history (node : MvccNode) : Mvcc := node.channel.foldl Mvcc.applyTxnBatch node.uncollected

/-- Whatever the interleaving, a handle reads what it would read if no pass had
ever run; and when the batches up to its snapshot have been taken in, this is
what the whole history has for the snapshot. -/
theorem mvccGet_eq_uncollected {durableLsn mvccGcEveryWalBatches : Nat} {mvcc : Mvcc} {node : MvccNode}
    (reached : Reaches step (fun node action => node.admits action = true)
      (opened durableLsn mvcc mvccGcEveryWalBatches) node)
    {id : Nat} {handle : MvccReadHandle} (held : node.handles[id]? = some handle)
    (isTimedOut : Bool) (key : Bytes) :
    node.mvccGet handle isTimedOut key =
        { node with mvcc := node.uncollected }.mvccGet handle isTimedOut key ∧
      ((∀ batch ∈ node.channel, handle.readLsn < batch.endLsn) ->
        node.mvccGet handle isTimedOut key =
          { node with mvcc := node.history }.mvccGet handle isTimedOut key) := by
  obtain ⟨_, inv⟩ : ∃ bound, Inv bound node :=
    @Reaches.invariant _ _ _ _ _ _ (fun node => ∃ bound, Inv bound node)
      ⟨0, Inv.opened durableLsn mvcc mvccGcEveryWalBatches⟩
      (fun _ _ _ kept admitted taken => kept.elim (fun _ inv => inv.step admitted taken)) reached
  have same : node.mvccGet handle isTimedOut key =
      { node with mvcc := node.uncollected }.mvccGet handle isTimedOut key := by
    unfold mvccGet isActive
    cases guarded : handle.guard with
    | none => rfl
    | some guard =>
      cases lookup : node.activeReads[guard]? with
      | none => simp only [any_some, TreeMap.contains_eq_isSome_getElem?, lookup,
          isSome_none, Bool.not_false, if_true]
      | some readLsn =>
        have isOwn := (inv.handles id handle held guard guarded).2 readLsn lookup
        rw [inv.same key handle.readLsn (isOwn ▸ (inv.active guard readLsn lookup).1)]
  refine ⟨same, fun later => same.trans ?_⟩
  unfold mvccGet history
  rw [Mvcc.getAt_foldl_applyTxnBatch later]
  rfl

/-- A snapshot of the first of two transactions, registered before the pass that
the second one makes due. -/
theorem mvccGet_eq_uncollected_twoTxns : ∃ node : MvccNode,
    Reaches step (fun node action => node.admits action = true) (opened 1 ∅ 2) node ∧
      node.mvccGet ⟨3, some 1⟩ false [7] = .ok (some [1]) ∧
      { node with mvcc := node.history }.mvccGet ⟨3, some 1⟩ false [7] = .ok (some [1]) := by
  have passed : (runGuarded step (fun node action => node.admits action = true) (opened 1 ∅ 2)
      [.appendWalBatch (WalNode.txnBatch 1 [7] [1]), .writeGroup 1, .receiveBatch, .loadReadLsn 0,
        .register 0, .appendWalBatch (WalNode.txnBatch 3 [7] [2]), .writeGroup 1, .receiveBatch,
        .loadDurableLsn, .minReadLsn, .gcMvccVersions]).any (fun node =>
      node.handles[1]? = some ⟨3, some 1⟩ ∧ node.channel.isEmpty ∧
        node.mvccGet ⟨3, some 1⟩ false [7] = .ok (some [1])) = true := by decide +kernel
  rcases exists_reaches_of_decide passed with ⟨node, reached, held, empty, found⟩
  have later : ∀ batch ∈ node.channel, 3 < batch.endLsn := by
    rw [isEmpty_iff.mp empty]
    exact forall_mem_nil _
  exact ⟨node, reached, found, ((mvccGet_eq_uncollected reached held false [7]).2 later).symm.trans found⟩

/-- The same calls, and the snapshot is registered behind the pass: the handle
finds nothing, though every batch has been taken in. -/
theorem not_mvccGet_eq_uncollected : ∃ node : MvccNode,
    Reaches step anyStep (opened 1 ∅ 2) node ∧ node.handles[1]? = some ⟨3, some 1⟩ ∧
      node.channel.isEmpty ∧ node.mvccGet ⟨3, some 1⟩ false [7] = .ok none ∧
      { node with mvcc := node.uncollected }.mvccGet ⟨3, some 1⟩ false [7] = .ok (some [1]) ∧
      { node with mvcc := node.history }.mvccGet ⟨3, some 1⟩ false [7] = .ok (some [1]) := by
  exact exists_reaches_of_decide (by decide +kernel : (runGuarded step anyStep (opened 1 ∅ 2)
    [.appendWalBatch (WalNode.txnBatch 1 [7] [1]), .writeGroup 1, .receiveBatch, .loadReadLsn 0,
      .appendWalBatch (WalNode.txnBatch 3 [7] [2]), .writeGroup 1, .receiveBatch,
      .loadDurableLsn, .minReadLsn, .gcMvccVersions, .register 0]).any _ = true)

/-! ## The version map of a node at work -/

/-- The batch that the writer loop has taken and not yet made durable. -/
def requested : WriterStage -> List WalBatch
  | .appended batch => [batch]
  | .synced batch => [batch]
  | _ => []

/-- The batch that is durable and not yet handed over. -/
def durable : WriterStage -> List WalBatch
  | .published batch => [batch]
  | _ => []

/-- What reads and the collection see of a node at work. -/
def ofWalNode (mvccGcEveryWalBatches : Nat) (node : WalNode) : MvccNode :=
  { opened node.durableLsn node.mvcc mvccGcEveryWalBatches with
    requests := requested node.writer
    channel := node.channel ++ durable node.writer
    gcBatchCounter := node.received.length }

/-- No pass is due yet. -/
def beforeGc (mvccGcEveryWalBatches : Nat) (node : WalNode) (action : WalNodeAction) : Prop :=
  node.received.length + 1 < mvccGcEveryWalBatches ∧ ∀ minReadLsn, action ≠ .gcMvcc minReadLsn

/-- Up to the first pass the two models of a node agree. -/
theorem ofWalNode_reaches {every : Nat} {start node : WalNode}
    (reached : Reaches WalNode.step (beforeGc every) start node) :
    Reaches step anyStep (ofWalNode every start) (ofWalNode every node) := by
  refine reached.project ?_
  rintro node action next ⟨few, noPass⟩ taken
  have rotated : ofWalNode every node.rotateIfNeeded = ofWalNode every node := by
    rcases node.rotateIfNeeded_eq with ⟨_, _, _, shape, _⟩
    rw [shape]
    rfl
  cases WalNode.moves_of_step taken with
  | rotates =>
    rw [rotated]
    exact .refl
  | @appends _ batch ready valid =>
    refine .single trivial (show step _ (.appendWalBatch batch) = _ from ?_)
    have accepted : validateIncomingWalBatch (ofWalNode every node).durableLsn batch = .ok () := valid
    rcases node.rotateIfNeeded_eq with ⟨_, _, _, shape, _⟩
    rw [shape, step, accepted]
    unfold ofWalNode
    rw [WalNode.writer_of_ready ready]
    rfl
  | @appendFails _ inFile =>
    rw [← rotated]
    cases inFile <;> exact .refl
  | flushes writer =>
    unfold ofWalNode WalNode.flushed WalNode.addFrame
    rw [writer]
    exact .refl
  | @flushFails _ inFile writer =>
    refine .single trivial (show step _ (.writeFails 1) = _ from ?_)
    unfold ofWalNode
    rw [writer]
    cases inFile <;> rfl
  | publishes writer =>
    refine .single trivial (show step _ (.writeGroup 1) = _ from ?_)
    unfold ofWalNode
    rw [writer]
    simp [step, requested, durable, maxEndLsn, opened]
  | handsOver writer =>
    unfold ofWalNode
    rw [writer, List.append_assoc]
    exact .refl
  | receives loop channel =>
    refine .single trivial (show step _ .receiveBatch = _ from ?_)
    unfold ofWalNode
    rw [channel, List.length_append]
    exact if_neg (Nat.not_le.mpr few)
  | collects => exact absurd rfl (noPass _)
  | _ => exact .refl

end MvccNode

end Storage
end ScaleKv
