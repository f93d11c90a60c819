import ScaleKv.Compute.ComputeNodeSteps
import ScaleKv.Foundation.Tiling

namespace ScaleKv
namespace Compute
namespace ComputeNode

open Foundation List Option OrderedMap

variable {Value : Type} {node next : ComputeNode Value} {id : TxnId} {handle : Handle Value}

/-!
# Reserved ranges

The ranges that have been reserved and not dispatched lead from the dispatch LSN
to the next LSN.  This holds in every run, since a commit that gives up leaves
its range behind.  If no commit gives up between its reservation and its
dispatch, every such range belongs to a call in progress.
-/

/-- The range that the commit of the handle has reserved. -/
def reservation (handle : Handle Value) (id : TxnId) : Option Reservation :=
  match handle.stage with
  | .stamping _ startLsn endLsn _ _ => some ⟨some id, startLsn, endLsn⟩
  | _ => none

def reservationOf (node : ComputeNode Value) (id : TxnId) : Option Reservation :=
  node.handles[id]?.bind (fun handle => reservation handle id)

variable {range : Reservation} {action : Action Value} {left : Option (Handle Value)}
  {base : CommitBase Value} {undo : UndoLog Value} {run : GcRun Value}

theorem reservation_holder (reserved : reservation handle id = some range) :
    range.holder = some id := by
  unfold reservation at reserved
  split at reserved
  · cases reserved
    rfl
  · cases reserved

theorem reservationOf_holder (reserved : node.reservationOf id = some range) :
    range.holder = some id := by
  rcases bind_eq_some_iff.mp reserved with ⟨_, _, isRange⟩
  exact reservation_holder isRange

theorem reservationOf_of_stage {startLsn endLsn : Nat}
    {held : Option (Row Value)} {rest : List Key} (present : node.handles[id]? = some handle)
    (stage : handle.stage = .stamping base startLsn endLsn held rest) :
    node.reservationOf id = some ⟨some id, startLsn, endLsn⟩ := by
  unfold reservationOf
  rw [present, bind_some]
  unfold reservation
  rw [stage]

theorem reservationOf_insert {after : Handle Value}
    (handles : next.handles = node.handles.insert id after) (other : TxnId) :
    next.reservationOf other =
      if id = other then reservation after id else node.reservationOf other := by
  unfold reservationOf
  rw [handles, lookup_insert]
  by_cases same : id = other
  · rw [if_pos same, if_pos same, bind_some, same]
  · rw [if_neg same, if_neg same]

/-! ## In every run -/

/-- The reserved ranges, and whose they are. -/
structure RangesOk (node : ComputeNode Value) : Prop where
  tiles : Tiles Reservation.startLsn Reservation.endLsn node.sequencer.dispatchLsn node.reserved
    node.sequencer.nextLsn
  commits : ∀ id range, node.reservationOf id = some range -> range ∈ node.reserved
  purge : ∀ range, node.purge = some range ->
    range.holder = none ∧ range ∈ node.reserved ∧ range ∉ node.batches
  distinct : node.batches.Nodup
  batches : ∀ range ∈ node.batches, range.holder = none ∧ range ∈ node.reserved

namespace RangesOk

theorem keeps (inv : RangesOk node) (nextLsn : next.sequencer.nextLsn = node.sequencer.nextLsn)
    (dispatchLsn : next.sequencer.dispatchLsn = node.sequencer.dispatchLsn)
    (reserved : next.reserved = node.reserved) (batches : next.batches = node.batches)
    (purge : next.purge = none ∨ next.purge = node.purge)
    (commits : ∀ id range, next.reservationOf id = some range ->
      node.reservationOf id = some range) : RangesOk next where
  tiles := by
    rw [nextLsn, dispatchLsn, reserved]
    exact inv.tiles
  commits id range isRange := by
    rw [reserved]
    exact inv.commits id range (commits id range isRange)
  purge range isRange := by
    rw [reserved, batches]
    rcases purge with none_ | same
    · rw [none_] at isRange
      cases isRange
    · exact inv.purge range (same ▸ isRange)
  distinct := batches ▸ inv.distinct
  batches range member := by
    rw [reserved]
    exact inv.batches range (batches ▸ member)

variable {after : Handle Value} {sequencer : Sequencer} {range : Reservation} {shipped : Bool}

section

variable (inv : RangesOk node)

include inv

/-- A step that replaces one handle, which has no range afterwards or the one that
it had. -/
theorem replaces (present : node.handles[id]? = some handle)
    (handles : next.handles = node.handles.insert id after)
    (range : reservation after id = none ∨ reservation after id = reservation handle id)
    (sequencer : next.sequencer = node.sequencer) (reserved : next.reserved = node.reserved)
    (batches : next.batches = node.batches) (purge : next.purge = none ∨ next.purge = node.purge) :
    RangesOk next := by
  refine inv.keeps (by rw [sequencer]) (by rw [sequencer]) reserved batches purge ?_
  intro _ _ isRange
  rw [reservationOf_insert handles] at isRange
  split at isRange
  · next same =>
    subst same
    rcases range with none_ | kept
    · rw [none_] at isRange
      cases isRange
    · unfold reservationOf
      rw [present, bind_some, ← kept]
      exact isRange
  · exact isRange

theorem fresh (reserves : Reserves node.sequencer sequencer range) :
    range ∉ node.reserved := by
  intro member
  have below := (inv.tiles.bounds member).2
  have start := reserves.start
  omega

theorem reservesNext (reserves : Reserves node.sequencer sequencer range) :
    Tiles Reservation.startLsn Reservation.endLsn sequencer.dispatchLsn (node.reserved ++ [range])
      sequencer.nextLsn := by
  rw [reserves.dispatchLsn, reserves.nextLsn]
  exact inv.tiles.snoc reserves.start (reserves.start ▸ reserves.proper)

theorem dispatches
    (member : range ∈ node.reserved) (turn : node.sequencer.dispatchLsn = range.startLsn)
    (sequencer : next.sequencer = dispatched node.sequencer range.endLsn shipped)
    (reserved : next.reserved = node.reserved.tail)
    (commits : ∀ id other, next.reservationOf id = some other ->
      node.reservationOf id = some other ∧ range.holder ≠ some id)
    (purge : ∀ other, next.purge = some other -> node.purge = some other ∧ other ≠ range)
    (distinct : next.batches.Nodup)
    (batches : ∀ other ∈ next.batches, other ∈ node.batches ∧ other ≠ range) :
    RangesOk next := by
  rcases inv.tiles.givesBack member turn.symm with ⟨tiles, stays⟩
  rw [← reserved] at tiles stays
  have remains : ∀ other ∈ node.reserved, other ≠ range -> other ∈ next.reserved :=
    fun other inside different => (stays other).mpr ⟨inside, different⟩
  constructor
  · rw [sequencer]
    exact tiles
  · intro id other isRange
    rcases commits id other isRange with ⟨before, different⟩
    exact remains other (inv.commits id other before)
      (fun same => different (same ▸ reservationOf_holder before))
  · intro other isRange
    rcases purge other isRange with ⟨before, different⟩
    rcases inv.purge other before with ⟨holder, inside, outside⟩
    exact ⟨holder, remains other inside different, fun inBatches => outside (batches other inBatches).1⟩
  · exact distinct
  · intro other inBatches
    rcases batches other inBatches with ⟨before, different⟩
    rcases inv.batches other before with ⟨holder, inside⟩
    exact ⟨holder, remains other inside different⟩

theorem commitDispatches {startLsn endLsn : Nat} (present : node.handles[id]? = some handle)
    (stage : handle.stage = .stamping base startLsn endLsn none [])
    (turn : node.sequencer.dispatchLsn = startLsn)
    (handles : next.handles = node.handles.insert id after) (given : reservation after id = none)
    (sequencer : next.sequencer = dispatched node.sequencer endLsn shipped)
    (reserved : next.reserved = node.reserved.tail) (purge : next.purge = node.purge)
    (batches : next.batches = node.batches) : RangesOk next := by
  have own := reservationOf_of_stage present stage
  refine @dispatches Value node next ⟨some id, startLsn, endLsn⟩ shipped inv (inv.commits id _ own) turn
    sequencer reserved ?_ ?_ (batches ▸ inv.distinct) ?_
  · intro _ _ isRange
    rw [reservationOf_insert handles] at isRange
    split at isRange
    · rw [given] at isRange
      cases isRange
    · next different => exact ⟨isRange, fun same => different (some_inj.mp same)⟩
  · intro _ isRange
    rw [purge] at isRange
    refine ⟨isRange, ?_⟩
    rintro rfl
    cases (inv.purge _ isRange).1
  · intro _ member
    rw [batches] at member
    refine ⟨member, ?_⟩
    rintro rfl
    cases (inv.batches _ member).1

theorem returns
    (idle : ∀ handle, left = some handle -> node.handles[run.txnId]? = some handle) :
    RangesOk (node.gcReturn run.txnId left) := by
  cases left with
  | none =>
    exact inv.keeps rfl rfl rfl rfl (.inl rfl) (fun _ _ isRange => isRange)
  | some handle =>
    exact inv.replaces (idle handle rfl) rfl (.inl rfl) rfl rfl rfl (.inl rfl)

theorem purgeDispatches
    (purge : node.purge = some range) (turn : node.sequencer.dispatchLsn = range.startLsn) :
    RangesOk { node with
      sequencer := dispatched node.sequencer range.endLsn shipped
      reserved := node.reserved.tail
      undo := undo
      purge := none } := by
  rcases inv.purge range purge with ⟨holder, member, outside⟩
  refine inv.dispatches member turn rfl rfl ?_ ?_ inv.distinct ?_
  · intro _ _ isRange
    rw [holder]
    exact ⟨isRange, nofun⟩
  · nofun
  · intro _ inBatches
    refine ⟨inBatches, ?_⟩
    rintro rfl
    exact outside inBatches

omit inv in
theorem created (sequencer : Sequencer) (defaultTimeout : Nat)
    (dispatched : sequencer.dispatchLsn = sequencer.nextLsn) :
    RangesOk (ComputeNode.created sequencer defaultTimeout : ComputeNode Value) := by
  refine ⟨dispatched, ?_, ?_, nodup_nil, ?_⟩
  · intro _ _ isRange
    rcases bind_eq_some_iff.mp isRange with ⟨_, present, _⟩
    cases present.symm.trans Std.TreeMap.getElem?_emptyc
  · nofun
  · nofun

theorem step (taken : node.step action = some next) :
    RangesOk next := by
  cases moves_of_step taken with
  | ticks | reapStarts | reapTakes | reapStands | reapSkips | reapRestores | reapFails | reapRemoves | gcRemoves
  | gcUpdates | gcFails =>
    exact inv.keeps rfl rfl rfl rfl (.inr rfl) (fun _ _ isRange => isRange)
  | begins _ _ | gcStarts _ _ _ =>
    refine inv.keeps rfl rfl rfl rfl (.inr rfl) ?_
    intro other range isRange
    rw [reservationOf_insert rfl] at isRange
    split at isRange
    · cases isRange
    · exact isRange
  | @reads _ _ _ _ _ result present =>
    refine inv.replaces present rfl (.inr ?_) rfl rfl rfl (.inr rfl)
    cases result <;> rfl
  | idles _ present | writes _ present =>
    exact inv.replaces present rfl (.inl rfl) rfl rfl rfl (.inr rfl)
  | inserts present | records present | commits present | prestampReads present | prestamps present
  | aborts present | resolveStands present | resolveSkips present | restores present | resolveFails present
  | resolveEnds present | finishes present =>
    exact inv.replaces present rfl (.inl rfl) rfl rfl rfl (.inr rfl)
  | quits quitting =>
    cases quitting with
    | dropped present | closed present | unstarted present | unstamped present | lost present
    | unsealed present | rejected present =>
      exact inv.replaces present rfl (.inl rfl) rfl rfl rfl (.inr rfl)
  | @reserves id _ _ _ _ range _ _ holder reserves =>
    refine ⟨inv.reservesNext reserves, ?_, ?_, inv.distinct, ?_⟩
    · intro other found isRange
      rw [reservationOf_insert rfl] at isRange
      split at isRange
      · next _ =>
        have isOwn : found = range := by
          have built : some (⟨some id, range.startLsn, range.endLsn⟩ : Reservation) = some found :=
            isRange
          rw [← holder] at built
          exact (some_inj.mp built).symm
        rw [isOwn]
        exact mem_concat_self
      · exact mem_append_left _ (inv.commits other found isRange)
    · intro other isRange
      rcases inv.purge other isRange with ⟨isHolder, member, notBatch⟩
      exact ⟨isHolder, mem_append_left _ member, notBatch⟩
    · intro other member
      rcases inv.batches other member with ⟨isHolder, inside⟩
      exact ⟨isHolder, mem_append_left _ inside⟩
  | stampReads present stage | stampSkips present stage | stamps present stage =>
    refine inv.replaces present rfl (.inr ?_) rfl rfl rfl (.inr rfl)
    unfold reservation
    rw [stage]
  | misses present stage _ _ turn | ships present stage _ _ turn =>
    exact inv.commitDispatches present stage turn rfl rfl rfl rfl rfl rfl
  | gcRefused ready _ refused =>
    have middle : RangesOk { node with sequencer := _ } :=
      inv.keeps refused.1 refused.2.2 rfl rfl (.inr rfl) (fun _ _ isRange => isRange)
    exact middle.returns (fun handle isLeft => ((gcReady_eq_some ready).2 handle isLeft).1)
  | gcReserves _ _ holder reserves =>
    have outside := inv.fresh reserves
    refine ⟨inv.reservesNext reserves, ?_, ?_, inv.distinct, ?_⟩
    · exact fun other found isRange => mem_append_left _ (inv.commits other found isRange)
    · intro other isRange
      cases isRange
      refine ⟨holder, mem_concat_self, ?_⟩
      exact fun inBatches => outside (inv.batches _ inBatches).2
    · intro other member
      rcases inv.batches other member with ⟨isHolder, inside⟩
      exact ⟨isHolder, mem_append_left _ inside⟩
  | gcReturns ready =>
    exact inv.returns (fun handle isLeft => ((gcReady_eq_some ready).2 handle isLeft).1)
  | gcPurges ready purge turn | gcMisses ready purge turn =>
    exact (inv.purgeDispatches purge turn).returns
      (fun handle isLeft => ((gcReady_eq_some ready).2 handle isLeft).1)
  | directRefused refused =>
    exact inv.keeps refused.1 refused.2.2 rfl rfl (.inr rfl) (fun _ _ isRange => isRange)
  | directReserves holder reserves =>
    have outside := inv.fresh reserves
    refine ⟨inv.reservesNext reserves, ?_, ?_, ?_, ?_⟩
    · exact fun other found isRange => mem_append_left _ (inv.commits other found isRange)
    · intro other isRange
      rcases inv.purge other isRange with ⟨isHolder, member, notBatch⟩
      refine ⟨isHolder, mem_append_left _ member, ?_⟩
      intro inBatches
      rcases mem_append.mp inBatches with before | isNew
      · exact notBatch before
      · rw [mem_singleton.mp isNew] at member
        exact outside member
    · refine nodup_append.mpr ⟨inv.distinct, nodup_singleton _, ?_⟩
      intro other inBatches _ isNew
      rw [mem_singleton] at isNew
      rintro rfl
      exact outside (isNew ▸ (inv.batches other inBatches).2)
    · intro other member
      rcases mem_append.mp member with before | isNew
      · rcases inv.batches other before with ⟨isHolder, inside⟩
        exact ⟨isHolder, mem_append_left _ inside⟩
      · rw [mem_singleton.mp isNew]
        exact ⟨holder, mem_concat_self⟩
  | directShips member turn =>
    rcases inv.batches _ member with ⟨holder, inside⟩
    refine inv.dispatches inside turn.symm rfl rfl ?_ ?_ (inv.distinct.erase _) ?_
    · intro _ _ isRange
      rw [holder]
      exact ⟨isRange, nofun⟩
    · intro other isRange
      refine ⟨isRange, ?_⟩
      rintro rfl
      exact (inv.purge _ isRange).2.2 member
    · intro other inErased
      exact ⟨mem_of_mem_erase inErased, (inv.distinct.mem_erase_iff.mp inErased).1⟩

end

end RangesOk

/-! ## If no commit gives up its range -/

/-- The row that the second pass of the commit comes to is its own intent, or
there is none. -/
def stampFindsIntent (node : ComputeNode Value) (id : TxnId) : Bool :=
  match node.handles[id]?.map Handle.stage with
  | some (.stamping _ _ _ none (key :: _)) => node.tree[key]?.all (fun row => row.ownedBy id)
  | _ => true

/-- The undo pages of the commit decode, and its pages have the right size. -/
def pagesFit (node : ComputeNode Value) (id : TxnId) : Bool :=
  match node.handles[id]? with
  | none => true
  | some handle =>
    match handle.stage with
    | .stamping base startLsn endLsn none [] =>
      !oddPage handle &&
        (match node.undo.commitFrom id base startLsn endLsn with
        | some (.error _) => false
        | _ => true)
    | _ => true

/-- No commit returns an error between its reservation and its dispatch. -/
def commitsDispatch (node : ComputeNode Value) : Action Value -> Prop
  | .stampGet id => node.stampFindsIntent id = true
  | .ship id outcome => outcome ≠ .rejected ∧ node.pagesFit id = true
  | _ => True

instance commitsDispatchDecidable (node : ComputeNode Value) (action : Action Value) :
    Decidable (commitsDispatch node action) := by
  unfold commitsDispatch
  induction action using Action.casesOn <;> infer_instance

/-- A call in progress has reserved the range. -/
def Claimed (node : ComputeNode Value) (range : Reservation) : Prop :=
  (∃ id, node.reservationOf id = some range) ∨ node.purge = some range ∨ range ∈ node.batches

theorem pagesFit_of_stage {startLsn endLsn : Nat} (present : node.handles[id]? = some handle)
    (stage : handle.stage = .stamping base startLsn endLsn none []) (fit : node.pagesFit id = true) :
    oddPage handle = false ∧
      ∀ error, node.undo.commitFrom id base startLsn endLsn ≠ some (.error error) := by
  unfold pagesFit at fit
  rw [present] at fit
  dsimp only at fit
  rw [stage] at fit
  rcases Bool.and_eq_true_iff.mp fit with ⟨even, decodes⟩
  refine ⟨(Bool.not_eq_true' _).mp even, ?_⟩
  intro error broken
  rw [broken] at decodes
  cases decodes

/-- A commit that ends without a dispatch has not reserved anything. -/
theorem Quits.unreserved {outcome : Outcome}
    (quits : Quits node action id handle outcome) (admitted : commitsDispatch node action) :
    node.handles[id]? = some handle ∧ reservation handle id = none := by
  cases quits with
  | dropped present stage | closed present stage | unstarted present stage | unstamped present stage =>
    refine ⟨present, ?_⟩
    unfold reservation
    rw [stage]
  | lost present stage found foreign =>
    exfalso
    have finds : node.stampFindsIntent id = true := admitted
    unfold stampFindsIntent at finds
    rw [present, map_some, stage] at finds
    dsimp only at finds
    rw [found, all_some, foreign] at finds
    cases finds
  | unsealed present stage broken =>
    exact absurd broken ((pagesFit_of_stage present stage admitted.2).2 _)
  | rejected present stage refused =>
    rcases refused with given | odd
    · exact absurd given admitted.1
    · exact absurd odd (Bool.eq_false_iff.mp (pagesFit_of_stage present stage admitted.2).1)

/-- Every undispatched range belongs to a call in progress. -/
def AllClaimed (node : ComputeNode Value) : Prop :=
  ∀ range ∈ node.reserved, node.Claimed range

namespace AllClaimed

theorem keeps (inv : AllClaimed node) (reserved : next.reserved = node.reserved)
    (commits : ∀ id range, node.reservationOf id = some range ->
      next.reservationOf id = some range)
    (purge : next.purge = node.purge) (batches : next.batches = node.batches) : AllClaimed next := by
  intro range member
  rcases inv range (reserved ▸ member) with ⟨id, isRange⟩ | isRange | inBatches
  · exact .inl ⟨id, commits id range isRange⟩
  · exact .inr (.inl (purge ▸ isRange))
  · exact .inr (.inr (batches ▸ inBatches))

variable {after : Handle Value} {range : Reservation}

section

variable (inv : AllClaimed node)

include inv

theorem replaces (present : node.handles[id]? = some handle)
    (handles : next.handles = node.handles.insert id after)
    (range : reservation after id = reservation handle id)
    (reserved : next.reserved = node.reserved) (purge : next.purge = node.purge)
    (batches : next.batches = node.batches) : AllClaimed next := by
  refine inv.keeps reserved ?_ purge batches
  intro _ _ isRange
  rw [reservationOf_insert handles]
  split
  · next same =>
    subst same
    unfold reservationOf at isRange
    rw [present, bind_some] at isRange
    rw [range]
    exact isRange
  · exact isRange

theorem returns (unreserved : node.purge = none)
    (idle : ∀ handle, left = some handle -> node.handles[run.txnId]? = some handle ∧
      handle.stage = .active) : AllClaimed (node.gcReturn run.txnId left) := by
  cases left with
  | none => exact inv.keeps rfl (fun _ _ isRange => isRange) unreserved.symm rfl
  | some handle =>
    rcases idle handle rfl with ⟨present, active⟩
    refine inv.replaces present rfl ?_ rfl unreserved.symm rfl
    unfold reservation
    rw [active]

theorem dispatches {range : Reservation} (ranges : RangesOk node)
    (member : range ∈ node.reserved) (turn : node.sequencer.dispatchLsn = range.startLsn)
    (reserved : next.reserved = node.reserved.tail)
    (claims : ∀ other, other ≠ range -> node.Claimed other -> next.Claimed other) :
    AllClaimed next := by
  intro other inside
  rw [reserved] at inside
  rcases ((ranges.tiles.givesBack member turn.symm).2 other).mp inside with ⟨before, different⟩
  exact claims other different (inv other before)

omit inv in
theorem claims_of_commit {other : Reservation}
    (handles : next.handles = node.handles.insert id after)
    (own : node.reservationOf id = some range) (purge : next.purge = node.purge)
    (batches : next.batches = node.batches) (different : other ≠ range)
    (claimed : node.Claimed other) : next.Claimed other := by
  rcases claimed with ⟨holder, isRange⟩ | isRange | inBatches
  · refine .inl ⟨holder, ?_⟩
    rw [reservationOf_insert handles]
    split
    · next same =>
      subst same
      exact absurd (some_inj.mp (isRange.symm.trans own)) different
    · exact isRange
  · exact .inr (.inl (purge ▸ isRange))
  · exact .inr (.inr (batches ▸ inBatches))

theorem purgeDispatches {shipped : Bool} (ranges : RangesOk node) (purge : node.purge = some range)
    (turn : node.sequencer.dispatchLsn = range.startLsn) :
    AllClaimed { node with
      sequencer := dispatched node.sequencer range.endLsn shipped
      reserved := node.reserved.tail
      undo := undo
      purge := none } := by
  refine inv.dispatches ranges (ranges.purge range purge).2.1 turn rfl ?_
  intro _ different claimed
  rcases claimed with ⟨holder, isRange⟩ | isRange | inBatches
  · exact .inl ⟨holder, isRange⟩
  · rw [purge] at isRange
    exact absurd (some_inj.mp isRange).symm different
  · exact .inr (.inr inBatches)

theorem step (ranges : RangesOk node)
    (admitted : commitsDispatch node action) (taken : node.step action = some next) :
    AllClaimed next := by
  cases moves_of_step taken with
  | ticks | reapStarts | reapTakes | reapStands | reapSkips | reapRestores | reapFails | reapRemoves | gcRemoves
  | gcUpdates | gcFails | directRefused =>
    exact inv.keeps rfl (fun _ _ isRange => isRange) rfl rfl
  | begins fresh _ | gcStarts _ fresh _ =>
    refine inv.keeps rfl ?_ rfl rfl
    intro other range isRange
    rw [reservationOf_insert rfl]
    split
    · next same =>
      subst same
      unfold reservationOf at isRange
      rw [fresh] at isRange
      cases isRange
    · exact isRange
  | @reads _ _ _ _ _ result present =>
    refine inv.replaces present rfl ?_ rfl rfl rfl
    cases result <;> rfl
  | idles _ present stage =>
    refine inv.replaces present rfl ?_ rfl rfl rfl
    unfold reservation
    rw [stage]
  | writes _ present stage | inserts present stage | records present stage | commits present stage
  | prestampReads present stage | prestamps present stage | aborts present stage
  | resolveStands present stage | resolveSkips present stage | restores present stage
  | resolveFails present stage
  | resolveEnds present stage | finishes present stage | stampReads present stage
  | stampSkips present stage | stamps present stage =>
    refine inv.replaces present rfl ?_ rfl rfl rfl
    unfold reservation
    rw [stage]
  | quits quitting =>
    rcases quitting.unreserved admitted with ⟨present, unreserved⟩
    exact inv.replaces present rfl unreserved.symm rfl rfl rfl
  | @reserves id _ _ _ _ range present stage holder =>
    intro other inside
    rcases mem_append.mp inside with before | isNew
    · rcases inv other before with ⟨committer, isRange⟩ | others
      · refine .inl ⟨committer, ?_⟩
        rw [reservationOf_insert rfl]
        split
        · next same =>
          subst same
          unfold reservationOf at isRange
          rw [present, bind_some] at isRange
          unfold reservation at isRange
          rw [stage] at isRange
          cases isRange
        · exact isRange
      · exact .inr others
    · refine .inl ⟨id, ?_⟩
      rw [reservationOf_insert rfl, if_pos rfl, mem_singleton.mp isNew]
      show some (⟨some id, range.startLsn, range.endLsn⟩ : Reservation) = some range
      rw [← holder]
  | misses present stage _ _ turn | ships present stage _ _ turn =>
    have own := reservationOf_of_stage present stage
    refine inv.dispatches ranges (ranges.commits _ _ own) turn rfl ?_
    exact fun other different claimed => claims_of_commit rfl own rfl rfl different claimed
  | @gcRefused _ _ sequencer ready unreserved =>
    have middle : AllClaimed { node with sequencer := sequencer } :=
      inv.keeps rfl (fun _ _ isRange => isRange) rfl rfl
    exact middle.returns unreserved (gcReady_eq_some ready).2
  | gcReserves _ unreserved =>
    intro other inside
    rcases mem_append.mp inside with before | isNew
    · rcases inv other before with committed | isRange | inBatches
      · exact .inl committed
      · rw [unreserved] at isRange
        cases isRange
      · exact .inr (.inr inBatches)
    · rw [mem_singleton.mp isNew]
      exact .inr (.inl rfl)
  | gcReturns ready unreserved => exact inv.returns unreserved (gcReady_eq_some ready).2
  | gcPurges ready purge turn | gcMisses ready purge turn =>
    exact (inv.purgeDispatches ranges purge turn).returns rfl (gcReady_eq_some ready).2
  | directReserves =>
    intro other inside
    rcases mem_append.mp inside with before | isNew
    · rcases inv other before with committed | isRange | inBatches
      · exact .inl committed
      · exact .inr (.inl isRange)
      · exact .inr (.inr (mem_append_left _ inBatches))
    · rw [mem_singleton.mp isNew]
      exact .inr (.inr (mem_concat_self))
  | directShips member turn =>
    refine inv.dispatches ranges (ranges.batches _ member).2 turn.symm rfl ?_
    intro other different claimed
    rcases claimed with committed | isRange | inBatches
    · exact .inl committed
    · exact .inr (.inl isRange)
    · exact .inr (.inr ((mem_erase_of_ne different).mpr inBatches))

end

end AllClaimed

/-- Every call that has reserved a range has returned. -/
def CommitsDone (node : ComputeNode Value) : Prop :=
  (∀ id, node.reservationOf id = none) ∧ node.purge = none ∧ node.batches = []

instance commitsDoneDecidable (node : ComputeNode Value) : Decidable node.CommitsDone :=
  decidable_of_iff ((∀ entry ∈ node.handles.toList, reservation entry.2 entry.1 = none) ∧
    node.purge = none ∧ node.batches = []) (by
      simp only [CommitsDone, reservationOf, bind_eq_none_iff]
      exact and_congr_left'
        (forall_iff_toList node.handles (fun id handle => reservation handle id = none)).symm)

/-- If no commit gives up between its reservation and its dispatch, no reserved
range is left when all calls have returned. -/
theorem no_reserved_range_leaked {sequencer : Sequencer} {defaultTimeout : Nat}
    {final : ComputeNode Value} (dispatched : sequencer.dispatchLsn = sequencer.nextLsn)
    (reached : Reaches ComputeNode.step commitsDispatch (ComputeNode.created sequencer defaultTimeout)
      final) (done : final.CommitsDone) : final.sequencer.dispatchLsn = final.sequencer.nextLsn := by
  have kept : RangesOk final ∧ AllClaimed final := by
    apply reached.invariant
    · refine ⟨RangesOk.created sequencer defaultTimeout dispatched, ?_⟩
      nofun
    · rintro _ _ _ ⟨ranges, claimed⟩ admitted taken
      exact ⟨ranges.step taken, claimed.step ranges admitted taken⟩
  rcases kept with ⟨ranges, claimed⟩
  have nothing : final.reserved = [] := by
    apply eq_nil_iff_forall_not_mem.mpr
    intro range member
    rcases claimed range member with ⟨_, isRange⟩ | isRange | inBatches
    · rw [done.1] at isRange
      cases isRange
    · rw [done.2.1] at isRange
      cases isRange
    · rw [done.2.2] at inBatches
      cases inBatches
  have tiles := ranges.tiles
  rw [nothing] at tiles
  exact tiles

/-- The sequencer of a new database. -/
def freshSequencer : Sequencer :=
  { quorum := 1, nextLsn := 0, requestId := 1, durableLsn := 0, dispatchLsn := 0 }

/-- A commit misses its quorum, a batch of an index operation and a second commit
wait behind it; after all of them nothing is left. -/
theorem no_reserved_range_leaked_missed_quorum : ∃ final : ComputeNode Nat,
    Reaches ComputeNode.step commitsDispatch (ComputeNode.created freshSequencer 10) final ∧
      final.sequencer.nextLsn = 6 ∧ final.sequencer.dispatchLsn = final.sequencer.nextLsn := by
  have passed : (runGuarded ComputeNode.step commitsDispatch
      (ComputeNode.created freshSequencer 10 : ComputeNode Nat)
      [.begin 1 false none, .put 1 (Key.ofNat 7) 10, .insert 1, .record 1, .commit 1,
        .prestampGet 1, .prestampInsert 1, .reserve 1 2, .reserveDirect 1, .stampGet 1, .stampInsert 1,
        .begin 2 false none, .writePage 2 40 pageSize, .commit 2, .reserve 2 3,
        .ship 1 .missed, .shipDirect true, .ship 2 .shipped]).any
      (fun final => final.sequencer.nextLsn = 6 ∧
        final.CommitsDone) = true := by
    decide +kernel
  rcases exists_reaches_of_decide passed with ⟨final, reached, reserved, done⟩
  exact ⟨final, reached, reserved, no_reserved_range_leaked rfl reached done⟩

/-- `write_page` with a page of the wrong size: the commit reserves two LSNs and
returns an error before it dispatches them. -/
theorem reserved_range_leaked : ∃ final : ComputeNode Nat,
    Reaches ComputeNode.step anyStep (ComputeNode.created freshSequencer 10) final ∧
      final.CommitsDone ∧ final.sequencer.dispatchLsn = 0 ∧ final.sequencer.nextLsn = 2 := by
  have passed : (runGuarded ComputeNode.step anyStep
      (ComputeNode.created freshSequencer 10 : ComputeNode Nat)
      [.begin 1 false none, .writePage 1 40 100, .commit 1, .reserve 1 2, .ship 1 .shipped]).any
      (fun final => final.sequencer.dispatchLsn = 0 ∧ final.sequencer.nextLsn = 2 ∧
        final.CommitsDone) = true := by
    decide +kernel
  rcases exists_reaches_of_decide passed with ⟨final, reached, dispatched, reserved, done⟩
  exact ⟨final, reached, done, dispatched, reserved⟩

end ComputeNode

end Compute
end ScaleKv
