import ScaleKv.Compute.EmbeddedSteps
import ScaleKv.Compute.Reservations

namespace ScaleKv
namespace Compute
namespace ComputeNode

open Foundation Option Std OrderedMap

variable {Value : Type} {node next : ComputeNode Value} {id : TxnId} {handle after : Handle Value}

/-!
# The reaper beside a commit

The reaper and the commit of the same transaction both read a row, test whether
it is still an intent of the transaction, and write it.  A commit that returns
`Ok` has lost a row if the reaper writes after the commit has stamped, or if the
reaper has removed a row that the second pass then silently skips.  Nothing else
can go wrong: a row that the reaper puts back before the second pass reads it
makes the commit fail, and one that it puts back after that is overwritten.
-/

/-- The row has the value that the transaction has placed. -/
def Shows (row placed : Row Value) : Prop :=
  row.value = placed.value ∧ row.flags.tombstone = placed.flags.tombstone

/-- The row is the version that the commit makes of the placed row. -/
structure CommittedRow (row placed : Row Value) (commitLsn : Nat) : Prop where
  shows : Shows row placed
  commitLsn : row.commitLsn = commitLsn
  version : row.flags.intent = false

/-- The commit of the handle has passed the key with its second pass. -/
def Stamped (handle : Handle Value) (key : Key) (commitLsn : Nat) : Prop :=
  match handle.stage with
  | .stamping _ _ endLsn _ rest => commitLsn = endLsn ∧ key ∉ rest
  | .leaving (.committed endLsn) => commitLsn = endLsn
  | .ended (.committed endLsn) => commitLsn = endLsn
  | _ => False

/-- The commit of the handle has returned, or is about to return, `Ok`. -/
def committedAt (handle : Handle Value) : Option Nat :=
  match handle.stage with
  | .leaving (.committed commitLsn) => some commitLsn
  | .ended (.committed commitLsn) => some commitLsn
  | _ => none

/-- How the handle has ended. -/
def endedWith (handle : Handle Value) : Option Outcome :=
  match handle.stage with
  | .ended outcome => some outcome
  | _ => none

/-- Every key that a commit with `Ok` has modified carries the committed row,
unless the row was last written for another transaction. -/
def CommitsStay (node : ComputeNode Value) : Prop :=
  ∀ (id : TxnId) (handle : Handle Value) commitLsn, node.handles[id]? = some handle ->
    committedAt handle = some commitLsn -> ∀ (key : Key) placed,
      handle.placed[key]? = some placed -> node.writers[key]? = some id ->
      ∃ row, node.tree[key]? = some row ∧ CommittedRow row placed commitLsn

/-! ## The condition -/

/-- Where the reaper is about to write, the row is still an intent of the
transaction that it resolves. -/
def reaperMeetsIntent (node : ComputeNode Value) : Bool :=
  match node.reaper with
  | some ⟨_, some ⟨id, key :: _, .checked _⟩⟩ => node.tree[key]?.any (fun row => row.ownedBy id)
  | _ => true

/-- The second pass of the commit finds a row. -/
def stampFindsRow (node : ComputeNode Value) (id : TxnId) : Bool :=
  match node.handles[id]?.map Handle.stage with
  | some (.stamping _ _ _ none (key :: _)) => node.tree[key]?.isSome
  | _ => true

/-- The reaper writes only what it has just checked, the second pass of a commit
skips no key, and there is no collection. -/
def reaperYields (node : ComputeNode Value) : Action Value -> Prop
  | .reapResolve _ => node.reaperMeetsIntent = true
  | .stampGet id => node.stampFindsRow id = true
  | .gcOnce _ _ => False
  | _ => True

instance reaperYieldsDecidable (node : ComputeNode Value) (action : Action Value) :
    Decidable (reaperYields node action) := by
  unfold reaperYields
  induction action using Action.casesOn <;> infer_instance

/-! ## The invariant -/

/-- What is known about a handle: its placed rows are those of the keys it has
modified, and a row in its hand is its own intent. -/
structure HandleGenuine (id : TxnId) (handle : Handle Value) : Prop where
  placed : ∀ (key : Key) row, handle.placed[key]? = some row -> key ∈ handle.modified
  inserting : ∀ key row, handle.stage = .inserting key row -> row.ownedBy id = true
  hand : ∀ key row, inHand handle = some (key, row) -> row.ownedBy id = true ∧
    ∃ placed, handle.placed[key]? = some placed ∧ Shows row placed

/-- An intent shows what its transaction has placed, and nobody has written the
row since. -/
def IntentGenuine (node : ComputeNode Value) (key : Key) (row : Row Value) : Prop :=
  row.flags.intent = true -> node.writers[key]? = some row.intentTxnId ∧
    ∃ handle placed, node.handles[row.intentTxnId]? = some handle ∧
      handle.placed[key]? = some placed ∧ Shows row placed

/-- A stamped row stays as long as nobody else writes it. -/
def StampStays (node : ComputeNode Value) (id : TxnId) (handle : Handle Value) : Prop :=
  ∀ (key : Key) placed commitLsn, handle.placed[key]? = some placed ->
    Stamped handle key commitLsn -> node.writers[key]? = some id ->
    ∃ row, node.tree[key]? = some row ∧ CommittedRow row placed commitLsn

structure Genuine (node : ComputeNode Value) : Prop where
  noGc : node.gc = none
  handles : ∀ (id : TxnId) (handle : Handle Value), node.handles[id]? = some handle ->
    HandleGenuine id handle
  intents : ∀ (key : Key) row, node.tree[key]? = some row -> IntentGenuine node key row
  stamps : ∀ (id : TxnId) (handle : Handle Value), node.handles[id]? = some handle ->
    StampStays node id handle

namespace Genuine

theorem restages (inv : Genuine node) (present : node.handles[id]? = some handle)
    (handles : next.handles = node.handles.insert id after) (tree : next.tree = node.tree)
    (writers : next.writers = node.writers) (gc : next.gc = node.gc)
    (placed : after.placed = handle.placed) (own : HandleGenuine id after)
    (stamps : ∀ key commitLsn, Stamped after key commitLsn -> (∃ row, handle.placed[key]? = some row) ->
      Stamped handle key commitLsn) : Genuine next := by
  refine ⟨gc.trans inv.noGc, ?_, ?_, ?_⟩
  · rw [handles]
    exact forall_insert own inv.handles
  · intro key row stored intent
    rw [tree] at stored
    rcases inv.intents key row stored intent with ⟨writer, owner, placedRow, isOwner, isPlaced, shows⟩
    refine ⟨writers ▸ writer, ?_⟩
    by_cases same : id = row.intentTxnId
    · rw [← same, present] at isOwner
      cases isOwner
      refine ⟨after, placedRow, ?_, placed ▸ isPlaced, shows⟩
      rw [handles, lookup_insert, if_pos same]
    · refine ⟨owner, placedRow, ?_, isPlaced, shows⟩
      rw [handles, lookup_insert, if_neg same]
      exact isOwner
  · intro other found lookup key placedRow commitLsn isPlaced stamped writer
    rw [writers] at writer
    rw [tree]
    rw [handles] at lookup
    rcases lookup_insert_cases lookup with ⟨rfl, rfl⟩ | ⟨_, old⟩
    · rw [placed] at isPlaced
      exact inv.stamps other handle present key placedRow commitLsn isPlaced
        (stamps key commitLsn stamped ⟨placedRow, isPlaced⟩) writer
    · exact inv.stamps other found old key placedRow commitLsn isPlaced stamped writer

variable {key : Key} {row : Row Value} {outcome : Outcome} {action : Action Value}

theorem rewrites {tree : TreeMap Key (Row Value)} (inv : Genuine node)
    (present : node.handles[id]? = some handle)
    (handles : next.handles = node.handles.insert id after) (isTree : next.tree = tree)
    (elsewhere : ∀ other, key ≠ other -> tree[other]? = node.tree[other]?)
    (writers : next.writers = node.writers.insert key id) (gc : next.gc = node.gc)
    (placed : ∀ other, key ≠ other -> after.placed[other]? = handle.placed[other]?)
    (own : HandleGenuine id after)
    (intent : ∀ row, tree[key]? = some row -> row.flags.intent = true -> row.intentTxnId = id ∧
      ∃ placedRow, after.placed[key]? = some placedRow ∧ Shows row placedRow)
    (here : ∀ placedRow commitLsn, after.placed[key]? = some placedRow ->
      Stamped after key commitLsn -> ∃ row, tree[key]? = some row ∧
        CommittedRow row placedRow commitLsn)
    (stamps : ∀ other commitLsn, key ≠ other -> (∃ row, handle.placed[other]? = some row) ->
      Stamped after other commitLsn -> Stamped handle other commitLsn) : Genuine next := by
  refine ⟨gc.trans inv.noGc, ?_, ?_, ?_⟩
  · rw [handles]
    exact forall_insert own inv.handles
  · intro other row stored isIntent
    rw [isTree] at stored
    rw [writers, lookup_insert, handles]
    by_cases same : key = other
    · subst same
      rcases intent row stored isIntent with ⟨isOwner, placedRow, isPlaced, shows⟩
      rw [if_pos rfl, isOwner]
      refine ⟨rfl, after, placedRow, ?_, isPlaced, shows⟩
      rw [lookup_insert, if_pos rfl]
    · rw [elsewhere other same] at stored
      rcases inv.intents other row stored isIntent with
        ⟨writer, owner, placedRow, isOwner, isPlaced, shows⟩
      rw [if_neg same]
      refine ⟨writer, ?_⟩
      by_cases mine : id = row.intentTxnId
      · rw [← mine, present] at isOwner
        cases isOwner
        refine ⟨after, placedRow, ?_, (placed other same).trans isPlaced, shows⟩
        rw [lookup_insert, if_pos mine]
      · refine ⟨owner, placedRow, ?_, isPlaced, shows⟩
        rw [lookup_insert, if_neg mine]
        exact isOwner
  · intro other found lookup written placedRow commitLsn isPlaced stamped writer
    rw [isTree]
    rw [writers, lookup_insert] at writer
    rw [handles] at lookup
    by_cases same : key = written
    · subst same
      rw [if_pos rfl, some_inj] at writer
      rcases lookup_insert_cases lookup with ⟨_, rfl⟩ | ⟨different, _⟩
      · exact here placedRow commitLsn isPlaced stamped
      · exact absurd writer.symm different
    · rw [if_neg same] at writer
      rw [elsewhere written same]
      rcases lookup_insert_cases lookup with ⟨rfl, rfl⟩ | ⟨_, old⟩
      · rw [placed written same] at isPlaced
        exact inv.stamps other handle present written placedRow commitLsn isPlaced
          (stamps written commitLsn same ⟨placedRow, isPlaced⟩ stamped) writer
      · exact inv.stamps other found old written placedRow commitLsn isPlaced stamped writer

theorem reaps {point : Option (UndoRecord Value)} {reaper : Option (ReaperPass Value)}
    (inv : Genuine node) (stored : node.tree[key]? = some row) (owned : row.ownedBy id = true) :
    Genuine { node.setTree id key (restore node.tree key point) with reaper := reaper } := by
  rcases (Row.ownedBy_iff _ _).mp owned with ⟨isIntent, isOwner⟩
  refine ⟨inv.noGc, inv.handles, ?_, ?_⟩
  · intro other found storedAfter intent
    by_cases same : key = other
    · subst same
      rw [restore_version storedAfter] at intent
      cases intent
    · have before : node.tree[other]? = some found := (restore_elsewhere point same).symm.trans storedAfter
      rcases inv.intents other found before intent with ⟨writer, rest⟩
      exact ⟨(lookup_insert_of_ne _ _ same).trans writer, rest⟩
  · intro other found lookup written placedRow commitLsn isPlaced stamped writer
    have inserted : (node.writers.insert key id)[written]? = some other := writer
    rw [lookup_insert] at inserted
    by_cases same : key = written
    · -- a row that the commit has stamped would be no intent any more
      subst same
      rw [if_pos rfl, some_inj] at inserted
      subst inserted
      rcases inv.intents key row stored isIntent with ⟨writerBefore, _⟩
      rw [isOwner] at writerBefore
      rcases inv.stamps id found lookup key placedRow commitLsn isPlaced stamped writerBefore with
        ⟨_, isCurrent, committed⟩
      cases stored.symm.trans isCurrent
      rw [committed.version] at isIntent
      cases isIntent
    · rw [if_neg same] at inserted
      rcases inv.stamps other found lookup written placedRow commitLsn isPlaced stamped inserted with
        ⟨current, isCurrent, committed⟩
      exact ⟨current, (restore_elsewhere point same).trans isCurrent, committed⟩

theorem handle_of_free (genuine : HandleGenuine id handle) (placed : after.placed = handle.placed)
    (modified : after.modified = handle.modified)
    (notInserting : ∀ key row, after.stage ≠ .inserting key row) (free : inHand after = none) :
    HandleGenuine id after where
  placed key row isPlaced := by
    rw [modified]
    exact genuine.placed key row (placed ▸ isPlaced)
  inserting key row stage := absurd stage (notInserting key row)
  hand key row isHand := by
    rw [free] at isHand
    cases isHand

section Handles

variable (inv : Genuine node) (present : node.handles[id]? = some handle) {base : CommitBase Value}
  {rest : List Key}

include inv present

theorem moves_on {stage : Stage Value}
    (handles : next.handles = node.handles.insert id { handle with stage := stage, walking := none })
    (tree : next.tree = node.tree) (writers : next.writers = node.writers) (gc : next.gc = node.gc)
    (notInserting : ∀ key row, stage ≠ .inserting key row)
    (free : inHand { handle with stage := stage, walking := none } = none)
    (stamps : ∀ key commitLsn, Stamped { handle with stage := stage, walking := none } key commitLsn ->
      (∃ row, handle.placed[key]? = some row) -> Stamped handle key commitLsn) : Genuine next :=
  inv.restages present handles tree writers gc rfl
    (handle_of_free (inv.handles id handle present) rfl rfl notInserting free) stamps

theorem ends (handles : next.handles =
      node.handles.insert id { handle with stage := .ended outcome, walking := none })
    (tree : next.tree = node.tree) (writers : next.writers = node.writers) (gc : next.gc = node.gc)
    (uncommitted : ∀ commitLsn, outcome ≠ .committed commitLsn) : Genuine next := by
  refine inv.moves_on present handles tree writers gc nofun rfl ?_
  intro _ commitLsn stamped _
  cases outcome with
  | committed endLsn => exact absurd rfl (uncommitted endLsn)
  | aborted | failed | dropped | closed => exact stamped.elim

theorem placed_of_owned (stored : node.tree[key]? = some row) (owned : row.ownedBy id = true) :
    ∃ placed, handle.placed[key]? = some placed ∧ Shows row placed := by
  rcases (Row.ownedBy_iff _ _).mp owned with ⟨intent, isOwner⟩
  rcases inv.intents key row stored intent with ⟨_, _, placed, isPresent, isPlaced, shows⟩
  rw [isOwner, present] at isPresent
  cases isPresent
  exact ⟨placed, isPlaced, shows⟩

theorem prestamps (stage : handle.stage = .prestamping base (some row) (key :: rest)) :
    Genuine ((node.setTree id key (node.tree.insert key { row with commitLsn := 1 })).setStage id handle
      (.prestamping base none rest)) := by
  have hand : inHand handle = some (key, row) := by
    unfold inHand
    rw [stage]
  rcases (inv.handles id handle present).hand key row hand with ⟨owned, placedRow, isPlaced, shows⟩
  refine inv.rewrites present rfl rfl (fun other different => lookup_insert_of_ne _ _ different) rfl rfl
    (fun _ _ => rfl) ?_ ?_ (fun _ _ _ stamped => stamped.elim) (fun _ _ _ _ stamped => stamped.elim)
  · exact handle_of_free (inv.handles id handle present) rfl rfl nofun rfl
  · intro _ isStored _
    cases TreeMap.getElem?_insert_self.symm.trans isStored
    exact ⟨((Row.ownedBy_iff _ _).mp owned).2, placedRow, isPlaced, shows⟩

theorem marks {startLsn endLsn : Nat}
    (stage : handle.stage = .stamping base startLsn endLsn (some row) (key :: rest)) :
    Genuine ({ node.setTree id key (node.tree.insert key (Embedded.stampedRow row endLsn)) with
      chains := addVersion node.chains key (endLsn, row.visible) }.setStage id handle
        (.stamping base startLsn endLsn none rest)) := by
  have hand : inHand handle = some (key, row) := by
    unfold inHand
    rw [stage]
  rcases (inv.handles id handle present).hand key row hand with ⟨_, _, isPlaced, shows⟩
  refine inv.rewrites present rfl rfl (fun other different => lookup_insert_of_ne _ _ different) rfl rfl
    (fun _ _ => rfl) ?_ ?_ ?_ ?_
  · exact handle_of_free (inv.handles id handle present) rfl rfl nofun rfl
  · intro _ isStored intent
    cases TreeMap.getElem?_insert_self.symm.trans isStored
    cases intent
  · intro _ commitLsn isOther stamped
    cases isPlaced.symm.trans isOther
    have isEnd : commitLsn = endLsn := stamped.1
    refine ⟨Embedded.stampedRow row endLsn, ?_, shows, isEnd.symm, rfl⟩
    exact TreeMap.getElem?_insert_self
  · rintro _ _ different _ ⟨isEnd, outside⟩
    unfold Stamped
    rw [stage]
    refine ⟨isEnd, ?_⟩
    intro inside
    exact outside ((List.mem_cons.mp inside).resolve_left (Ne.symm different))

end Handles

theorem created (sequencer : Sequencer) (defaultTimeout : Nat) :
    Genuine (ComputeNode.created sequencer defaultTimeout : ComputeNode Value) := by
  refine ⟨rfl, ?_, ?_, ?_⟩
  · intro _ _ present
    cases present.symm.trans TreeMap.getElem?_emptyc
  · intro _ _ stored
    cases stored.symm.trans TreeMap.getElem?_emptyc
  · intro _ _ present
    cases present.symm.trans TreeMap.getElem?_emptyc

/-- The end of a handle outside the registry is not the end of a commit with `Ok`. -/
theorem quits (inv : Genuine node) (quitting : Quits node action id handle outcome) :
    Genuine (node.endHandle id handle outcome) := by
  cases quitting with
  | dropped present | closed present | unstarted present | unstamped present | lost present
  | unsealed present | rejected present =>
    exact inv.ends present rfl rfl rfl rfl nofun

theorem begins {readOnly : Bool} {timeout : Option Nat} {undo : UndoLog Value} (inv : Genuine node)
    (fresh : node.handles[id]? = none) : Genuine (node.begun id readOnly timeout undo) := by
  refine ⟨inv.noGc, ?_, ?_, ?_⟩
  · refine forall_insert ?_ inv.handles
    refine ⟨?_, ?_, ?_⟩
    · intro key row isPlaced
      cases isPlaced.symm.trans TreeMap.getElem?_emptyc
    · nofun
    · nofun
  · intro key row stored intent
    rcases inv.intents key row stored intent with ⟨writer, owner, placedRow, isOwner, rest⟩
    refine ⟨writer, owner, placedRow, ?_, rest⟩
    refine (lookup_insert_of_ne _ _ ?_).trans isOwner
    rintro rfl
    rw [fresh] at isOwner
    cases isOwner
  · refine forall_insert ?_ inv.stamps
    intro _ _ _ _ stamped _
    exact stamped.elim

theorem step (inv : Genuine node) (admitted : reaperYields node action)
    (taken : node.step action = some next) : Genuine next := by
  cases moves_of_step taken with
  | ticks | reapStarts | reapTakes | reapStands | reapSkips | reapFails | reapRemoves
  | directRefused | directReserves | directShips =>
    exact { inv with }
  | begins fresh => exact inv.begins fresh
  | @reads _ id handle _ _ result present =>
    have genuine := inv.handles id handle present
    refine inv.restages present rfl rfl rfl rfl ?_ ?_ ?_
    · cases result <;> rfl
    · cases result <;> exact { genuine with }
    · intro key _ stamped _
      cases result <;> exact stamped
  | @idles _ id handle _ present =>
    refine inv.restages present rfl rfl rfl rfl rfl ?_ (fun _ _ stamped _ => stamped.elim)
    exact handle_of_free (inv.handles id handle present) rfl rfl nofun rfl
  | @writes _ id _ handle _ _ _ _ _ present _ _ made =>
    refine inv.restages present rfl rfl rfl rfl rfl ?_ (fun _ _ stamped _ => stamped.elim)
    refine ⟨(inv.handles id handle present).placed, ?_, ?_⟩
    · intro _ found stage
      cases stage
      exact (Embedded.intentRow_eq_ok made).1
    · nofun
  | @inserts id handle key row present stage =>
    have owned := (inv.handles id handle present).inserting key row stage
    refine inv.rewrites present rfl rfl (fun other different => lookup_insert_of_ne _ _ different) rfl rfl
      (fun other different => lookup_insert_of_ne _ _ different) ?_ ?_
      (fun _ _ _ stamped => stamped.elim) (fun _ _ _ _ stamped => stamped.elim)
    · refine ⟨?_, ?_, ?_⟩
      · intro other found isPlaced
        rcases lookup_insert_cases isPlaced with ⟨same, _⟩ | ⟨_, old⟩
        · exact TreeSet.mem_insert.mpr (.inl (Std.LawfulEqCmp.compare_eq_iff_eq.mpr same.symm))
        · exact TreeSet.mem_insert.mpr (.inr ((inv.handles id handle present).placed other found old))
      · nofun
      · nofun
    · intro stored isStored _
      cases TreeMap.getElem?_insert_self.symm.trans isStored
      refine ⟨((Row.ownedBy_iff _ _).mp owned).2, row, ?_, rfl, rfl⟩
      exact TreeMap.getElem?_insert_self
  | records present | commits present | aborts present | resolveStands present | resolveSkips present
  | resolveFails present | resolveEnds present =>
    exact inv.moves_on present rfl rfl rfl rfl nofun rfl (fun _ _ stamped _ => stamped.elim)
  | quits quitting => exact inv.quits quitting
  | @prestampReads id handle _ _ _ _ present _ stored owned =>
    refine inv.restages present rfl rfl rfl rfl rfl ?_ (fun _ _ stamped _ => stamped.elim)
    refine ⟨(inv.handles id handle present).placed, nofun, ?_⟩
    intro other found hand
    cases hand
    have placed := inv.placed_of_owned present stored owned
    exact ⟨owned, placed⟩
  | prestamps present stage => exact inv.prestamps present stage
  | @reserves id handle _ _ _ _ present =>
    refine inv.moves_on present rfl rfl rfl rfl nofun rfl ?_
    rintro key _ ⟨_, outside⟩ ⟨row, isPlaced⟩
    have modified := (inv.handles id handle present).placed key row isPlaced
    exact absurd (TreeSet.mem_toList.mpr modified) outside
  | @stampReads id handle _ _ _ _ _ _ present stage stored owned =>
    refine inv.restages present rfl rfl rfl rfl rfl ?_ ?_
    · refine ⟨(inv.handles id handle present).placed, nofun, ?_⟩
      intro other found hand
      cases hand
      have placed := inv.placed_of_owned present stored owned
      exact ⟨owned, placed⟩
    · intro other _ stamped _
      unfold Stamped
      rw [stage]
      exact stamped
  | @stampSkips id _ _ _ _ _ _ present stage missing =>
    have finds : node.stampFindsRow id = true := admitted
    unfold stampFindsRow at finds
    rw [present, map_some, stage] at finds
    dsimp only at finds
    rw [missing] at finds
    cases finds
  | stamps present stage => exact inv.marks present stage
  | misses present =>
    exact inv.ends present rfl rfl rfl rfl nofun
  | @ships _ _ _ _ _ _ present stage =>
    refine inv.moves_on present rfl rfl rfl rfl nofun rfl ?_
    intro key _ stamped _
    unfold Stamped
    rw [stage]
    exact ⟨stamped, List.not_mem_nil⟩
  | @restores id _ handle point _ _ present =>
    refine inv.rewrites present rfl rfl (fun other different => restore_elsewhere point different) rfl rfl
      (fun _ _ => rfl) ?_ ?_ (fun _ _ _ stamped => stamped.elim) (fun _ _ _ _ stamped => stamped.elim)
    · exact handle_of_free (inv.handles id handle present) rfl rfl nofun rfl
    · intro row stored intent
      rw [restore_version stored] at intent
      cases intent
  | @finishes _ _ outcome present stage =>
    refine inv.moves_on present rfl rfl rfl rfl nofun rfl ?_
    intro key _ stamped _
    unfold Stamped
    rw [stage]
    cases outcome <;> exact stamped
  | @reapRestores _ _ _ _ _ _ running =>
    have meets : node.reaperMeetsIntent = true := admitted
    unfold reaperMeetsIntent at meets
    rw [running] at meets
    rcases (any_eq_true _ _).mp meets with ⟨_, stored, owned⟩
    exact inv.reaps stored owned
  | gcStarts => exact admitted.elim
  | gcRemoves running | gcUpdates running | gcFails running =>
    rw [inv.noGc] at running
    cases running
  | gcRefused ready | gcReserves ready | gcReturns ready | gcPurges ready | gcMisses ready =>
    have running := (gcReady_eq_some ready).1
    rw [inv.noGc] at running
    cases running

end Genuine

/-! ## What a commit with `Ok` has written stays -/

end ComputeNode

end Compute
end ScaleKv
