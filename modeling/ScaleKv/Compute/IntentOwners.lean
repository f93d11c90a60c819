import ScaleKv.Compute.EmbeddedSteps
import ScaleKv.Compute.Reservations

namespace ScaleKv
namespace Compute
namespace ComputeNode

open Foundation List Option OrderedMap

variable {Value : Type} {node next : ComputeNode Value} {id : TxnId} {key : Key}
  {handle after : Handle Value} {keys : List Key}

/-!
# Every intent has an owner

An intent is resolved by the commit or abort of its transaction, or by the
reaper, and the reaper works on the keys that the registry knows when it takes
the transaction up.  The row and the registry are written in separate steps, and
the entry goes away at the end of the reaper's work whatever the transaction has
done in the meantime.  So an intent is left without an owner if its row is
inserted while the reaper has the transaction or after that, or is inserted and
not yet recorded when the reaper takes the transaction up, or if the reaper
gives up at a record that it cannot read.
-/

/-- No call of the handle is in progress. -/
def betweenCalls (handle : Handle Value) : Bool :=
  match handle.stage with
  | .active => true
  | .ended _ => true
  | _ => false

/-- No call is in progress, and neither the reaper nor a collection is at work. -/
def Quiet (node : ComputeNode Value) : Prop :=
  (∀ (id : TxnId) (handle : Handle Value), node.handles[id]? = some handle ->
    betweenCalls handle = true) ∧
  node.reaper.isNone = true ∧ node.gc.isNone = true

instance quietDecidable (node : ComputeNode Value) : Decidable node.Quiet :=
  decidable_of_iff ((∀ entry ∈ node.handles.toList, betweenCalls entry.2 = true) ∧
    node.reaper.isNone = true ∧ node.gc.isNone = true) (and_congr_left'
      (forall_iff_toList node.handles (fun _ handle => betweenCalls handle = true)).symm)

/-- Every intent belongs to a pending transaction that knows the key. -/
def IntentsOwned (node : ComputeNode Value) : Prop :=
  ∀ (key : Key) row, node.tree[key]? = some row -> row.flags.intent = true ->
    ∃ pending, node.registry[row.intentTxnId]? = some pending ∧ key ∈ pending.writeKeys

/-! ## The condition -/

/-- The transaction that the reaper resolves. -/
def reaping (node : ComputeNode Value) : Option TxnId :=
  node.reaper.bind (fun pass => pass.job.map Resolve.txnId)

/-- The first pass of a commit is about to write over the intent that it has read. -/
def prestampMeetsIntent (node : ComputeNode Value) (id : TxnId) : Bool :=
  match node.handles[id]?.map Handle.stage with
  | some (.prestamping _ (some _) (key :: _)) => node.tree[key]?.any (fun row => row.ownedBy id)
  | _ => true

/-- The transaction that the reaper is about to take up has recorded its last write. -/
def reaperMeetsRecorded (node : ComputeNode Value) : Bool :=
  match node.reaper with
  | some ⟨id :: _, none⟩ =>
    match node.handles[id]?.map Handle.stage with
    | some (.recording _) => false
    | _ => true
  | _ => true

/-- Where `resolve_txn_intents` looks at an intent of its transaction, it can read
the undo records, and the second look does not make it pass the intent by. -/
def resolvable (node : ComputeNode Value) (txnId : TxnId) (key : Key) (fuel : Nat) :
    ResolveAt Value -> Bool
  | .reading =>
    match node.resolveStep txnId key fuel .reading with
    | some .error => false
    | _ => true
  | .decided point => node.tree[key]?.all (fun row => !row.ownedBy txnId || stillIntent row txnId point)
  | .checked _ => true

def abortResolves (node : ComputeNode Value) (id : TxnId) (fuel : Nat) : Bool :=
  match node.handles[id]?.map Handle.stage with
  | some (.resolving stands (key :: _)) => node.resolvable id key fuel stands
  | _ => true

def reaperResolves (node : ComputeNode Value) (fuel : Nat) : Bool :=
  match node.reaper with
  | some ⟨_, some ⟨id, key :: _, stands⟩⟩ => node.resolvable id key fuel stands
  | _ => true

/-- Only transactions that are registered and that the reaper does not resolve
insert rows, commits write over their own intents, the reaper takes no
transaction up between an insert and its record, and no resolution gives up. -/
def intentsKnown (node : ComputeNode Value) : Action Value -> Prop
  | .insert id => node.registry.contains id = true ∧ node.reaping ≠ some id
  | .prestampInsert id => node.prestampMeetsIntent id = true
  | .resolve id fuel => node.abortResolves id fuel = true
  | .reapTake => node.reaperMeetsRecorded = true
  | .reapResolve fuel => node.reaperResolves fuel = true
  | .gcOnce _ _ => False
  | _ => True

instance intentsKnownDecidable (node : ComputeNode Value) (action : Action Value) :
    Decidable (intentsKnown node action) := by
  unfold intentsKnown
  induction action using Action.casesOn <;> infer_instance

/-! ## The invariant -/

/-- The row of the key is an intent of the transaction. -/
def IntentAt (node : ComputeNode Value) (id : TxnId) (key : Key) : Prop :=
  ∃ row, node.tree[key]? = some row ∧ row.ownedBy id = true

/-- In this stage of its handle the transaction may still have an intent at the
key: a commit or abort has not passed the key yet. -/
def MayHold (stage : Stage Value) (key : Key) : Prop :=
  match stage with
  | .stamping _ _ _ _ rest => key ∈ rest
  | .resolving _ rest => key ∈ rest
  | .leaving _ => False
  | _ => True

/-- If the reaper resolves the transaction, it has not passed the key yet. -/
def ReaperKnows (node : ComputeNode Value) (id : TxnId) (key : Key) : Prop :=
  ∀ expired keys stands, node.reaper = some ⟨expired, some ⟨id, keys, stands⟩⟩ -> key ∈ keys

/-- The registry knows the key, or the call that has inserted the row is about to
record it. -/
def Registered (node : ComputeNode Value) (id : TxnId) (handle : Handle Value) (key : Key)
    (pending : PendingTxn) : Prop :=
  (key ∈ pending.writeKeys ∧ node.ReaperKnows id key) ∨
    (handle.stage = .recording key ∧ node.reaping ≠ some id)

/-- How an intent is accounted for. -/
structure Accounts (node : ComputeNode Value) (id : TxnId) (key : Key) (handle : Handle Value)
    (pending : PendingTxn) : Prop where
  present : node.handles[id]? = some handle
  entry : node.registry[id]? = some pending
  modified : key ∈ handle.modified
  mayHold : MayHold handle.stage key
  registered : node.Registered id handle key pending

/-- The intent that a call of the handle is about to write. -/
def intentInHand (handle : Handle Value) : Option (Row Value) :=
  match handle.stage with
  | .inserting _ row => some row
  | .prestamping _ held _ => held
  | _ => none

structure Accounted (node : ComputeNode Value) : Prop where
  noGc : node.gc = none
  hands : ∀ (id : TxnId) (handle : Handle Value) row, node.handles[id]? = some handle ->
    intentInHand handle = some row -> row.ownedBy id = true
  entries : ∀ (id : TxnId) pending, node.registry[id]? = some pending ->
    ∃ handle, node.handles[id]? = some handle
  expired : ∀ pass id, node.reaper = some pass -> id ∈ pass.expired ->
    (∃ handle, node.handles[id]? = some handle) ∧
      ∀ pending, node.registry[id]? = some pending -> pending.deadline ≤ node.now
  intents : ∀ id key, node.IntentAt id key -> ∃ handle pending, node.Accounts id key handle pending

/-- The registry gets no new entry, and keeps those of the transactions that have
intents. -/
structure KeepsEntries (node next : ComputeNode Value) : Prop where
  old : ∀ (id : TxnId) pending, next.registry[id]? = some pending -> node.registry[id]? = some pending
  needed : ∀ id key, node.IntentAt id key -> next.registry[id]? = node.registry[id]?

theorem keepsEntries_of_same (registry : next.registry = node.registry) : KeepsEntries node next where
  old _ _ entry := registry ▸ entry
  needed _ _ _ := by rw [registry]

theorem keepsEntries_of_erase (registry : next.registry = node.registry.erase id)
    (nothing : ∀ key, ¬node.IntentAt id key) : KeepsEntries node next where
  old other pending entry := by
    rw [registry] at entry
    exact (lookup_erase_cases entry).2
  needed other key intent := by
    rw [registry, lookup_erase, if_neg]
    rintro rfl
    exact nothing key intent

theorem reaping_of_reaper {expired : List TxnId} {stands : ResolveAt Value}
    (running : node.reaper = some ⟨expired, some ⟨id, keys, stands⟩⟩) : node.reaping = some id := by
  rw [reaping, running]
  rfl

namespace Accounted

variable {before : Stage Value}

section

variable (inv : Accounted node)

include inv

section

variable (handles : next.handles = node.handles.insert id after)
  (reaper : next.reaper = node.reaper) (now : next.now = node.now) (gc : next.gc = node.gc)
  (hand : ∀ row, intentInHand after = some row -> row.ownedBy id = true)

include handles reaper now gc hand

/-- A step that replaces a handle keeps what does not concern the intents. -/
theorem frame (entries : ∀ (other : TxnId) pending, next.registry[other]? = some pending ->
      ∃ before, node.registry[other]? = some before ∧ before.deadline = pending.deadline)
    (intents : ∀ other key, next.IntentAt other key ->
      ∃ handle pending, next.Accounts other key handle pending) : Accounted next := by
  have present_after : ∀ other : TxnId, (∃ found, node.handles[other]? = some found) ->
      ∃ found, next.handles[other]? = some found := by
    rintro _ ⟨found, isFound⟩
    rw [handles, lookup_insert]
    split
    · exact ⟨after, rfl⟩
    · exact ⟨found, isFound⟩
  refine ⟨gc.trans inv.noGc, ?_, ?_, ?_, intents⟩
  · intro other found row lookup isHand
    rw [handles] at lookup
    rcases lookup_insert_cases lookup with ⟨rfl, rfl⟩ | ⟨_, old⟩
    · exact hand row isHand
    · exact inv.hands other found row old isHand
  · intro other pending entry
    rcases entries other pending entry with ⟨before, isBefore, _⟩
    exact present_after other (inv.entries other before isBefore)
  · intro pass other running member
    rw [reaper] at running
    rcases inv.expired pass other running member with ⟨isPresent, passed⟩
    refine ⟨present_after other isPresent, ?_⟩
    intro pending entry
    rcases entries other pending entry with ⟨before, isBefore, deadline⟩
    rw [← deadline, now]
    exact passed before isBefore

/-- A step that replaces a handle, makes no intents and takes at most the entry
of a transaction without intents out of the registry. -/
theorem replaces (present : node.handles[id]? = some handle) (was : handle.stage = before)
    (tree : ∀ other key, next.IntentAt other key -> node.IntentAt other key)
    (registry : KeepsEntries node next) (unrecorded : ∀ key, before ≠ .recording key)
    (modified : after.modified = handle.modified)
    (mayHold : ∀ key, next.IntentAt id key -> MayHold before key -> key ∈ handle.modified ->
      MayHold after.stage key) : Accounted next := by
  subst was
  refine inv.frame handles reaper now gc hand
    (fun other pending entry => ⟨pending, registry.old other pending entry, rfl⟩) ?_
  intro other key intent
  rcases inv.intents other key (tree other key intent) with ⟨found, pending, accounts⟩
  have entry : next.registry[other]? = some pending :=
    (registry.needed other key (tree other key intent)).trans accounts.entry
  by_cases mine : id = other
  · subst mine
    cases present.symm.trans accounts.present
    refine ⟨after, pending, ?_, entry, ?_, ?_, ?_⟩
    · rw [handles, lookup_insert, if_pos rfl]
    · rw [modified]
      exact accounts.modified
    · exact mayHold key intent accounts.mayHold accounts.modified
    · rcases accounts.registered with ⟨known, reaperKnows⟩ | ⟨recording, _⟩
      · refine .inl ⟨known, ?_⟩
        unfold ReaperKnows
        rw [reaper]
        exact reaperKnows
      · exact absurd recording (unrecorded key)
  · refine ⟨found, pending, ?_, entry, accounts.modified, accounts.mayHold, ?_⟩
    · rw [handles, lookup_insert, if_neg mine]
      exact accounts.present
    · unfold Registered ReaperKnows reaping
      rw [reaper]
      exact accounts.registered

end

/-- A step of the reaper that makes no intents and takes at most the entry of a
transaction without intents out of the registry. -/
theorem reaps (handles : next.handles = node.handles)
    (tree : ∀ other key, next.IntentAt other key -> node.IntentAt other key)
    (registry : KeepsEntries node next) (now : node.now ≤ next.now) (gc : next.gc = node.gc)
    (expired : ∀ pass id, next.reaper = some pass -> id ∈ pass.expired ->
      ∃ before, node.reaper = some before ∧ id ∈ before.expired)
    (reaperKnows : ∀ other key, next.IntentAt other key -> node.ReaperKnows other key ->
      next.ReaperKnows other key)
    (reaping : ∀ other, next.reaping = some other -> node.reaping = some other) :
    Accounted next := by
  refine ⟨gc.trans inv.noGc, ?_, ?_, ?_, ?_⟩
  · rw [handles]
    exact inv.hands
  · intro other pending entry
    rw [handles]
    exact inv.entries other pending (registry.old other pending entry)
  · intro pass other running member
    rcases expired pass other running member with ⟨before, wasRunning, wasMember⟩
    rcases inv.expired before other wasRunning wasMember with ⟨isPresent, passed⟩
    rw [handles]
    refine ⟨isPresent, ?_⟩
    intro pending entry
    exact le_trans (passed pending (registry.old other pending entry)) now
  · intro other key intent
    rcases inv.intents other key (tree other key intent) with ⟨found, pending, accounts⟩
    refine ⟨found, pending, ?_, ?_, accounts.modified, accounts.mayHold, ?_⟩
    · rw [handles]
      exact accounts.present
    · exact (registry.needed other key (tree other key intent)).trans accounts.entry
    · rcases accounts.registered with ⟨known, knows⟩ | ⟨recording, free⟩
      · exact .inl ⟨known, reaperKnows other key intent knows⟩
      · exact .inr ⟨recording, fun busy => free (reaping other busy)⟩

theorem same (handles : next.handles = node.handles)
    (tree : next.tree = node.tree) (registry : next.registry = node.registry)
    (reaper : next.reaper = node.reaper) (now : node.now ≤ next.now) (gc : next.gc = node.gc) :
    Accounted next := by
  refine inv.reaps handles ?_ (keepsEntries_of_same registry) now gc ?_ ?_ ?_
  · intro _ _ intent
    unfold IntentAt at intent
    rw [tree] at intent
    exact intent
  · intro pass _ running member
    exact ⟨pass, reaper ▸ running, member⟩
  · intro _ _ _ knows
    unfold ReaperKnows
    rw [reaper]
    exact knows
  · intro _ busy
    unfold reaping at busy
    rw [reaper] at busy
    exact busy

theorem begins {readOnly : Bool} {timeout : Option Nat} {undo : UndoLog Value}
    (fresh : node.handles[id]? = none) : Accounted (node.begun id readOnly timeout undo) := by
  have other_ne : ∀ other, (∃ found, node.handles[other]? = some found) -> id ≠ other := by
    rintro _ ⟨_, isFound⟩ rfl
    rw [fresh] at isFound
    cases isFound
  have kept : ∀ other, id ≠ other ->
      (node.begun id readOnly timeout undo).registry[other]? = node.registry[other]? := by
    intro other different
    show (node.register id (node.newHandle readOnly timeout))[other]? = _
    unfold register
    split
    · rfl
    · exact lookup_insert_of_ne _ _ different
  refine ⟨inv.noGc, ?_, ?_, ?_, ?_⟩
  · intro other found row lookup isHand
    rcases lookup_insert_cases lookup with ⟨_, isNew⟩ | ⟨_, old⟩
    · subst isNew
      cases isHand
    · exact inv.hands other found row old isHand
  · intro other pending entry
    by_cases mine : id = other
    · exact ⟨_, (lookup_insert _ _ _ _).trans (if_pos mine)⟩
    · rw [kept other mine] at entry
      rcases inv.entries other pending entry with ⟨found, isFound⟩
      exact ⟨found, (lookup_insert_of_ne _ _ mine).trans isFound⟩
  · intro pass other running member
    rcases inv.expired pass other running member with ⟨⟨found, isFound⟩, passed⟩
    have different := other_ne other ⟨found, isFound⟩
    refine ⟨⟨found, (lookup_insert_of_ne _ _ different).trans isFound⟩, ?_⟩
    intro pending entry
    rw [kept other different] at entry
    exact passed pending entry
  · intro other key intent
    rcases inv.intents other key intent with ⟨found, pending, accounts⟩
    have different := other_ne other ⟨found, accounts.present⟩
    exact ⟨found, pending, (lookup_insert_of_ne _ _ different).trans accounts.present,
      (kept other different).trans accounts.entry, accounts.modified, accounts.mayHold,
      accounts.registered⟩

theorem inserts {row : Row Value} (present : node.handles[id]? = some handle)
    (stage : handle.stage = .inserting key row) (registered : node.registry.contains id = true)
    (free : node.reaping ≠ some id) :
    Accounted ((node.setTree id key (node.tree.insert key row)).setStage id { handle with
        modified := handle.modified.insert key
        placed := handle.placed.insert key row } (.recording key)) := by
  have owned : row.ownedBy id = true := by
    apply inv.hands id handle row present
    unfold intentInHand
    rw [stage]
  refine inv.frame rfl rfl rfl rfl nofun (fun _ pending entry => ⟨pending, entry, rfl⟩) ?_
  rintro other written ⟨stored, isStored, isOwned⟩
  rcases lookup_insert_cases isStored with ⟨rfl, rfl⟩ | ⟨_, before⟩
  · have isOwner : other = id :=
      ((Row.ownedBy_iff _ _).mp isOwned).2.symm.trans ((Row.ownedBy_iff _ _).mp owned).2
    subst isOwner
    rw [Std.TreeMap.contains_eq_isSome_getElem?] at registered
    rcases isSome_iff_exists.mp registered with ⟨pending, entry⟩
    refine ⟨_, pending, Std.TreeMap.getElem?_insert_self, entry, ?_, trivial, .inr ⟨rfl, free⟩⟩
    exact Std.TreeSet.mem_insert_self
  · rcases inv.intents other written ⟨stored, before, isOwned⟩ with ⟨found, pending, accounts⟩
    by_cases mine : id = other
    · subst mine
      cases present.symm.trans accounts.present
      refine ⟨_, pending, Std.TreeMap.getElem?_insert_self, accounts.entry, ?_, trivial, ?_⟩
      · exact Std.TreeSet.mem_insert.mpr (.inr accounts.modified)
      · rcases accounts.registered with known | ⟨recording, _⟩
        · exact .inl known
        · rw [stage] at recording
          cases recording
    · exact ⟨found, pending, (lookup_insert_of_ne _ _ mine).trans accounts.present, accounts.entry,
        accounts.modified, accounts.mayHold, accounts.registered⟩

theorem records (present : node.handles[id]? = some handle)
    (stage : handle.stage = .recording key) :
    Accounted ((node.registerWrite id key).setStage id handle .active) := by
  have entry_after : ∀ other, (node.registry.modify id (fun pending : PendingTxn =>
      { pending with writeKeys := pending.writeKeys.insert key }))[other]? =
        if id = other then node.registry[other]?.map (fun pending =>
          { pending with writeKeys := pending.writeKeys.insert key }) else node.registry[other]? := by
    intro other
    rw [Std.TreeMap.getElem?_modify]
    simp only [Std.LawfulEqCmp.compare_eq_iff_eq]
    split
    · next same =>
      subst same
      rfl
    · rfl
  have entry_before : ∀ (other : TxnId) pending, (node.registry.modify id (fun pending : PendingTxn =>
      { pending with writeKeys := pending.writeKeys.insert key }))[other]? = some pending ->
        ∃ before, node.registry[other]? = some before ∧ before.deadline = pending.deadline := by
    intro other pending entry
    rw [entry_after] at entry
    split at entry
    · rcases map_eq_some_iff.mp entry with ⟨before, isBefore, rfl⟩
      exact ⟨before, isBefore, rfl⟩
    · exact ⟨pending, entry, rfl⟩
  refine inv.frame rfl rfl rfl rfl nofun entry_before ?_
  intro other written intent
  rcases inv.intents other written intent with ⟨found, pending, accounts⟩
  by_cases mine : id = other
  · subst mine
    cases present.symm.trans accounts.present
    refine ⟨_, { pending with writeKeys := pending.writeKeys.insert key },
      Std.TreeMap.getElem?_insert_self, ?_, accounts.modified, trivial, .inl ⟨?_, ?_⟩⟩
    · refine (entry_after id).trans ?_
      rw [if_pos rfl, accounts.entry, map_some]
    · rcases accounts.registered with ⟨known, _⟩ | ⟨recording, _⟩
      · exact Std.TreeSet.mem_insert.mpr (.inr known)
      · rw [stage] at recording
        cases recording
        exact Std.TreeSet.mem_insert_self
    · rcases accounts.registered with ⟨_, knows⟩ | ⟨_, free⟩
      · exact knows
      · intro _ _ _ running
        exact absurd (reaping_of_reaper running) free
  · refine ⟨found, pending, (lookup_insert_of_ne _ _ mine).trans accounts.present, ?_,
      accounts.modified, accounts.mayHold, accounts.registered⟩
    refine (entry_after other).trans ?_
    rw [if_neg mine]
    exact accounts.entry

end

variable {fuel : Nat} {stands : ResolveAt Value} {rest : List Key} {expired : List TxnId}
  {stage : Stage Value}

theorem no_intent_of_skipped (skipped : node.resolveStep id key fuel stands = some .skipped)
    (admitted : node.resolvable id key fuel stands = true) : ¬node.IntentAt id key := by
  rintro ⟨_, stored, owned⟩
  cases stands with
  | reading =>
    unfold resolveStep at skipped
    rw [stored] at skipped
    dsimp only at skipped
    rw [if_pos owned] at skipped
    rcases map_eq_some_iff.mp skipped with ⟨_, _, shape⟩
    split at shape <;> cases shape
  | decided =>
    unfold resolvable at admitted
    dsimp only at admitted
    rw [stored, all_some, owned, Bool.not_true, Bool.false_or] at admitted
    unfold resolveStep at skipped
    dsimp only at skipped
    rw [stored, any_some, if_pos admitted] at skipped
    cases skipped
  | checked => cases skipped

/-- No intent is left at a key that has been restored, and no other is made. -/
theorem intents_of_restore {point : Option (UndoRecord Value)} {other : TxnId} {written : Key}
    (tree : next.tree = restore node.tree key point) (intent : next.IntentAt other written) :
    key ≠ written ∧ node.IntentAt other written := by
  rcases intent with ⟨row, stored, owned⟩
  rw [tree] at stored
  by_cases same : key = written
  · subst same
    have version := restore_version stored
    rw [((Row.ownedBy_iff _ _).mp owned).1] at version
    cases version
  · rw [restore_elsewhere point same] at stored
    exact ⟨same, row, stored, owned⟩

theorem resolvable_of_abort (present : node.handles[id]? = some handle)
    (stage : handle.stage = .resolving stands (key :: rest))
    (admitted : node.abortResolves id fuel = true) : node.resolvable id key fuel stands = true := by
  unfold abortResolves at admitted
  rw [present, map_some, stage] at admitted
  exact admitted

theorem resolvable_of_reaper
    (running : node.reaper = some ⟨expired, some ⟨id, key :: rest, stands⟩⟩)
    (admitted : node.reaperResolves fuel = true) : node.resolvable id key fuel stands = true := by
  unfold reaperResolves at admitted
  rw [running] at admitted
  exact admitted

theorem not_error (failed : node.resolveStep id key fuel stands = some .error)
    (admitted : node.resolvable id key fuel stands = true) : False := by
  cases stands with
  | reading =>
    unfold resolvable at admitted
    rw [failed] at admitted
    cases admitted
  | decided =>
    unfold resolveStep at failed
    dsimp only at failed
    split at failed <;> cases failed
  | checked => cases failed

section

variable (inv : Accounted node) {action : Action Value}

include inv

theorem goes_on (present : node.handles[id]? = some handle) (was : handle.stage = before)
    (handles : next.handles = node.handles.insert id after)
    (tree : next.tree = node.tree) (registry : next.registry = node.registry)
    (reaper : next.reaper = node.reaper) (now : next.now = node.now) (gc : next.gc = node.gc)
    (unrecorded : ∀ key, before ≠ .recording key) (modified : after.modified = handle.modified)
    (mayHold : ∀ key, node.IntentAt id key -> MayHold before key -> key ∈ handle.modified ->
      MayHold after.stage key)
    (hand : ∀ row, intentInHand after = some row -> row.ownedBy id = true) : Accounted next := by
  have same : ∀ other key, next.IntentAt other key -> node.IntentAt other key := by
    unfold IntentAt
    rw [tree]
    exact fun _ _ intent => intent
  exact inv.replaces handles reaper now gc hand present was same (keepsEntries_of_same registry) unrecorded
    modified (fun key intent => mayHold key (same id key intent))

theorem quits {outcome : Outcome} (quitting : Quits node action id handle outcome) :
    Accounted (node.endHandle id handle outcome) := by
  cases quitting with
  | dropped present stage | closed present stage | unstarted present stage | unstamped present stage
  | lost present stage | unsealed present stage | rejected present stage =>
    exact inv.goes_on present stage rfl rfl rfl rfl rfl rfl nofun rfl (fun _ _ _ _ => trivial) nofun

theorem takes {rest : List TxnId} (running : node.reaper = some ⟨id :: rest, none⟩)
    (isKeys : keys = [] ∧ (∀ pending, node.registry[id]? = some pending ->
        node.now < pending.deadline) ∨
      ∃ pending, node.registry[id]? = some pending ∧ pending.deadline ≤ node.now ∧
        keys = pending.writeKeys.toList)
    (admitted : node.reaperMeetsRecorded = true) :
    Accounted { node with reaper := some ⟨rest, some ⟨id, keys, .reading⟩⟩ } := by
  rcases inv.expired _ id running mem_cons_self with ⟨_, passed⟩
  have recorded : ∀ handle key, node.handles[id]? = some handle -> handle.stage ≠ .recording key := by
    intro handle key present recording
    unfold reaperMeetsRecorded at admitted
    rw [running] at admitted
    dsimp only at admitted
    rw [present, map_some, recording] at admitted
    cases admitted
  refine ⟨inv.noGc, inv.hands, inv.entries, ?_, ?_⟩
  · intro _ other isPass member
    cases isPass
    exact inv.expired _ other running (mem_cons_of_mem _ member)
  · intro other key intent
    rcases inv.intents other key intent with ⟨found, pending, accounts⟩
    refine ⟨found, pending, accounts.present, accounts.entry, accounts.modified, accounts.mayHold, ?_⟩
    by_cases mine : id = other
    · subst mine
      rcases accounts.registered with ⟨known, _⟩ | ⟨recording, _⟩
      · refine .inl ⟨known, ?_⟩
        intro expired _ _ isPass
        cases isPass
        rcases isKeys with ⟨_, ahead⟩ | ⟨entry, isEntry, _, isList⟩
        · exact absurd (passed pending accounts.entry) (not_le_of_gt (ahead pending accounts.entry))
        · cases isEntry.symm.trans accounts.entry
          rw [isList]
          exact Std.TreeSet.mem_toList.mpr known
      · exact absurd recording (recorded found key accounts.present)
    · rcases accounts.registered with ⟨known, _⟩ | ⟨recording, _⟩
      · refine .inl ⟨known, ?_⟩
        intro expired _ _ isPass
        cases isPass
        exact absurd rfl mine
      · refine .inr ⟨recording, ?_⟩
        intro busy
        cases busy
        exact mine rfl

theorem reaper_goes_on {left : List Key} {afterwards : ResolveAt Value}
    (running : node.reaper = some ⟨expired, some ⟨id, keys, stands⟩⟩)
    (isNext : next.reaper = some ⟨expired, some ⟨id, left, afterwards⟩⟩)
    (handles : next.handles = node.handles)
    (tree : ∀ other key, next.IntentAt other key -> node.IntentAt other key)
    (registry : next.registry = node.registry) (now : next.now = node.now) (gc : next.gc = node.gc)
    (passed : ∀ key, next.IntentAt id key -> key ∈ keys -> key ∈ left) : Accounted next := by
  refine inv.reaps handles tree (keepsEntries_of_same registry) (le_of_eq now.symm) gc ?_ ?_ ?_
  · intro _ other isPass member
    cases isNext.symm.trans isPass
    exact ⟨_, running, member⟩
  · intro other key intent knows _ _ _ isPass
    cases isNext.symm.trans isPass
    exact passed key intent (knows _ _ _ running)
  · intro other busy
    rw [reaping_of_reaper running, ← busy, reaping_of_reaper isNext]

omit inv in
theorem created (sequencer : Sequencer) (defaultTimeout : Nat) :
    Accounted (ComputeNode.created sequencer defaultTimeout : ComputeNode Value) := by
  refine ⟨rfl, ?_, ?_, ?_, ?_⟩
  · intro _ _ _ present
    cases present.symm.trans Std.TreeMap.getElem?_emptyc
  · intro _ _ entry
    cases entry.symm.trans Std.TreeMap.getElem?_emptyc
  · nofun
  · rintro _ _ ⟨_, stored, _⟩
    cases stored.symm.trans Std.TreeMap.getElem?_emptyc

theorem step (admitted : intentsKnown node action)
    (taken : node.step action = some next) : Accounted next := by
  cases moves_of_step taken with
  | ticks => exact inv.same rfl rfl rfl rfl (Nat.le_succ _) rfl
  | directRefused | directReserves | directShips => exact inv.same rfl rfl rfl rfl le_rfl rfl
  | begins fresh => exact inv.begins fresh
  | @reads _ id handle _ _ result present stage =>
    refine inv.goes_on present stage rfl rfl rfl rfl rfl rfl nofun ?_ ?_ ?_
    · cases result <;> rfl
    · intro key _ before _
      cases result <;> exact stage ▸ before
    · intro row isHand
      apply inv.hands id handle row present
      cases result <;> exact isHand
  | idles _ present stage =>
    exact inv.goes_on present stage rfl rfl rfl rfl rfl rfl nofun rfl (fun _ _ _ _ => trivial) nofun
  | writes _ present stage _ made =>
    refine inv.goes_on present stage rfl rfl rfl rfl rfl rfl nofun rfl (fun _ _ _ _ => trivial) ?_
    intro row isHand
    cases isHand
    exact (Embedded.intentRow_eq_ok made).1
  | inserts present stage => exact inv.inserts present stage admitted.1 admitted.2
  | records present stage => exact inv.records present stage
  | quits quitting => exact inv.quits quitting
  | commits present stage | misses present stage =>
    exact inv.goes_on present stage rfl rfl rfl rfl rfl rfl nofun rfl (fun _ _ _ _ => trivial) nofun
  | prestampReads present stage _ owned =>
    refine inv.goes_on present stage rfl rfl rfl rfl rfl rfl nofun rfl (fun _ _ _ _ => trivial) ?_
    intro row isHand
    cases isHand
    exact owned
  | @prestamps id handle _ _ _ row present stage =>
    have meets : node.prestampMeetsIntent id = true := admitted
    unfold prestampMeetsIntent at meets
    rw [present, map_some, stage] at meets
    rcases (any_eq_true _ _).mp meets with ⟨current, stored, owned⟩
    have handOwned : row.ownedBy id = true := by
      apply inv.hands id handle row present
      unfold intentInHand
      rw [stage]
    refine inv.replaces rfl rfl rfl rfl nofun present stage ?_ (keepsEntries_of_same rfl) nofun rfl
      (fun _ _ _ _ => trivial)
    rintro other _ ⟨found, isFound, isOwned⟩
    rcases lookup_insert_cases isFound with ⟨rfl, rfl⟩ | ⟨_, before⟩
    · have isOwner : other = id :=
        ((Row.ownedBy_iff _ _).mp isOwned).2.symm.trans ((Row.ownedBy_iff _ _).mp handOwned).2
      subst isOwner
      exact ⟨current, stored, owned⟩
    · exact ⟨found, before, isOwned⟩
  | reserves present stage | aborts present stage =>
    exact inv.goes_on present stage rfl rfl rfl rfl rfl rfl nofun rfl
      (fun _ _ _ modified => Std.TreeSet.mem_toList.mpr modified) nofun
  | stampReads present stage | resolveStands present stage =>
    exact inv.goes_on present stage rfl rfl rfl rfl rfl rfl nofun rfl (fun _ _ before _ => before) nofun
  | stampSkips present stage missing =>
    refine inv.goes_on present stage rfl rfl rfl rfl rfl rfl nofun rfl ?_ nofun
    rintro _ ⟨_, stored, _⟩ before _
    rcases mem_cons.mp before with rfl | later
    · cases missing.symm.trans stored
    · exact later
  | @stamps _ _ _ _ _ _ _ _ present stage =>
    refine inv.replaces rfl rfl rfl rfl nofun present stage ?_ (keepsEntries_of_same rfl) nofun rfl ?_
    · rintro _ _ ⟨found, isFound, isOwned⟩
      rcases lookup_insert_cases isFound with ⟨_, rfl⟩ | ⟨_, before⟩
      · cases ((Row.ownedBy_iff _ _).mp isOwned).1
      · exact ⟨found, before, isOwned⟩
    · rintro _ ⟨_, isFound, isOwned⟩ before _
      rcases mem_cons.mp before with rfl | later
      · rcases lookup_insert_cases isFound with ⟨_, rfl⟩ | ⟨different, _⟩
        · cases ((Row.ownedBy_iff _ _).mp isOwned).1
        · exact absurd rfl different
      · exact later
  | ships present stage | resolveEnds present stage =>
    exact inv.goes_on present stage rfl rfl rfl rfl rfl rfl nofun rfl nofun nofun
  | @resolveSkips _ _ _ _ _ _ present stage skipped =>
    have resolves := resolvable_of_abort present stage admitted
    refine inv.goes_on present stage rfl rfl rfl rfl rfl rfl nofun rfl ?_ nofun
    intro _ intent before _
    rcases mem_cons.mp before with rfl | later
    · exact absurd intent (no_intent_of_skipped skipped resolves)
    · exact later
  | @restores _ _ _ _ _ _ present stage =>
    refine inv.replaces rfl rfl rfl rfl nofun present stage
      (fun _ _ intent => (intents_of_restore rfl intent).2) (keepsEntries_of_same rfl) nofun rfl ?_
    intro _ intent before _
    exact (mem_cons.mp before).resolve_left (Ne.symm (intents_of_restore rfl intent).1)
  | resolveFails present stage failed =>
    exact (not_error failed (resolvable_of_abort present stage admitted)).elim
  | @finishes id _ _ present stage =>
    refine inv.replaces rfl rfl rfl rfl nofun present stage (fun _ _ intent => intent)
      (keepsEntries_of_erase rfl ?_) nofun rfl (fun _ _ _ _ => trivial)
    intro key intent
    rcases inv.intents id key intent with ⟨_, _, accounts⟩
    cases present.symm.trans accounts.present
    have mayHold := accounts.mayHold
    rw [stage] at mayHold
    exact mayHold
  | @reapStarts _ _ isExpired =>
    refine ⟨inv.noGc, inv.hands, inv.entries, ?_, ?_⟩
    · intro _ id isPass member
      cases isPass
      rw [isExpired] at member
      rcases mem_map.mp member with ⟨_, inside, rfl⟩
      rcases mem_filter.mp inside with ⟨stored, passed⟩
      have found := Std.TreeMap.mem_toList_iff_getElem?_eq_some.mp stored
      refine ⟨inv.entries _ _ found, ?_⟩
      intro pending isPending
      cases found.symm.trans isPending
      exact of_decide_eq_true passed
    · intro other key intent
      rcases inv.intents other key intent with ⟨found, pending, accounts⟩
      refine ⟨found, pending, accounts.present, accounts.entry, accounts.modified, accounts.mayHold, ?_⟩
      rcases accounts.registered with ⟨known, _⟩ | ⟨recording, _⟩
      · refine .inl ⟨known, ?_⟩
        nofun
      · refine .inr ⟨recording, ?_⟩
        nofun
  | reapTakes running isKeys => exact inv.takes running isKeys admitted
  | reapStands running =>
    exact inv.reaper_goes_on running rfl rfl (fun _ _ intent => intent) rfl rfl rfl
      (fun _ _ member => member)
  | @reapSkips _ _ _ _ _ _ running skipped =>
    have resolves := resolvable_of_reaper running admitted
    refine inv.reaper_goes_on running rfl rfl (fun _ _ intent => intent) rfl rfl rfl ?_
    intro _ intent member
    rcases mem_cons.mp member with rfl | later
    · exact absurd intent (no_intent_of_skipped skipped resolves)
    · exact later
  | @reapRestores _ _ _ _ _ _ running =>
    refine inv.reaper_goes_on running rfl rfl (fun _ _ intent => (intents_of_restore rfl intent).2)
      rfl rfl rfl ?_
    intro _ intent member
    exact (mem_cons.mp member).resolve_left (Ne.symm (intents_of_restore rfl intent).1)
  | reapFails running failed =>
    exact (not_error failed (resolvable_of_reaper running admitted)).elim
  | @reapRemoves _ id _ _ running isReaper =>
    have nothing : ∀ key, ¬node.IntentAt id key := by
      intro key intent
      rcases inv.intents id key intent with ⟨_, _, accounts⟩
      rcases accounts.registered with ⟨_, knows⟩ | ⟨_, free⟩
      · cases knows _ _ _ running
      · exact free (reaping_of_reaper running)
    refine inv.reaps rfl (fun _ _ intent => intent) (keepsEntries_of_erase rfl nothing)
      le_rfl rfl ?_ ?_ ?_
    · intro _ other isPass member
      rcases isReaper with rfl | rfl
      · cases isPass
      · cases isPass
        exact ⟨_, running, member⟩
    · intro other key _ _ _ _ _ isPass
      rcases isReaper with rfl | rfl <;> cases isPass
    · intro other busy
      rcases isReaper with rfl | rfl <;> cases busy
  | gcStarts => exact admitted.elim
  | gcRemoves running | gcUpdates running | gcFails running =>
    rw [inv.noGc] at running
    cases running
  | gcRefused ready | gcReserves ready | gcReturns ready | gcPurges ready | gcMisses ready =>
    have running := (gcReady_eq_some ready).1
    rw [inv.noGc] at running
    cases running

end

end Accounted

/-! ## Between the calls every intent has an owner -/

end ComputeNode

end Compute
end ScaleKv
