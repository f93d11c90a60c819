import ScaleKv.Common
import ScaleKv.Foundation.OrderedMap

namespace ScaleKv
namespace TxnKv

/-!
# The transaction manager of `txn_kv`

`TxnManager` keeps every committed version of a key in memory and gives each
transaction the value of the commit counter at its start as read timestamp.
A commit takes one lock, checks for conflicts, draws its timestamp from the
counter, appends to the log and only then publishes its write set.  These
steps are separate here, because other transactions run between them.

The clock is not modelled.  Every operation that first checks its timeout
takes the verdict of the clock as an argument, so a run may time out anywhere.
-/

/-- `Vec<u8>`, at most `VALUE_SIZE` bytes long once it is in a write set. -/
abbrev Value := Bytes

/-- One committed version of a key; `none` is a delete. -/
structure Version where
  commitTs : Nat
  value : Option Value
deriving DecidableEq

/-- `BTreeMap<Key, Vec<Version>>`. -/
abbrev Store := Std.TreeMap Key (List Version)

/-- `HashMap<Key, Option<Value>>`.  No function of the manager depends on the
iteration order, hence an ordered map represents it. -/
abbrev WriteSet := Std.TreeMap Key (Option Value)

inductive TxnError
  | io (message : String)
  | invalidKeySize (actual expected : Nat)
  | invalidValueSize (actual expected : Nat)
  | writeWriteConflict
  | corruptWal (message : String)
  | quorumNotMet (required succeeded : Nat)
  | invalidQuorum (quorum replicas : Nat)
  | txnTimeout
deriving DecidableEq

/-- What a call does when its body may panic. -/
inductive Outcome (Result : Type)
  | returned (result : Except TxnError Result)
  | panicked

/-- The versions of a key, empty when the key was never committed. -/
def versionsOf (store : Store) (key : Key) : List Version := store.getD key []

/-- `versions.iter().rfind(|v| v.commit_ts <= read_ts)`. -/
def visibleVersion (versions : List Version) (readTs : Nat) : Option Version :=
  versions.reverse.find? (fun version => version.commitTs ≤ readTs)

def readAtTs (store : Store) (key : Key) (readTs : Nat) : Option Value :=
  (visibleVersion (versionsOf store key) readTs).bind Version.value

def parseKey (key : Bytes) : Except TxnError Key :=
  if length_eq : key.length = keySize then .ok ⟨key, length_eq⟩
  else .error (.invalidKeySize key.length keySize)

structure Txn where
  readTs : Nat
  readOnly : Bool
  writeSet : WriteSet

namespace Txn

def ensureNotTimedOut (timedOut : Bool) : Except TxnError Unit :=
  if timedOut then .error .txnTimeout else .ok ()

/-- The value a transaction sees: its own write if it has one, else the newest
version that is not younger than its read timestamp. -/
def read (txn : Txn) (store : Store) (key : Key) : Option Value :=
  txn.writeSet[key]?.getD (readAtTs store key txn.readTs)

def get (txn : Txn) (store : Store) (timedOut : Bool) (key : Bytes) :
    Except TxnError (Key × Option Value) := do
  ensureNotTimedOut timedOut
  let key <- parseKey key
  return (key, txn.read store key)

def put (txn : Txn) (timedOut : Bool) (key value : Bytes) : Except TxnError (Key × Txn) := do
  ensureNotTimedOut timedOut
  let key <- parseKey key
  if value.length > valueSize then throw (.invalidValueSize value.length valueSize)
  return (key, { txn with writeSet := txn.writeSet.insert key (some value) })

def delete (txn : Txn) (timedOut : Bool) (key : Bytes) : Except TxnError (Key × Txn) := do
  ensureNotTimedOut timedOut
  let key <- parseKey key
  return (key, { txn with writeSet := txn.writeSet.insert key none })

/-- The part of `scan` behind its argument checks: the visible versions of the
range, overlaid with the transaction's own writes, in key order. -/
def scanRange (txn : Txn) (store : Store) (start finish : Key) : Std.TreeMap Key Value :=
  let stored := (store.toList.filter (fun entry => start ≤ entry.1 ∧ entry.1 < finish)).foldl
    (fun merged entry =>
      match (visibleVersion entry.2 txn.readTs).bind Version.value with
      | some value => merged.insert entry.1 value
      | none => merged)
    (∅ : Std.TreeMap Key Value)
  (txn.writeSet.toList.filter (fun write => start ≤ write.1 ∧ write.1 < finish)).foldl
    (fun merged write =>
      match write.2 with
      | some value => merged.insert write.1 value
      | none => merged.erase write.1)
    stored

/-- `BTreeMap::range` panics when its start lies behind its end, unless the map has
never been filled.  No key is ever taken out of the store. -/
def scan (txn : Txn) (store : Store) (timedOut : Bool) (startInclusive endExclusive : Bytes)
    (limit : Nat) : Outcome (List (Key × Value)) :=
  match ensureNotTimedOut timedOut with
  | .error error => .returned (.error error)
  | .ok () =>
    if limit = 0 then .returned (.ok [])
    else
      match parseKey startInclusive, parseKey endExclusive with
      | .error error, _ => .returned (.error error)
      | .ok _, .error error => .returned (.error error)
      | .ok start, .ok finish =>
        if start = finish then .returned (.ok [])
        else if finish < start ∧ store.isEmpty = false then .panicked
        else .returned (.ok ((txn.scanRange store start finish).toList.take limit))

/-- A transaction that writes one key. -/
def writing (readTs : Nat) (key : Key) (value : Value) : Txn :=
  { readTs := readTs, readOnly := false, writeSet := (∅ : WriteSet).insert key (some value) }

/-- The conflict check of `commit`: some key of the write set has a last
version that is younger than the read timestamp. -/
def conflicts (txn : Txn) (store : Store) : Bool :=
  txn.writeSet.keys.any (fun key =>
    (versionsOf store key).getLast?.any (fun last => txn.readTs < last.commitTs))

end Txn

/-- `store.entry(key).or_default().push(version)` for every operation. -/
def pushVersions (store : Store) (commitTs : Nat) (ops : List (Key × Option Value)) : Store :=
  ops.foldl
    (fun current op => current.insert op.1 (versionsOf current op.1 ++ [⟨commitTs, op.2⟩]))
    store

/-- Push one version for every key of the write set. -/
def publishWrites (store : Store) (commitTs : Nat) (writeSet : WriteSet) : Store :=
  pushVersions store commitTs writeSet.toList

theorem versionsOf_insert (store : Store) (written key : Key) (versions : List Version) :
    versionsOf (store.insert written versions) key =
      if written = key then versions else versionsOf store key := by
  unfold versionsOf
  rw [Std.TreeMap.getD_insert]
  simp only [compare_eq_iff_eq]

theorem versionsOf_pushVersions (store : Store) (commitTs : Nat) (ops : List (Key × Option Value))
    (key : Key) (distinct : ops.Pairwise (fun left right => left.1 ≠ right.1)) :
    versionsOf (pushVersions store commitTs ops) key =
      versionsOf store key ++
        ((ops.find? (fun op => op.1 = key)).map (fun op => (⟨commitTs, op.2⟩ : Version))).toList := by
  unfold pushVersions versionsOf
  rw [Std.TreeMap.getD_eq_getD_getElem?, Std.TreeMap.getD_eq_getD_getElem?,
    @Foundation.OrderedMap.lookup_foldl _ _ _ _ _ _ (fun value found =>
      some (found.getD [] ++ [⟨commitTs, value⟩])) _ distinct ?_]
  · cases ops.find? (fun op => op.1 = key) <;> simp
  · intro current op key
    rw [Foundation.OrderedMap.lookup_insert, Std.TreeMap.getD_eq_getD_getElem?]
    split
    · next same => rw [same]
    · rfl

theorem versionsOf_publishWrites (store : Store) (commitTs : Nat) (writeSet : WriteSet)
    (key : Key) :
    versionsOf (publishWrites store commitTs writeSet) key =
      versionsOf store key ++ (writeSet[key]?.map (fun value => (⟨commitTs, value⟩ : Version))).toList := by
  rw [publishWrites,
    versionsOf_pushVersions _ _ _ _ (Foundation.OrderedMap.toList_distinct writeSet),
    Foundation.OrderedMap.find_toList, Option.map_map]
  rfl

/-! ## The interleaved system -/

abbrev TxnId := Nat

/-- Where a transaction stands.  `queued` has called `commit` and waits for the
commit lock; the three phases that follow hold it. -/
inductive Phase
  | active
  | queued
  | checked
  | allocated (commitTs : Nat)
  | appended (commitTs : Nat)
  | committed (result : Nat)
  | failed (error : TxnError)
deriving DecidableEq

/-- A transaction with its phase.  The last three fields record the past and
are read by no operation: the results of its gets since it last wrote the key,
the store when it began, and the transactions published by then. -/
structure Record where
  txn : Txn
  phase : Phase
  reads : List (Key × Option Value)
  storeAtBegin : Store
  publishedAtBegin : List TxnId

/-- `TxnManagerInner` together with the transactions begun so far. -/
structure State where
  store : Store
  commitTs : Nat
  lock : Option TxnId
  txns : Std.TreeMap TxnId Record
  published : List TxnId

/-- `open_with_storage`, after the snapshot and the log have been replayed. -/
def State.opened (store : Store) (maxTs : Nat) : State :=
  { store := store, commitTs := maxTs, lock := none, txns := ∅, published := [] }

inductive Action
  | begin (id : TxnId) (readOnly : Bool)
  | get (id : TxnId) (timedOut : Bool) (key : Bytes)
  | put (id : TxnId) (timedOut : Bool) (key value : Bytes)
  | delete (id : TxnId) (timedOut : Bool) (key : Bytes)
  | scan (id : TxnId) (timedOut : Bool) (startInclusive endExclusive : Bytes) (limit : Nat)
  | commit (id : TxnId) (timedOut : Bool)
  | lockAndCheck (id : TxnId)
  | allocate (id : TxnId)
  | append (id : TxnId)
  | publish (id : TxnId)

namespace State

/-- `TxnManager::begin_tx`. -/
def beginTx (state : State) (readOnly : Bool) : Record :=
  { txn := { readTs := state.commitTs, readOnly := readOnly, writeSet := ∅ }
    phase := .active
    reads := []
    storeAtBegin := state.store
    publishedAtBegin := state.published }

def setRecord (state : State) (id : TxnId) (record : Record) : State :=
  { state with txns := state.txns.insert id record }

/-- The end of `commit`: append the versions, drop the commit lock, answer. -/
def publish (state : State) (id : TxnId) (record : Record) (commitTs : Nat) : State :=
  { state.setRecord id { record with phase := .committed commitTs } with
    store := publishWrites state.store commitTs record.txn.writeSet
    lock := none
    published := id :: state.published }

/-- The record of a transaction that the caller still holds. -/
def activeRecord (state : State) (id : TxnId) : Option Record :=
  match state.txns[id]? with
  | some record => if record.phase = .active then some record else none
  | none => none

end State

/-- A get adds its result to the record; a write of the key starts its list of
results afresh. -/
def Record.observe (record : Record) (result : Except TxnError (Key × Option Value)) : Record :=
  match result with
  | .ok seen => { record with reads := seen :: record.reads }
  | .error _ => record

def Record.wrote (record : Record) (result : Except TxnError (Key × Txn)) : Record :=
  match result with
  | .ok (key, txn) =>
    { record with txn := txn, reads := record.reads.filter (fun seen => seen.1 ≠ key) }
  | .error _ => record

/-- One step of the manager.  An operation that fails leaves the transaction as
it was, except `commit`, which consumes it.  A scan only reads; even when it
panics, it holds nothing but a read lock, which a panic does not poison. -/
def step (state : State) : Action -> Option State
  | .begin id readOnly =>
    if state.txns.contains id then none
    else some (state.setRecord id (state.beginTx readOnly))
  | .get id timedOut key => do
      let record <- state.activeRecord id
      return state.setRecord id (record.observe (record.txn.get state.store timedOut key))
  | .put id timedOut key value => do
      let record <- state.activeRecord id
      return state.setRecord id (record.wrote (record.txn.put timedOut key value))
  | .delete id timedOut key => do
      let record <- state.activeRecord id
      return state.setRecord id (record.wrote (record.txn.delete timedOut key))
  | .scan id _ _ _ _ => do
      let _record <- state.activeRecord id
      return state
  | .commit id timedOut => do
      let record <- state.activeRecord id
      if timedOut then
        return state.setRecord id { record with phase := .failed .txnTimeout }
      else if record.txn.readOnly || record.txn.writeSet.isEmpty then
        return state.setRecord id { record with phase := .committed record.txn.readTs }
      else
        return state.setRecord id { record with phase := .queued }
  | .lockAndCheck id => do
      let record <- state.txns[id]?
      if record.phase = .queued ∧ state.lock = none then
        if record.txn.conflicts state.store then
          return state.setRecord id { record with phase := .failed .writeWriteConflict }
        else
          return { state.setRecord id { record with phase := .checked } with lock := some id }
      else none
  | .allocate id => do
      let record <- state.txns[id]?
      if record.phase = .checked then
        let commitTs := state.commitTs + 1
        return { state.setRecord id { record with phase := .allocated commitTs } with
          commitTs := commitTs }
      else none
  | .append id => do
      let record <- state.txns[id]?
      match record.phase with
      | .allocated commitTs =>
        return state.setRecord id { record with phase := .appended commitTs }
      | _ => none
  | .publish id => do
      let record <- state.txns[id]?
      match record.phase with
      | .appended commitTs => return state.publish id record commitTs
      | _ => none

end TxnKv
end ScaleKv
