import ScaleKv.Compute.SnapshotReads
import ScaleKv.Foundation.BinarySearch

namespace ScaleKv
namespace Compute

open Foundation Std

/-!
# Secondary indexes

A secondary index maps the bytes of a fixed range of the row values to primary
keys.  For every pair of such a secondary key and a primary key it has a history
of postings with commit LSNs.  `put` and `delete` plan their changes from the
bytes of the row that they find in the tree; the commit applies the plans.

Commits and backfills append what they change to a chain of log pages that all
indexes share.  A restart sets up the indexes that the catalog page names and
applies the log to them record by record; if the log is empty it reads the rows
instead.

The index layer runs on top of the embedded system.  Between the moment that a
commit becomes durable and the moment that its plans are applied the task does
not give up control, so that both belong to the step that ships the batch.
-/

/-- `[u8; VALUE_SIZE]`. -/
structure RowValue where
  bytes : Bytes
  length_eq : bytes.length = valueSize
deriving DecidableEq

namespace RowValue

def slice (value : RowValue) (offset len : Nat) : Bytes := (value.bytes.drop offset).take len

/-- The value that starts with the given byte. -/
def startingWith (byte : UInt8) : RowValue :=
  ⟨byte :: List.replicate 1023 0, by rw [List.length_cons, List.length_replicate]; rfl⟩

end RowValue

/-- `SecondaryIndexMutation`. -/
structure Mutation where
  indexName : String
  secondaryKey : Bytes
  primaryKey : Key
  present : Bool

structure PostingVersion where
  commitLsn : Nat
  present : Bool

/-- `SecondaryIndexState`. -/
structure SecondaryIndex where
  valueOffset : Nat
  valueLen : Nat
  postings : TreeMap Bytes (TreeMap Key (List PostingVersion))

/-- `SecondaryIndexManager`. -/
abbrev Indexes := TreeMap String SecondaryIndex

/-! ## The index manager -/

namespace SecondaryIndex

/-- The secondary key of a row value. -/
def keyOf (index : SecondaryIndex) (value : RowValue) : Bytes :=
  value.slice index.valueOffset index.valueLen

/-- The part of `plan_mutations` for one index. -/
def plan (name : String) (index : SecondaryIndex) (primaryKey : Key)
    (oldValue newValue : Option RowValue) : List Mutation :=
  let oldKey := oldValue.map index.keyOf
  let newKey := newValue.map index.keyOf
  if oldKey = newKey then []
  else
    (oldKey.map (fun key => Mutation.mk name key primaryKey false)).toList ++
      (newKey.map (fun key => Mutation.mk name key primaryKey true)).toList

/-- A second mutation of one commit replaces the first. -/
def push (history : List PostingVersion) (commitLsn : Nat) (present : Bool) : List PostingVersion :=
  match history.getLast? with
  | some last =>
    if last.commitLsn = commitLsn then history.dropLast ++ [{ last with present := present }]
    else history ++ [⟨commitLsn, present⟩]
  | none => [⟨commitLsn, present⟩]

/-- The postings of a pair of keys. -/
def versions (index : SecondaryIndex) (secondaryKey : Bytes) (primaryKey : Key) : List PostingVersion :=
  ((index.postings[secondaryKey]?.getD ∅)[primaryKey]?).getD []

/-- The loop body of `apply_commit`. -/
def record (index : SecondaryIndex) (commitLsn : Nat) (mutation : Mutation) : SecondaryIndex :=
  { index with
    postings := index.postings.insert mutation.secondaryKey
      ((index.postings[mutation.secondaryKey]?.getD ∅).insert mutation.primaryKey
        (push (index.versions mutation.secondaryKey mutation.primaryKey) commitLsn mutation.present)) }

def visibleMembership (versions : List PostingVersion) (readLsn : Nat) : Bool :=
  match BinarySearch.partitionPoint
      (fun index => versions[index]?.any (fun version => version.commitLsn ≤ readLsn))
      versions.length 0 versions.length with
  | 0 => false
  | index + 1 => versions[index]?.any PostingVersion.present

end SecondaryIndex

namespace Indexes

/-- `create_btree_index`, without the backfill. -/
def createBtreeIndex (indexes : Indexes) (name : String) (valueOffset valueLen : Nat) :
    Except Error Indexes :=
  if name.isEmpty then .error (.io .invalidInput "index name must be non-empty")
  else if valueLen = 0 then .error (.io .invalidInput "value_len must be > 0")
  else if valueSize ≤ valueOffset ∨ valueSize < (valueOffset + valueLen) % 2 ^ 64 then
    .error (.io .invalidInput
      s!"secondary index range out of bounds: offset={valueOffset} len={valueLen} value_size={valueSize}")
  else if indexes.contains name then
    .error (.io .alreadyExists s!"secondary index already exists: {name}")
  else .ok (indexes.insert name ⟨valueOffset, valueLen, ∅⟩)

/-- What `encode_secondary_index_catalog` takes: its page has 59 bytes for each
definition behind a header of 38 bytes, and 48 of them for the name. -/
def encodable (indexes : Indexes) : Bool :=
  indexes.size ≤ (pageSize - 38) / 59 && indexes.keys.all (fun name => name.utf8ByteSize ≤ 48)

/-- `plan_mutations`.  The order of the indexes plays no role. -/
def planMutations (indexes : Indexes) (primaryKey : Key) (oldValue newValue : Option RowValue) :
    List Mutation :=
  indexes.toList.flatMap (fun entry => entry.2.plan entry.1 primaryKey oldValue newValue)

def applyCommit (indexes : Indexes) (commitLsn : Nat) (mutations : List Mutation) : Indexes :=
  mutations.foldl (fun applied mutation =>
    match applied[mutation.indexName]? with
    | none => applied
    | some index => applied.insert mutation.indexName (index.record commitLsn mutation)) indexes

/-- `query_equal`; the answer has room for `limit` keys from the start. -/
def queryEqual (indexes : Indexes) (indexName : String) (secondaryKey : Bytes) (readLsn limit : Nat) :
    Result (List Key) :=
  if limit = 0 then .ok []
  else
    match indexes[indexName]? with
    | none => .error (.error (.io .notFound s!"secondary index not found: {indexName}"))
    | some index =>
      if isizeMax < limit * keySize then .error .panicked
      else
        let byPk := index.postings[secondaryKey]?.getD ∅
        .ok (((byPk.toList.filter (fun entry =>
          SecondaryIndex.visibleMembership entry.2 readLsn)).map Prod.fst).take limit)

end Indexes

/-! ## The posting log -/

/-- A record of `decode_records`. -/
structure PostingRecord where
  commitLsn : Nat
  mutation : Mutation

namespace PostingRecord

/-- `rec_len`. -/
def length (record : PostingRecord) : Nat :=
  8 + 1 + 2 + record.mutation.indexName.utf8ByteSize + 2 + record.mutation.secondaryKey.length + keySize

/-- The errors of `append_record` on an empty page; its records begin at `OFF_DATA`,
which is 22. -/
def check (record : PostingRecord) : Except Error Unit :=
  if record.mutation.indexName.isEmpty ∨ 65535 < record.mutation.indexName.utf8ByteSize then
    .error (.io .invalidInput "invalid index name length")
  else if 65535 < record.mutation.secondaryKey.length then
    .error (.io .invalidInput "invalid secondary key length")
  else if pageSize < 22 + record.length then
    .error (.io .invalidInput "posting mutation record too large")
  else .ok ()

end PostingRecord

/-- The log in the order of its pages and of the records on them.  A record that
does not fit on the last page goes to a new one behind it. -/
abbrev PostingLog := List PostingRecord

/-- `append_secondary_posting_log`, and `build_secondary_log_pages` in a commit. -/
def PostingLog.append (log : PostingLog) (commitLsn : Nat) (mutations : List Mutation) :
    Except Error PostingLog := do
  let records := mutations.map (PostingRecord.mk commitLsn)
  records.forM PostingRecord.check
  return log ++ records

/-- `replay_secondary_posting_log`. -/
def Indexes.replay (indexes : Indexes) (log : PostingLog) : Indexes :=
  log.foldl (fun current record => current.applyCommit record.commitLsn [record.mutation]) indexes

/-- `replace_definitions` with the definitions of the indexes. -/
def Indexes.definitions (indexes : Indexes) : Indexes :=
  indexes.map (fun _ index => { index with postings := ∅ })

/-! ## The embedded system with indexes -/

structure Indexed where
  base : Embedded RowValue
  indexes : Indexes
  log : PostingLog
  /-- What the running `put` or `delete` of a transaction has planned. -/
  planned : TreeMap TxnId (List Mutation)
  mutations : TreeMap TxnId (List Mutation)

namespace Indexed

open Embedded

def created (sequencer : Sequencer) : Indexed :=
  { base := .created sequencer, indexes := ∅, log := [], planned := ∅, mutations := ∅ }

def durableLsn (state : Indexed) : Nat := state.base.sequencer.durableLsn

def plannedOf (state : Indexed) (id : TxnId) : List Mutation := state.planned[id]?.getD []

def mutationsOf (state : Indexed) (id : TxnId) : List Mutation := state.mutations[id]?.getD []

/-- The mutations go to the log and to the indexes. -/
def apply (state : Indexed) (commitLsn : Nat) (mutations : List Mutation) : Option Indexed := do
  let log <- (state.log.append commitLsn mutations).toOption
  return { state with log := log, indexes := state.indexes.applyCommit commitLsn mutations }

/-- What a step of the embedded system does to the indexes and to the plans.  A
commit that cannot log its mutations fails before it reserves its batch; it is
not continued here. -/
def follow (state : Indexed) (base : Embedded RowValue) : Embedded.Action RowValue -> Option Indexed
  | .begin id _ => some { state with base := base, mutations := state.mutations.insert id [] }
  | .put id key value =>
    some { state with
      base := base
      planned := state.planned.insert id
        (state.indexes.planMutations key (state.base.tree[key]?.map Row.value) (some value)) }
  | .delete id key =>
    some { state with
      base := base
      planned := state.planned.insert id
        (state.indexes.planMutations key (state.base.tree[key]?.map Row.value) none) }
  | .insert id =>
    some { state with
      base := base
      mutations := state.mutations.insert id (state.mutationsOf id ++ state.plannedOf id) }
  | .ship id _ =>
    -- the commit has returned `Ok` if it is on record
    match base.commits.head? with
    | some info =>
      if base.commits.length = state.base.commits.length then some { state with base := base }
      else { state with base := base }.apply info.commitLsn (state.mutationsOf id)
    | none => some { state with base := base }
  | _ => some { state with base := base }

/-- `write_pages_direct`, if the batch is shipped. -/
def writePagesDirect (sequencer : Sequencer) (pages : Nat) : Option Sequencer :=
  if pages = 0 then some sequencer
  else
    let (requestId, allocated) := sequencer.allocateRequestId
    match allocated.reserveTxnWithRequestId pages requestId with
    | (.error _, _) => none
    | (.ok (_, endLsn), reserved) => some (setDurable reserved endLsn)

/-- The row as a snapshot reads it without following an undo pointer and without
waiting for a transaction. -/
def readAtOnce (readLsn : Nat) (row : Row RowValue) : Option (Option RowValue) :=
  match lookAt none readLsn (some row) with
  | .answer result => some result
  | _ => none

/-- The rows that a snapshot reads in this way. -/
def settledRows (base : Embedded RowValue) (readLsn : Nat) : List (Key × RowValue) :=
  base.tree.toList.filterMap (fun entry =>
    (readAtOnce readLsn entry.2).join.map (fun value => (entry.1, value)))

/-- What `backfill_secondary_index` plans. -/
def backfill (base : Embedded RowValue) (indexes : Indexes) (name : String) (readLsn : Nat) :
    List Mutation :=
  (settledRows base readLsn).flatMap (fun row =>
    (indexes.planMutations row.1 none (some row.2)).filter (fun mutation => mutation.indexName = name))

/-- `create_btree_secondary_index`: the index, the catalog page, and the backfill
with the batches of its posting log.  An index that the catalog does not take is
dropped again.  The call is modelled where its writes succeed, every row can be
read at once and the end of the range does not wrap. -/
def createIndex (state : Indexed) (name : String) (valueOffset valueLen : Nat) (logPages : List Nat) :
    Option Indexed := do
  let catalog <- writePagesDirect state.base.sequencer 1
  match state.indexes.createBtreeIndex name valueOffset valueLen with
  | .error _ => return state
  | .ok indexes =>
    if indexes.encodable = false then return state
    else if valueOffset + valueLen < 2 ^ 64 ∧
        state.base.tree.toList.all (fun entry => (readAtOnce catalog.durableLsn entry.2).isSome) then
      let sequencer <- logPages.foldlM writePagesDirect catalog
      { state with base := { state.base with sequencer := sequencer }, indexes := indexes }.apply
        catalog.durableLsn (backfill state.base indexes name catalog.durableLsn)
    else none

/-- `drop_secondary_index`, if its write succeeds. -/
def dropIndex (state : Indexed) (name : String) : Option Indexed :=
  if state.indexes.contains name then do
    let sequencer <- writePagesDirect state.base.sequencer 1
    return { state with
      base := { state.base with sequencer := sequencer }
      indexes := state.indexes.erase name }
  else some state

inductive Action
  | base (action : Embedded.Action RowValue)
  | createIndex (name : String) (valueOffset valueLen : Nat) (logPages : List Nat)
  | dropIndex (name : String)

def step (state : Indexed) : Action -> Option Indexed
  | .base action => do
      let base <- state.base.step action
      state.follow base action
  | .createIndex name valueOffset valueLen logPages =>
    state.createIndex name valueOffset valueLen logPages
  | .dropIndex name => state.dropIndex name

/-- One backfill of `backfill_all_secondary_indexes`.  It reads at the LSN that
the batches of the earlier ones have reached. -/
def backfillNext (base : Embedded RowValue) (logPages : String -> List Nat)
    (current : Sequencer × Indexes) (entry : String × SecondaryIndex) : Option (Sequencer × Indexes) :=
  match backfill base current.2 entry.1 current.1.durableLsn with
  | [] => some current
  | plans => do
      let sequencer <- (logPages entry.1).foldlM writePagesDirect current.1
      return (sequencer, current.2.applyCommit current.1.durableLsn plans)

/-- The indexes that `recover_or_init` loads. -/
def restart (state : Indexed) (logPages : String -> List Nat) : Option Indexes :=
  let loaded := state.indexes.definitions
  if state.log.isEmpty then
    (loaded.toList.foldlM (backfillNext state.base logPages) (state.base.sequencer, loaded)).map Prod.snd
  else some (loaded.replay state.log)

end Indexed

end Compute
end ScaleKv
