import ScaleKv.TxnKv.QuorumStorage
import ScaleKv.Foundation.ByteReader

namespace ScaleKv
namespace TxnKv

open Foundation List LittleEndian

/-!
# The files of a replica

A replica keeps a log and, beside it, a snapshot.  A record of the log carries
its length and a checksum in front; the reader goes on until something does not
fit and takes what it has read so far.  The snapshot carries neither, and
anything that does not fit is an error.
-/

namespace Codec

/-! ## Encoding -/

/-- `WAL_MAGIC`. -/
def walMagic : Nat := 0x534B5657

/-- `WAL_HEADER_LEN`. -/
def walHeaderLen : Nat := 12

/-- `SNAPSHOT_MAGIC`. -/
def snapshotMagic : Nat := 0x53534E50

/-- `SNAPSHOT_VERSION`. -/
def snapshotVersion : Nat := 1

/-- A checksum of four bytes. -/
class Checksum where
  hash : Bytes -> Nat
  hash_lt : ∀ bytes, hash bytes < 2 ^ 32

def encodeOp (op : Key × Option Value) : Bytes :=
  op.1.bytes ++
    match op.2 with
    | some value => [1] ++ (encode 4 value.length ++ value)
    | none => [0]

/-- The bytes that `encode_payload` returns. -/
def payloadOf (record : WalRecord) : Bytes :=
  encode 8 record.commitTs ++
    (encode 4 record.ops.length ++ record.ops.flatMap encodeOp)

/-- The record as `commit` frames it.  The length is cut to its four bytes. -/
def frame [Checksum] (record : WalRecord) : Bytes :=
  encode 4 walMagic ++ (encode 4 (payloadOf record).length ++
    (encode 4 (Checksum.hash (payloadOf record)) ++ payloadOf record))

/-- The last version of every key that is not deleted. -/
def snapshotEntries (store : Store) : List (Key × Value) :=
  store.toList.filterMap (fun entry =>
    (entry.2.getLast?.bind Version.value).map (fun value => (entry.1, value)))

def encodeEntry (entry : Key × Value) : Bytes :=
  entry.1.bytes ++ (encode 4 entry.2.length ++ entry.2)

def snapshotBytes (commitTs : Nat) (entries : List (Key × Value)) : Bytes :=
  encode 4 snapshotMagic ++ (encode 4 snapshotVersion ++
    (encode 8 commitTs ++ (encode 4 entries.length ++ entries.flatMap encodeEntry)))

/-- What `write_snapshot_file` puts into the file, or its refusal. -/
def encodeSnapshot (commitTs : Nat) (store : Store) : Except TxnError Bytes :=
  let entries := snapshotEntries store
  if 2 ^ 32 - 1 < entries.length then .error (.corruptWal "too many snapshot entries")
  else
    match entries.find? (fun entry => valueSize < entry.2.length) with
    | some (_, value) => .error (.invalidValueSize value.length valueSize)
    | none => .ok (snapshotBytes commitTs entries)

/-! ## Decoding -/

/-- The bytes of a key, followed by more. -/
def keyOf (bytes : Bytes) (enough : keySize ≤ bytes.length) : Key :=
  ⟨bytes.take keySize, by rw [length_take, Nat.min_eq_left enough]⟩

/-- A key together with the bytes behind it; there are checked before any is used. -/
def readKeyAnd (short : TxnError) (behind : Nat) : ByteReader TxnError (Key × Bytes) := fun bytes =>
  if enough : keySize + behind ≤ bytes.length then
    .ok ((keyOf bytes (Nat.le_of_add_right_le enough), (bytes.drop keySize).take behind),
      bytes.drop (keySize + behind))
  else .error short

/-- The bytes of a value of the given length. -/
def readValue (short : TxnError) (length : Nat) : ByteReader TxnError Value :=
  if valueSize < length then throw (.invalidValueSize length valueSize)
  else ByteReader.take short length

def payloadTruncated : TxnError := .corruptWal "payload truncated"

def readOp : ByteReader TxnError (Key × Option Value) := do
  let (key, op) <- readKeyAnd payloadTruncated 1
  match op with
  | [0] => return (key, none)
  | [1] =>
    let length <- ByteReader.number payloadTruncated 4
    let value <- readValue payloadTruncated length
    return (key, some value)
  | _ => throw (.corruptWal "unknown op")

/-- A reader that leaves something behind has not understood the bytes. -/
def runWhole {Result : Type} (mismatch : TxnError) (reader : ByteReader TxnError Result) (bytes : Bytes) :
    Except TxnError Result := do
  let (result, rest) <- reader bytes
  if rest.isEmpty then return result else throw mismatch

def readPayload : ByteReader TxnError WalRecord := do
  let commitTs <- ByteReader.number (.corruptWal "payload too short") 8
  let numOps <- ByteReader.number (.corruptWal "payload too short") 4
  let ops <- ByteReader.many readOp numOps
  return ⟨commitTs, ops⟩

/-- `decode_payload`. -/
def decodePayload (payload : Bytes) : Except TxnError WalRecord :=
  runWhole (.corruptWal "payload length mismatch") readPayload payload

/-- One round of the loop of `replay_wal_with_base`: the record at the front and
the bytes behind it, if everything fits. -/
def readRecord [Checksum] (data : Bytes) : Option (WalRecord × Bytes) :=
  if data.length < walHeaderLen then none
  else if decode (data.take 4) ≠ walMagic then none
  else
    let len := decode ((data.drop 4).take 4)
    let crc := decode ((data.drop 8).take 4)
    let payload := (data.drop walHeaderLen).take len
    if data.length < walHeaderLen + len then none
    else if Checksum.hash payload ≠ crc then none
    else
      match decodePayload payload with
      | .error _ => none
      | .ok record => some (record, data.drop (walHeaderLen + len))

/-- The records from the front, and how many bytes they take. -/
def readRecords [Checksum] : Nat -> Bytes -> List WalRecord × Nat
  | 0, _ => ([], 0)
  | fuel + 1, data =>
    match readRecord data with
    | none => ([], 0)
    | some (record, rest) =>
      let (records, length) := readRecords fuel rest
      (record :: records, data.length - rest.length + length)

/-- A record takes more than one byte, so there are not more rounds than bytes. -/
def readWal [Checksum] (data : Bytes) : List WalRecord × Nat := readRecords data.length data

def snapshotTruncated : TxnError := .corruptWal "snapshot truncated"

def readEntry : ByteReader TxnError (Key × Value) := do
  let (key, lengthBytes) <- readKeyAnd snapshotTruncated 4
  let value <- readValue snapshotTruncated (decode lengthBytes)
  return (key, value)

def readSnapshot : ByteReader TxnError (Nat × List (Key × Value)) := do
  let magic <- ByteReader.number (.corruptWal "snapshot too short") 4
  if magic ≠ snapshotMagic then throw (.corruptWal "invalid snapshot magic")
  let version <- ByteReader.number (.corruptWal "snapshot too short") 4
  if version ≠ snapshotVersion then throw (.corruptWal "unsupported snapshot version")
  let commitTs <- ByteReader.number (.corruptWal "snapshot too short") 8
  let numEntries <- ByteReader.number (.corruptWal "snapshot too short") 4
  let entries <- ByteReader.many readEntry numEntries
  return (commitTs, entries)

/-- The store that a snapshot stands for. -/
def snapshotStore (commitTs : Nat) (entries : List (Key × Value)) : Store :=
  pushVersions ∅ commitTs (entries.map (fun entry => (entry.1, some entry.2)))

/-- `load_snapshot_file`; the lengths that it checks first are those of the fixed
fields. -/
def loadSnapshotFile : Option Bytes -> Except TxnError (Option (Store × Nat))
  | none => .ok none
  | some data =>
    if data.length < 20 then .error (.corruptWal "snapshot too short")
    else do
      let (commitTs, entries) <- runWhole (.corruptWal "snapshot length mismatch") readSnapshot data
      return some (snapshotStore commitTs entries, commitTs)

/-- What an open finds at a replica with these files. -/
def filesOf [Checksum] (snapshot : Option Bytes) (wal : Bytes) : ReplicaFiles :=
  { opened := .ok (), snapshot := loadSnapshotFile snapshot, wal := .ok (readWal wal).1 }

/-! ## Reading back what was written -/

open ByteReader

theorem reads_keyAnd (short : TxnError) (key : Key) (behind : Bytes) :
    Reads (readKeyAnd short behind.length) (key.bytes ++ behind) (key, behind) := by
  intro rest
  have keyLength := key.length_eq
  unfold readKeyAnd
  rw [dif_pos (by simp only [length_append, keyLength]; omega)]
  have sameKey : ∀ enough, keyOf (key.bytes ++ behind ++ rest) enough = key := by
    intro enough
    apply Key.ext_bytes
    show (key.bytes ++ behind ++ rest).take keySize = key.bytes
    rw [append_assoc, ← keyLength, take_left]
  rw [sameKey, append_assoc, ← drop_drop, ← keyLength, drop_left, take_left, drop_left]

theorem reads_value (short : TxnError) {value : Value} (fits : value.length ≤ valueSize) :
    Reads (readValue short value.length) value value := by
  unfold readValue
  rw [if_neg (not_lt_of_ge fits)]
  exact reads_take short value

/-- The value of an operation has a length that can be written. -/
def opFits (op : Key × Option Value) : Prop := ∀ value, op.2 = some value -> value.length ≤ valueSize

theorem valueSize_lt : valueSize < 256 ^ 4 := by decide

theorem reads_op {op : Key × Option Value} (fits : opFits op) : Reads readOp (encodeOp op) op := by
  rcases op with ⟨key, written⟩
  cases written with
  | none =>
    have bytes : encodeOp (key, none) = (key.bytes ++ [0]) ++ [] := by
      simp [encodeOp]
    rw [bytes]
    exact (reads_keyAnd payloadTruncated key [0]).bind (reads_pure _)
  | some value =>
    have short := fits value rfl
    have bytes : encodeOp (key, some value) =
        (key.bytes ++ [1]) ++ (encode 4 value.length ++ value) := by
      simp [encodeOp]
    rw [bytes]
    refine (reads_keyAnd payloadTruncated key [1]).bind ?_
    refine (reads_number payloadTruncated (lt_of_le_of_lt short valueSize_lt)).bind ?_
    exact (reads_value payloadTruncated short).map (fun value => (key, some value))

/-- The fields of a record fit the words that they are written to. -/
structure Fits (record : WalRecord) : Prop where
  commitTs : record.commitTs < 2 ^ 64
  count : record.ops.length < 2 ^ 32
  ops : ∀ op ∈ record.ops, opFits op

/-- `encode_payload` lets only records through whose operations fit. -/
theorem opFits_of_encoded {writeSet : WriteSet} (encoded : encodePayload writeSet = .ok ()) :
    writeSet.toList.length < 2 ^ 32 ∧ ∀ op ∈ writeSet.toList, opFits op := by
  unfold encodePayload at encoded
  split at encoded
  · cases encoded
  · next _ =>
    refine ⟨?_, ?_⟩
    · rw [Std.TreeMap.length_toList]
      omega
    · intro op member value written
      split at encoded
      · cases encoded
      · next none_ =>
        by_contra long
        have found : (writeSet.toList.find? (fun write =>
            write.2.any (fun value => valueSize < value.length))).isSome = true := by
          rw [List.find?_isSome]
          refine ⟨op, member, ?_⟩
          rw [written]
          simpa using long
        rcases Option.isSome_iff_exists.mp found with ⟨other, isOther⟩
        have tooLong := List.find?_some isOther
        rcases other with ⟨key, _ | value'⟩
        · cases tooLong
        · exact none_ key value' isOther

variable {record : WalRecord} {bytes data rest : Bytes} {commitTs : Nat}

theorem reads_payload (fits : Fits record) : Reads readPayload (payloadOf record) record := by
  refine (reads_number _ (show record.commitTs < 256 ^ 8 from fits.commitTs)).bind ?_
  refine (reads_number _ (show record.ops.length < 256 ^ 4 from fits.count)).bind ?_
  exact (reads_many (fun op member => reads_op (fits.ops op member))).map
    (fun ops => (⟨record.commitTs, ops⟩ : WalRecord))

theorem runWhole_of_reads {Result : Type} {mismatch : TxnError}
    {reader : ByteReader TxnError Result} {result : Result} (reads : Reads reader bytes result) :
    runWhole mismatch reader bytes = .ok result := by
  have read := reads []
  rw [append_nil] at read
  unfold runWhole
  rw [read]
  rfl

theorem decodePayload_payloadOf (fits : Fits record) :
    decodePayload (payloadOf record) = .ok record :=
  runWhole_of_reads (reads_payload fits)

/-! ## Records of the log -/

section Record

variable [Checksum]

theorem length_frame (record : WalRecord) : (frame record).length = walHeaderLen + (payloadOf record).length := by
  simp [frame, walHeaderLen]
  omega

/-- What the reader makes of a frame.  The length in the header is that of the
payload up to a multiple of the word. -/
theorem readRecord_frame_eq (record : WalRecord) (rest : Bytes) {len : Nat}
    (isLen : len = (payloadOf record).length % 2 ^ 32) :
    readRecord (frame record ++ rest) =
      if Checksum.hash ((payloadOf record).take len) ≠ Checksum.hash (payloadOf record) then none
      else
        match decodePayload ((payloadOf record).take len) with
        | .error _ => none
        | .ok found => some (found, (payloadOf record ++ rest).drop len) := by
  have short : len ≤ (payloadOf record).length := isLen ▸ Nat.mod_le _ _
  have layout : frame record ++ rest = encode 4 walMagic ++ (encode 4 (payloadOf record).length ++
        (encode 4 (Checksum.hash (payloadOf record)) ++ (payloadOf record ++ rest))) := by
    simp [frame]
  have behindMagic : (frame record ++ rest).drop 4 = encode 4 (payloadOf record).length ++
      (encode 4 (Checksum.hash (payloadOf record)) ++ (payloadOf record ++ rest)) := by
    rw [layout, drop_left' (length_encode _ _)]
  have behindLength : (frame record ++ rest).drop 8 =
      encode 4 (Checksum.hash (payloadOf record)) ++ (payloadOf record ++ rest) := by
    rw [show (8 : Nat) = 4 + 4 from rfl, ← drop_drop, behindMagic, drop_left' (length_encode _ _)]
  have behindHeader : (frame record ++ rest).drop walHeaderLen = payloadOf record ++ rest := by
    rw [show walHeaderLen = 8 + 4 from rfl, ← drop_drop, behindLength,
      drop_left' (length_encode _ _)]
  have magic : (frame record ++ rest).take 4 = encode 4 walMagic := by
    rw [layout, take_left' (length_encode _ _)]
  have length : (frame record ++ rest).length = walHeaderLen + ((payloadOf record).length + rest.length) := by
    rw [length_append, length_frame, Nat.add_assoc]
  have payload : (payloadOf record ++ rest).take len = (payloadOf record).take len :=
    take_append_of_le_length short
  have magicFits : walMagic < 256 ^ 4 := by decide
  unfold readRecord
  dsimp only
  rw [magic, behindMagic, behindLength, behindHeader,
    take_left' (length_encode _ _), take_left' (length_encode _ _),
    decode_encode magicFits, decode_encode_mod, decode_encode (Checksum.hash_lt _),
    show (payloadOf record).length % 256 ^ 4 = len from isLen.symm, ← drop_drop, behindHeader, payload,
    if_neg (by omega), if_neg (fun different => different rfl), if_neg (by omega)]

theorem readRecord_frame (fits : Fits record) (short : (payloadOf record).length < 2 ^ 32)
    (rest : Bytes) : readRecord (frame record ++ rest) = some (record, rest) := by
  rw [readRecord_frame_eq record rest (Nat.mod_eq_of_lt short).symm, take_length,
    if_neg (fun different => different rfl), decodePayload_payloadOf fits]
  exact congrArg (fun left => some (record, left)) (drop_left' rfl)

end Record

theorem extends_keyAnd (short : TxnError) (behind : Nat) : Extends (readKeyAnd short behind) := by
  intro bytes _ _ _ taken
  unfold readKeyAnd at taken ⊢
  split at taken
  · next enough =>
    cases taken
    have keyInside : keySize ≤ bytes.length := Nat.le_of_add_right_le enough
    have behindInside : behind ≤ (bytes.drop keySize).length := by
      rw [length_drop]
      omega
    rw [dif_pos (by rw [length_append]; omega), drop_append_of_le_length keyInside,
      take_append_of_le_length behindInside, drop_append_of_le_length enough]
    refine congrArg (fun key => Except.ok ((key, _), _)) (Key.ext_bytes ?_)
    exact take_append_of_le_length keyInside
  · cases taken

theorem extends_value (short : TxnError) (length : Nat) : Extends (readValue short length) := by
  unfold readValue
  split
  · exact extends_throw _
  · exact extends_take _ _

theorem extends_op : Extends readOp := by
  refine (extends_keyAnd _ _).bind ?_
  rintro ⟨_, _⟩
  dsimp only
  split
  · exact extends_pure _
  · exact (extends_number _ _).bind (fun length => (extends_value _ length).bind (fun _ => extends_pure _))
  · exact extends_throw _

theorem extends_payload : Extends readPayload :=
  (extends_number _ _).bind (fun _ => (extends_number _ _).bind (fun numOps =>
    (extends_op.many numOps).bind (fun _ => extends_pure _)))

theorem decodePayload_take (fits : Fits record) {len : Nat}
    (short : len < (payloadOf record).length) :
    ∃ error, decodePayload ((payloadOf record).take len) = .error error := by
  cases decoded : decodePayload ((payloadOf record).take len) with
  | error error => exact ⟨error, rfl⟩
  | ok =>
    unfold decodePayload runWhole at decoded
    cases read : readPayload ((payloadOf record).take len) with
    | error =>
      rw [read] at decoded
      cases decoded
    | ok pair =>
      -- on the whole payload the reader would leave the rest of it behind
      have whole := extends_payload _ pair.1 pair.2 ((payloadOf record).drop len) read
      rw [take_append_drop] at whole
      have nothing := reads_payload fits []
      rw [append_nil] at nothing
      have left := congrArg Prod.snd (Except.ok.inj (whole.symm.trans nothing))
      have empty := (append_eq_nil_iff.mp left).2
      exact absurd (drop_eq_nil_iff.mp empty) (not_le_of_gt short)

theorem readRecord_long [Checksum] (fits : Fits record) (long : 2 ^ 32 ≤ (payloadOf record).length)
    (rest : Bytes) : readRecord (frame record ++ rest) = none := by
  have short : (payloadOf record).length % 2 ^ 32 < (payloadOf record).length :=
    (Nat.mod_lt _ (by decide)).trans_le long
  rcases decodePayload_take fits short with ⟨_, undecoded⟩
  rw [readRecord_frame_eq record rest rfl, undecoded]
  exact ite_self none

/-! ## Snapshots -/

theorem reads_entry {entry : Key × Value} (fits : entry.2.length ≤ valueSize) :
    Reads readEntry (encodeEntry entry) entry := by
  have length : decode (encode 4 entry.2.length) = entry.2.length :=
    decode_encode (lt_of_le_of_lt fits valueSize_lt)
  have bytes : encodeEntry entry = (entry.1.bytes ++ encode 4 entry.2.length) ++ entry.2 := by
    simp [encodeEntry]
  have keyRead := reads_keyAnd snapshotTruncated entry.1 (encode 4 entry.2.length)
  rw [length_encode] at keyRead
  rw [bytes]
  refine keyRead.bind ?_
  dsimp only
  rw [length]
  exact (reads_value snapshotTruncated fits).map (fun value => (entry.1, value))

theorem reads_snapshot {entries : List (Key × Value)} (counter : commitTs < 2 ^ 64)
    (count : entries.length < 2 ^ 32)
    (fits : ∀ entry ∈ entries, (Prod.snd entry).length ≤ valueSize) :
    Reads readSnapshot (snapshotBytes commitTs entries) (commitTs, entries) := by
  refine (reads_number _ (show snapshotMagic < 256 ^ 4 by decide)).bind ?_
  rw [if_neg (fun different => different rfl)]
  refine (reads_number _ (show snapshotVersion < 256 ^ 4 by decide)).bind ?_
  rw [if_neg (fun different => different rfl)]
  refine (reads_number _ (show commitTs < 256 ^ 8 from counter)).bind ?_
  refine (reads_number _ (show entries.length < 256 ^ 4 from count)).bind ?_
  exact (reads_many (fun entry member => reads_entry (fits entry member))).map
    (fun entries => (commitTs, entries))

theorem loadSnapshotFile_encodeSnapshot {store : Store}
    (encoded : encodeSnapshot commitTs store = .ok bytes) (counter : commitTs < 2 ^ 64) :
    loadSnapshotFile (some bytes) =
      .ok (some (snapshotStore commitTs (snapshotEntries store), commitTs)) := by
  unfold encodeSnapshot at encoded
  dsimp only at encoded
  split at encoded
  · cases encoded
  · next _ =>
    split at encoded
    · cases encoded
    · next none_ =>
      cases encoded
      have fits : ∀ entry ∈ snapshotEntries store, (Prod.snd entry).length ≤ valueSize := by
        intro entry member
        have short := List.find?_eq_none.mp none_ entry member
        simpa using short
      have reads : runWhole (.corruptWal "snapshot length mismatch") readSnapshot
          (snapshotBytes commitTs (snapshotEntries store)) = .ok (commitTs, snapshotEntries store) :=
        runWhole_of_reads (reads_snapshot counter (by omega) fits)
      unfold loadSnapshotFile
      dsimp only
      rw [if_neg, reads]
      · rfl
      · simp [snapshotBytes]
        omega

/-! ## The log as a whole -/

section Log

variable [Checksum]

theorem readRecord_shrinks (read : readRecord data = some (record, rest)) :
    rest.length < data.length := by
  unfold readRecord at read
  split at read
  · cases read
  · next _ =>
    split at read
    · cases read
    · dsimp only at read
      split at read
      · cases read
      · split at read
        · cases read
        · split at read
          · cases read
          · cases read
            rw [length_drop]
            have positive : 0 < walHeaderLen := by decide
            omega

theorem readRecord_append (more : Bytes) (read : readRecord data = some (record, rest)) :
    readRecord (data ++ more) = some (record, rest ++ more) := by
  unfold readRecord at read ⊢
  split at read
  · cases read
  · next header =>
    have headerInside : walHeaderLen ≤ data.length := le_of_not_gt header
    have twelve : walHeaderLen = 12 := rfl
    rw [if_neg (by rw [length_append]; omega), take_append_of_le_length (by omega),
      drop_append_of_le_length (by omega), drop_append_of_le_length (by omega),
      drop_append_of_le_length headerInside,
      take_append_of_le_length (by rw [length_drop]; omega),
      take_append_of_le_length (by rw [length_drop]; omega)]
    split at read
    · cases read
    · next magic =>
      rw [if_neg magic]
      dsimp only at read ⊢
      split at read
      · cases read
      · next long =>
        have inside := le_of_not_gt long
        rw [if_neg (by rw [length_append]; omega),
          take_append_of_le_length (by rw [length_drop]; omega)]
        split at read
        · cases read
        · next checksum =>
          rw [if_neg checksum]
          split at read
          · cases read
          · next _ _ =>
            cases read
            rw [drop_append_of_le_length inside]

theorem readRecords_of_le {fuel : Nat} (enough : data.length ≤ fuel) :
    readRecords fuel data = readWal data := by
  have more : ∀ fuel (data : Bytes), data.length ≤ fuel ->
      readRecords (fuel + 1) data = readRecords fuel data := by
    intro fuel
    induction fuel with
    | zero =>
      intro data short
      rw [eq_nil_of_length_eq_zero (Nat.le_zero.mp short)]
      rfl
    | succ _ ih =>
      intro data short
      rw [readRecords, readRecords]
      cases read : readRecord data with
      | none => rfl
      | some found =>
        dsimp only
        have shrinks := readRecord_shrinks read
        rw [ih found.2 (by omega)]
  induction enough with
  | refl => rfl
  | @step fuel enough ih => exact (more fuel data enough).trans ih

theorem readWal_of_some (read : readRecord data = some (record, rest)) :
    readWal data = (record :: (readWal rest).1, data.length - rest.length + (readWal rest).2) := by
  have shrinks := readRecord_shrinks read
  cases length : data.length with
  | zero => omega
  | succ count =>
    have rounds : readWal data = readRecords (count + 1) data := (readRecords_of_le (by omega)).symm
    rw [rounds, readRecords, read]
    dsimp only
    rw [readRecords_of_le (by omega), length]

theorem readWal_of_none (read : readRecord data = none) : readWal data = ([], 0) := by
  unfold readWal
  cases data.length with
  | zero => rfl
  | succ =>
    rw [readRecords, read]

/-- The records are read to the end of the log. -/
def Clean (data : Bytes) : Prop := (readWal data).2 = data.length

/-- The loop of the reader, for proofs by induction over the records. -/
theorem wal_induction {motive : Bytes -> Prop}
    (stop : ∀ data, readRecord data = none -> motive data)
    (next : ∀ data record rest, readRecord data = some (record, rest) -> motive rest -> motive data)
    (data : Bytes) : motive data := by
  induction length : data.length using Nat.strong_induction_on generalizing data with
  | _ _ ih =>
    cases read : readRecord data with
    | none => exact stop data read
    | some found =>
      refine next data found.1 found.2 read (ih _ ?_ found.2 rfl)
      rw [← length]
      exact readRecord_shrinks read

/-- What has been read stays readable when bytes are appended. -/
theorem readWal_front (data more : Bytes) : (readWal data).1 <+: (readWal (data ++ more)).1 := by
  induction data using wal_induction with
  | stop _ read =>
    rw [readWal_of_none read]
    exact nil_prefix
  | next _ _ _ read ih =>
    rw [readWal_of_some read, readWal_of_some (readRecord_append more read)]
    exact cons_prefix_cons.mpr ⟨rfl, ih⟩

theorem Clean.readWal_append (clean : Clean data) (more : Bytes) :
    readWal (data ++ more) =
      ((readWal data).1 ++ (readWal more).1, data.length + (readWal more).2) := by
  induction data using wal_induction with
  | stop data read =>
    have empty : data = [] := by
      unfold Clean at clean
      rw [readWal_of_none read] at clean
      exact eq_nil_of_length_eq_zero clean.symm
    rw [empty, readWal_of_none (show readRecord [] = none from rfl)]
    simp
  | next _ _ rest read ih =>
    have shrinks := readRecord_shrinks read
    have restClean : Clean rest := by
      unfold Clean at clean ⊢
      rw [readWal_of_some read] at clean
      omega
    rw [readWal_of_some read, readWal_of_some (readRecord_append more read), ih restClean]
    simp only [length_append, cons_append, Prod.mk.injEq, true_and]
    omega

theorem clean_nil : Clean [] := rfl

theorem Clean.append {more : Bytes} (clean : Clean data) (moreClean : Clean more) :
    Clean (data ++ more) := by
  unfold Clean at moreClean ⊢
  rw [clean.readWal_append, length_append, moreClean]

theorem readWal_frame (fits : Fits record) (short : (payloadOf record).length < 2 ^ 32) :
    readWal (frame record) = ([record], (frame record).length) := by
  have read := readRecord_frame fits short []
  rw [append_nil] at read
  rw [readWal_of_some read, readWal_of_none (show readRecord [] = none from rfl)]
  rfl

theorem Clean.readWal_frame (clean : Clean data) (fits : Fits record)
    (short : (payloadOf record).length < 2 ^ 32) :
    (readWal (data ++ frame record)).1 = (readWal data).1 ++ [record] ∧ Clean (data ++ frame record) := by
  have single := Codec.readWal_frame fits short
  refine ⟨?_, clean.append ?_⟩
  · rw [clean.readWal_append, single]
  · unfold Clean
    rw [single]

theorem readWal_frames {records : List WalRecord}
    (fits : ∀ record ∈ records, Fits record ∧ (payloadOf record).length < 2 ^ 32) :
    readWal (records.flatMap frame) = (records, (records.flatMap frame).length) := by
  induction records with
  | nil => rfl
  | cons _ records ih =>
    rw [forall_mem_cons] at fits
    have read := readRecord_frame fits.1.1 fits.1.2 (records.flatMap frame)
    rw [flatMap_cons, readWal_of_some read, ih fits.2, length_append]
    simp

end Log

/-! ## The checksum of the crate -/

/-- One bit of the checksum, with the reflected polynomial. -/
def crcBit (crc : Nat) : Nat := if crc % 2 = 1 then crc / 2 ^^^ 0xEDB88320 else crc / 2

def crcBits : Nat -> Nat -> Nat
  | 0, crc => crc
  | count + 1, crc => crcBits count (crcBit crc)

/-- `crc32fast::hash`. -/
def crc32 (bytes : Bytes) : Nat :=
  bytes.foldl (fun crc byte => crcBits 8 (crc ^^^ byte.toNat)) 0xFFFFFFFF ^^^ 0xFFFFFFFF

theorem crcBits_lt (count : Nat) {crc : Nat} (below : crc < 2 ^ 32) : crcBits count crc < 2 ^ 32 := by
  induction count generalizing crc with
  | zero => exact below
  | succ _ ih =>
    apply ih
    unfold crcBit
    split
    · exact Nat.xor_lt_two_pow (by omega) (by decide)
    · omega

theorem crc32_lt (bytes : Bytes) : crc32 bytes < 2 ^ 32 := by
  have loop : ∀ crc, crc < 2 ^ 32 ->
      bytes.foldl (fun crc byte => crcBits 8 (crc ^^^ byte.toNat)) crc < 2 ^ 32 := by
    induction bytes with
    | nil => exact fun crc below => below
    | cons byte _ ih =>
      intro crc below
      apply ih
      apply crcBits_lt
      exact Nat.xor_lt_two_pow below (byte.toNat_lt.trans (by decide))
  exact Nat.xor_lt_two_pow (loop _ (by decide)) (by decide)

instance crc32fast : Checksum := ⟨crc32, crc32_lt⟩

end Codec

end TxnKv
end ScaleKv
