import ScaleKv.Storage.StorageNode
import ScaleKv.Foundation.ByteReader
import Mathlib.Algebra.BigOperators.Group.List.Basic

namespace ScaleKv
namespace Storage

open Foundation List

/-!
# The bytes of a log segment

A segment file is a sequence of frames, each with its length in front.  The
reader knows no frame boundaries: it takes the next four bytes for a length and
as many bytes as that for a frame.
-/

namespace WalOp

def code : WalOp -> UInt8
  | .pageImage => 1
  | .pagePut => 11
  | .pageDel => 12
  | .txnPut => 21
  | .txnDel => 22
  | .txnCommit => 23
  | .unknown code => code

def ofCode (code : UInt8) : WalOp :=
  if code = 1 then .pageImage
  else if code = 11 then .pagePut
  else if code = 12 then .pageDel
  else if code = 21 then .txnPut
  else if code = 22 then .txnDel
  else if code = 23 then .txnCommit
  else .unknown code

end WalOp

namespace WalRecord

/-- The bytes of a record in a frame. -/
def encode (record : WalRecord) : Bytes :=
  LittleEndian.encode 8 record.lsn ++ ([record.op.code] ++ (LittleEndian.encode 8 record.pageId ++
    (LittleEndian.encode 2 record.slotId ++ (LittleEndian.encode 4 record.key.length ++
      (LittleEndian.encode 4 record.value.length ++ (record.key ++ record.value))))))

/-- The fields have the widths of their types, and the operation is written with
its name if it has one. -/
structure Fits (record : WalRecord) : Prop where
  lsn : record.lsn < 2 ^ 64
  op : WalOp.ofCode record.op.code = record.op
  pageId : record.pageId < 2 ^ 64
  slotId : record.slotId < 2 ^ 16
  key : record.key.length < 2 ^ 32
  value : record.value.length < 2 ^ 32

instance fitsDecidable (record : WalRecord) : Decidable record.Fits :=
  decidable_of_iff (record.lsn < 2 ^ 64 ∧ WalOp.ofCode record.op.code = record.op ∧
      record.pageId < 2 ^ 64 ∧ record.slotId < 2 ^ 16 ∧ record.key.length < 2 ^ 32 ∧
      record.value.length < 2 ^ 32)
    ⟨fun ⟨lsn, op, pageId, slotId, key, value⟩ => ⟨lsn, op, pageId, slotId, key, value⟩,
      fun ⟨lsn, op, pageId, slotId, key, value⟩ => ⟨lsn, op, pageId, slotId, key, value⟩⟩

end WalRecord

namespace WalBatch

/-- A frame without its length. -/
def body (batch : WalBatch) : Bytes :=
  LittleEndian.encode 8 batch.requestId ++ (LittleEndian.encode 8 batch.startLsn ++
    (LittleEndian.encode 8 batch.endLsn ++ (LittleEndian.encode 4 batch.records.length ++
      batch.records.flatMap WalRecord.encode)))

/-- The bytes of a frame whose length fits its word. -/
def frame (batch : WalBatch) : Bytes :=
  LittleEndian.encode 4 batch.body.length ++ batch.body

structure Fits (batch : WalBatch) : Prop where
  requestId : batch.requestId < 2 ^ 64
  startLsn : batch.startLsn < 2 ^ 64
  endLsn : batch.endLsn < 2 ^ 64
  records : ∀ record ∈ batch.records, record.Fits
  frameLen : batch.frameLen < 2 ^ 32

instance fitsDecidable (batch : WalBatch) : Decidable batch.Fits :=
  decidable_of_iff (batch.requestId < 2 ^ 64 ∧ batch.startLsn < 2 ^ 64 ∧ batch.endLsn < 2 ^ 64 ∧
      (∀ record ∈ batch.records, record.Fits) ∧ batch.frameLen < 2 ^ 32)
    ⟨fun ⟨requestId, start, stop, records, short⟩ => ⟨requestId, start, stop, records, short⟩,
      fun ⟨requestId, start, stop, records, short⟩ => ⟨requestId, start, stop, records, short⟩⟩

end WalBatch

/-- `encode_wal_batch`. -/
def encodeWalBatch (batch : WalBatch) : Result Bytes :=
  if 2 ^ 32 ≤ batch.body.length then
    .error (.error (.io .invalidData "wal frame too large to encode into u32 length"))
  else .ok batch.frame

namespace WalCodec

def truncated : Fault := .error (.io .unexpectedEof "wal batch truncated")

def readU64From : ByteReader Fault Nat := ByteReader.number truncated 8

def readU32From : ByteReader Fault Nat := ByteReader.number truncated 4

def readU16From : ByteReader Fault Nat := ByteReader.number truncated 2

def readU8From : ByteReader Fault UInt8 := do
  let bytes <- ByteReader.take truncated 1
  return bytes.headD 0

/-- The key and the value of a record.  Their lengths are checked together. -/
def readPayload (keyLen valLen : Nat) : ByteReader Fault (Bytes × Bytes) := do
  let payload <- ByteReader.take (.error (.io .invalidData "wal record truncated")) (keyLen + valLen)
  return (payload.take keyLen, payload.drop keyLen)

def readRecord : ByteReader Fault WalRecord := do
  let lsn <- readU64From
  let op <- readU8From
  let pageId <- readU64From
  let slotId <- readU16From
  let keyLen <- readU32From
  let valLen <- readU32From
  let (key, value) <- readPayload keyLen valLen
  return {
    lsn := lsn
    op := WalOp.ofCode op
    pageId := pageId
    slotId := slotId
    key := key
    value := value }

/-- The batch in the body of a frame; bytes behind its records are not looked
at. -/
def readBody : ByteReader Fault WalBatch := do
  let requestId <- readU64From
  let startLsn <- readU64From
  let endLsn <- readU64From
  let count <- readU32From
  let records <- ByteReader.many readRecord count
  return { requestId := requestId, startLsn := startLsn, endLsn := endLsn, records := records }

/-- `read_wal_batch` on the rest of a file.  An end of file in the length word
is the end of the segment, anywhere else it is an error. -/
def readWalBatch (file : Bytes) : Result (Option (WalBatch × Bytes)) :=
  if file.length < 4 then .ok none
  else
    let totalLen := LittleEndian.decode (file.take 4)
    if totalLen = 0 then .error (.error (.io .invalidData "wal frame is empty"))
    else if maxWalFrameLen < totalLen then
      .error (.error (.io .invalidData
        s!"wal frame too large: {totalLen} > {maxWalFrameLen} bytes"))
    else if (file.drop 4).length < totalLen then
      .error (.error (.io .unexpectedEof "early eof"))
    else do
      let (batch, _) <- readBody ((file.drop 4).take totalLen)
      return some (batch, (file.drop 4).drop totalLen)

/-! ## Frames are read back -/

open ByteReader

theorem reads_readU8From (byte : UInt8) : Reads readU8From [byte] byte := by
  intro _
  rfl

theorem reads_readPayload (key value : Bytes) :
    Reads (readPayload key.length value.length) (key ++ value) (key, value) := by
  have taken := (reads_take (.error (.io .invalidData "wal record truncated") : Fault)
    (key ++ value)).map (fun payload => (payload.take key.length, payload.drop key.length))
  rw [length_append, take_left, drop_left] at taken
  exact taken

theorem reads_readRecord {record : WalRecord} (fits : record.Fits) :
    Reads readRecord record.encode record := by
  have lsn := reads_number truncated (show record.lsn < 256 ^ 8 from fits.lsn)
  have pageId := reads_number truncated (show record.pageId < 256 ^ 8 from fits.pageId)
  have slotId := reads_number truncated (show record.slotId < 256 ^ 2 from fits.slotId)
  have keyLen := reads_number truncated (show record.key.length < 256 ^ 4 from fits.key)
  have valLen := reads_number truncated (show record.value.length < 256 ^ 4 from fits.value)
  have payload := (reads_readPayload record.key record.value).map (fun pair => ({
    lsn := record.lsn
    op := WalOp.ofCode record.op.code
    pageId := record.pageId
    slotId := record.slotId
    key := pair.1
    value := pair.2 } : WalRecord))
  have same : ({
      lsn := record.lsn
      op := WalOp.ofCode record.op.code
      pageId := record.pageId
      slotId := record.slotId
      key := record.key
      value := record.value } : WalRecord) = record := by
    rw [fits.op]
  rw [same] at payload
  exact lsn.bind ((reads_readU8From record.op.code).bind (pageId.bind (slotId.bind
    (keyLen.bind (valLen.bind payload)))))

theorem length_encode (record : WalRecord) :
    record.encode.length = 8 + 1 + 8 + 2 + 4 + 4 + record.key.length + record.value.length := by
  unfold WalRecord.encode
  simp only [length_append, LittleEndian.length_encode, length_singleton]
  omega

theorem length_body (batch : WalBatch) : batch.body.length = batch.frameLen := by
  unfold WalBatch.body WalBatch.frameLen
  simp only [length_append, LittleEndian.length_encode, length_flatMap, length_encode]
  omega

theorem length_records_le (batch : WalBatch) : batch.records.length ≤ batch.frameLen := by
  unfold WalBatch.frameLen
  have each := length_le_sum_of_one_le (batch.records.map (fun record : WalRecord =>
    8 + 1 + 8 + 2 + 4 + 4 + record.key.length + record.value.length)) (by
      intro _ member
      rcases mem_map.mp member with ⟨_, _⟩
      omega)
  rw [length_map] at each
  omega

theorem reads_readBody {batch : WalBatch} (fits : batch.Fits) : Reads readBody batch.body batch := by
  have count : batch.records.length < 256 ^ 4 := (length_records_le batch).trans_lt fits.frameLen
  have requestId := reads_number truncated (show batch.requestId < 256 ^ 8 from fits.requestId)
  have startLsn := reads_number truncated (show batch.startLsn < 256 ^ 8 from fits.startLsn)
  have endLsn := reads_number truncated (show batch.endLsn < 256 ^ 8 from fits.endLsn)
  have records := (reads_many (fun record member => reads_readRecord (fits.records record member))).map
    (fun records => ({
      requestId := batch.requestId
      startLsn := batch.startLsn
      endLsn := batch.endLsn
      records := records } : WalBatch))
  exact requestId.bind (startLsn.bind (endLsn.bind ((reads_number truncated count).bind records)))

section Frames

variable {batch : WalBatch}

theorem decode_frame (fits : batch.Fits) (rest : Bytes) :
    LittleEndian.decode ((batch.frame ++ rest).take 4) = batch.frameLen := by
  unfold WalBatch.frame
  rw [append_assoc, take_left' (LittleEndian.length_encode 4 _), length_body]
  exact LittleEndian.decode_encode fits.frameLen

/-- A complete frame is read exactly, or refused for its length. -/
theorem readWalBatch_frame (fits : batch.Fits) (rest : Bytes) :
    readWalBatch (batch.frame ++ rest) =
      (Storage.readWalBatch batch).map (fun batch => some (batch, rest)) := by
  have behind : (batch.frame ++ rest).drop 4 = batch.body ++ rest := by
    unfold WalBatch.frame
    rw [append_assoc, drop_left' (LittleEndian.length_encode 4 _)]
  have notShort : ¬ (batch.frame ++ rest).length < 4 := by
    unfold WalBatch.frame
    simp only [length_append, LittleEndian.length_encode]
    omega
  have notEmpty : batch.frameLen ≠ 0 := by
    unfold WalBatch.frameLen
    omega
  unfold readWalBatch Storage.readWalBatch
  rw [if_neg notShort, decode_frame fits, behind]
  rw [if_neg notEmpty]
  split
  · rfl
  · have whole : ¬ (batch.body ++ rest).length < batch.frameLen := by
      rw [length_append, length_body]
      omega
    rw [if_neg whole, ← length_body, take_left, drop_left]
    have read := reads_readBody fits []
    rw [append_nil] at read
    rw [read]
    rfl

/-- A frame that is cut off is the end of the segment only if the cut is in its
length word. -/
theorem readWalBatch_torn (fits : batch.Fits) {torn : Bytes} (cut : torn <+: batch.frame)
    (strict : torn.length < batch.frame.length) (hasLength : 4 ≤ torn.length) :
    ∃ fault, readWalBatch torn = .error fault := by
  rcases cut with ⟨_, shape⟩
  have word : LittleEndian.decode (torn.take 4) = batch.frameLen := by
    have whole := decode_frame fits []
    rw [append_nil, ← shape, take_append_of_le_length hasLength] at whole
    exact whole
  have short : (torn.drop 4).length < batch.frameLen := by
    have total : batch.frame.length = 4 + batch.frameLen := by
      unfold WalBatch.frame
      rw [length_append, LittleEndian.length_encode, length_body]
    rw [length_drop]
    omega
  unfold readWalBatch
  simp only [if_neg (not_lt.mpr hasLength), word, if_pos short]
  split
  · exact ⟨_, rfl⟩
  · split
    · exact ⟨_, rfl⟩
    · exact ⟨_, rfl⟩

theorem length_lt_of_readWalBatch {file rest : Bytes}
    (read : readWalBatch file = .ok (some (batch, rest))) : rest.length < file.length := by
  unfold readWalBatch at read
  split at read
  · cases read
  · next _ =>
    dsimp only at read
    split at read
    · cases read
    · split at read
      · cases read
      · split at read
        · cases read
        · rcases bind_eq_ok.mp read with ⟨_, _, shape⟩
          cases shape
          rw [length_drop, length_drop]
          omega

/-! ## Batches are read back -/

/-- The batches of a file, up to an end of file in front of a frame. -/
def readWalBatches (file : Bytes) : Result (List WalBatch) :=
  match _read : readWalBatch file with
  | .error fault => .error fault
  | .ok none => .ok []
  | .ok (some (batch, rest)) => do
      let batches <- readWalBatches rest
      return batch :: batches
termination_by file.length
decreasing_by exact length_lt_of_readWalBatch _read

/-- The numbers have the widths of their types, whatever the records hold. -/
structure Typed (batch : WalBatch) : Prop where
  requestId : batch.requestId < 2 ^ 64
  startLsn : batch.startLsn < 2 ^ 64
  endLsn : batch.endLsn < 2 ^ 64
  records : ∀ record ∈ batch.records, record.lsn < 2 ^ 64 ∧
    WalOp.ofCode record.op.code = record.op ∧ record.pageId < 2 ^ 64 ∧ record.slotId < 2 ^ 16

theorem Typed.fits {bytes : Bytes} (typed : Typed batch) (accepted : encodeWalBatch batch = .ok bytes) :
    batch.Fits ∧ bytes = batch.frame := by
  unfold encodeWalBatch at accepted
  split at accepted
  · cases accepted
  · next small =>
    cases accepted
    rw [length_body, not_le] at small
    refine ⟨{ typed with records := fun record member => ?_, frameLen := small }, rfl⟩
    rcases typed.records record member with ⟨lsn, op, pageId, slotId⟩
    have part : record.encode.length ≤ batch.body.length := by
      refine List.Sublist.length_le ?_
      simp only [WalBatch.body, ← append_assoc, flatMap_def]
      exact (sublist_flatten_of_mem (mem_map_of_mem member)).trans (sublist_append_right _ _)
    rw [length_encode, length_body] at part
    exact ⟨lsn, op, pageId, slotId, by omega, by omega⟩

variable {batches : List WalBatch} {frames : List Bytes}

theorem readWalBatch_accepted {bytes : Bytes} (typed : Typed batch)
    (accepted : encodeWalBatch batch = .ok bytes) (rest : Bytes) :
    readWalBatch (bytes ++ rest) = .ok (some (batch, rest)) <-> batch.frameLen ≤ maxWalFrameLen := by
  rcases typed.fits accepted with ⟨fits, rfl⟩
  rw [readWalBatch_frame fits, Storage.readWalBatch]
  split
  · next long => exact iff_of_false nofun (not_le.mpr long)
  · next small => exact iff_of_true rfl (not_lt.mp small)

section Accepted

variable (typed : ∀ batch ∈ batches, Typed batch)
  (accepted : List.Forall₂ (fun batch frame => encodeWalBatch batch = .ok frame) batches frames)

include typed accepted

theorem each_accepted_read (rest : Bytes) :
    List.Forall₂ (fun batch frame => readWalBatch (frame ++ rest) = .ok (some (batch, rest)))
        batches frames <->
      ∀ batch ∈ batches, batch.frameLen ≤ maxWalFrameLen := by
  induction accepted with
  | nil => exact iff_of_true .nil nofun
  | cons encoded _ ih =>
    rw [forall_mem_cons] at typed ⊢
    rw [forall₂_cons, readWalBatch_accepted typed.1 encoded, ih typed.2]

theorem readWalBatches_accepted
    (small : ∀ batch ∈ batches, batch.frameLen ≤ maxWalFrameLen) :
    readWalBatches frames.flatten = .ok batches := by
  induction accepted with
  | nil =>
    unfold readWalBatches
    rfl
  | cons encoded _ ih =>
    rw [forall_mem_cons] at typed small
    have reads := fun rest => (readWalBatch_accepted typed.1 encoded rest).mpr small.1
    unfold readWalBatches
    rw [flatten_cons]
    split
    · next _ failed => cases failed.symm.trans (reads _)
    · next ended => cases ended.symm.trans (reads _)
    · next read =>
      cases read.symm.trans (reads _)
      rw [ih typed.2 small.2]
      rfl

/-- The reader returns each batch that was accepted and stops behind its frame, and
from frames that follow one another it reads the same batches, exactly if none of
them has more than 16 MiB. -/
theorem accepted_read_back :
    ((∀ rest, List.Forall₂ (fun batch frame =>
        readWalBatch (frame ++ rest) = .ok (some (batch, rest))) batches frames) ∧
      readWalBatches frames.flatten = .ok batches) <->
      ∀ batch ∈ batches, batch.frameLen ≤ maxWalFrameLen := by
  constructor
  · rintro ⟨each, _⟩
    exact (each_accepted_read typed accepted []).mp (each [])
  · intro small
    exact ⟨fun rest => (each_accepted_read typed accepted rest).mpr small,
      readWalBatches_accepted typed accepted small⟩

end Accepted

end Frames

/-- One image of so many zeros. -/
def zeroImage (length : Nat) : WalBatch :=
  { requestId := 1, startLsn := 1, endLsn := 2
    records := [{ lsn := 1, op := .pageImage, pageId := 1, slotId := 0, key := []
                  value := List.replicate length 0 }] }

theorem typed_zeroImage (length : Nat) : Typed (zeroImage length) := by
  constructor <;> simp [zeroImage, WalOp.ofCode, WalOp.code]

theorem frameLen_zeroImage (length : Nat) : (zeroImage length).frameLen = 55 + length := by
  simp [zeroImage, WalBatch.frameLen]
  omega

theorem encodeWalBatch_zeroImage {length : Nat} (small : length < 2 ^ 31) :
    encodeWalBatch (zeroImage length) = .ok (zeroImage length).frame := by
  rw [encodeWalBatch, length_body, frameLen_zeroImage, if_neg (by omega)]

/-- Two images that follow one another. -/
theorem accepted_read_back_twoPages :
    readWalBatches [(zeroImage pageSize).frame, (zeroImage 0).frame].flatten =
      .ok [zeroImage pageSize, zeroImage 0] := by
  refine ((accepted_read_back ?_ (.cons (encodeWalBatch_zeroImage (by decide))
    (.cons (encodeWalBatch_zeroImage (by decide)) .nil))).mpr ?_).2
  · simp [typed_zeroImage]
  · simp only [mem_cons, not_mem_nil, or_false, forall_eq_or_imp, forall_eq, frameLen_zeroImage]
    decide

/-- An image of 16 MiB is written, and the reader refuses the frame. -/
theorem not_accepted_read_back : ∃ bytes fault,
    Typed (zeroImage maxWalFrameLen) ∧ encodeWalBatch (zeroImage maxWalFrameLen) = .ok bytes ∧
      readWalBatch bytes = .error fault := by
  have accepted := encodeWalBatch_zeroImage (show maxWalFrameLen < 2 ^ 31 by decide)
  have typed := typed_zeroImage maxWalFrameLen
  have read := readWalBatch_frame (typed.fits accepted).1 []
  rw [append_nil, Storage.readWalBatch, frameLen_zeroImage, if_pos (by omega)] at read
  exact ⟨_, _, typed, accepted, read⟩

end WalCodec

end Storage
end ScaleKv
