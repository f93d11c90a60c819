import ScaleKv.Common

namespace ScaleKv
namespace Storage

/-!
# Slotted pages

A slotted page starts with three 16-bit counters (the number of slots and the
bounds of the free area) and the slot directory; the payloads are packed at the
end.  Only the functions that redo a slot-level log record are modelled here.

The functions work on raw bytes, as in the source, and index them without a
check of their own: an index out of bounds is a panic.
-/

namespace SlottedPage

def pageHeaderSize : Nat := 6

def slotEntrySize : Nat := 4

/-- Commit LSN, undo page id, undo slot id and flags. -/
def mvccHeaderSize : Nat := 8 + 8 + 2 + 2

def payloadLen : Nat := keySize + valueSize + mvccHeaderSize

def maxU16 : Nat := 65535

/-- `page[offset..offset + length]`. -/
def slice (page : Bytes) (offset length : Nat) : Result Bytes :=
  if offset + length ≤ page.length then .ok ((page.drop offset).take length)
  else .error .panicked

/-- `page[offset..offset + data.len()].copy_from_slice(data)`. -/
def copyInto (page : Bytes) (offset : Nat) (data : Bytes) : Result Bytes :=
  if offset + data.length ≤ page.length then
    .ok (page.take offset ++ data ++ page.drop (offset + data.length))
  else .error .panicked

def u16ToLeBytes (value : Nat) : Bytes := [UInt8.ofNat value, UInt8.ofNat (value / 256)]

def u16FromLeBytes : Bytes -> Nat
  | [low, high] => low.toNat + 256 * high.toNat
  | _ => 0

def readU16 (page : Bytes) (offset : Nat) : Result Nat :=
  (slice page offset 2).map u16FromLeBytes

def writeU16 (page : Bytes) (offset value : Nat) : Result Bytes :=
  copyInto page offset (u16ToLeBytes value)

/-- The number of slots and the bounds of the free area. -/
structure Header where
  slots : Nat
  freeStart : Nat
  freeEnd : Nat

def readHeader (page : Bytes) : Result Header := do
  let slots <- readU16 page 0
  let freeStart <- readU16 page 2
  let freeEnd <- readU16 page 4
  return { slots := slots, freeStart := freeStart, freeEnd := freeEnd }

def writeHeader (page : Bytes) (header : Header) : Result Bytes := do
  let page <- writeU16 page 0 header.slots
  let page <- writeU16 page 2 header.freeStart
  writeU16 page 4 header.freeEnd

def slotOffset (slotId : Nat) : Nat := pageHeaderSize + slotEntrySize * slotId

/-- Position and length of a payload; an empty slot has length 0. -/
def readSlot (page : Bytes) (slotId : Nat) : Result (Nat × Nat) := do
  let position <- readU16 page (slotOffset slotId)
  let length <- readU16 page (slotOffset slotId + 2)
  return (position, length)

def writeSlot (page : Bytes) (slotId offset length : Nat) : Result Bytes := do
  let page <- writeU16 page (slotOffset slotId) offset
  writeU16 page (slotOffset slotId + 2) length

/-- The first empty slot among the given ones. -/
def findFreeSlot (page : Bytes) : List Nat -> Result (Option Nat)
  | [] => .ok none
  | slotId :: rest => do
      let slot <- readSlot page slotId
      if slot.2 = 0 then return some slotId else findFreeSlot page rest

def slotPayloadOffset (page : Bytes) (slotId : Nat) : Result (Option Nat) :=
  if page.length ≠ pageSize then .ok none
  else do
    let slot <- readSlot page slotId
    if slot.2 ≠ payloadLen then return none
    else if pageSize < slot.1 + payloadLen then return none
    else return some slot.1

def clearSlot (page : Bytes) (slotId : Nat) : Result Bytes :=
  if page.length ≠ pageSize then .ok page else writeSlot page slotId 0 0

/-- The value at a slot if the key matches and the row is no tombstone. -/
def readValue (page : Bytes) (slotId : Nat) (key : Bytes) : Result (Option Bytes) :=
  if page.length ≠ pageSize ∨ key.length ≠ keySize then .ok none
  else do
    match <- slotPayloadOffset page slotId with
    | none => return none
    | some position =>
      let stored <- slice page position keySize
      if stored ≠ key then return none
      else
        let flags <- readU16 page (position + keySize + valueSize + 8 + 8 + 2)
        if flags % 2 = 1 then return none
        else return some (<- slice page (position + keySize) valueSize)

/-- The argument checks that the writing functions share. -/
def checkSizes (page key value : Bytes) : Result Unit :=
  if page.length ≠ pageSize then .error (.error (.invalidPageSize page.length pageSize))
  else if key.length ≠ keySize then .error (.error (.invalidKeySize key.length keySize))
  else if value.length ≠ valueSize then .error (.error (.invalidValueSize value.length valueSize))
  else .ok ()

def overwriteValue (page : Bytes) (slotId : Nat) (key value : Bytes) : Result Bytes := do
  checkSizes page key value
  let slot <- readSlot page slotId
  if slot.2 ≠ payloadLen then
    throw (.error (.io .invalidInput "slot empty or wrong length"))
  if pageSize < slot.1 + payloadLen then
    throw (.error (.invalidPageSize (slot.1 + payloadLen) pageSize))
  let stored <- slice page slot.1 keySize
  if stored ≠ key then throw (.error (.io .invalidInput "slot key mismatch"))
  copyInto page (slot.1 + keySize) value

/-- Insert a record, in a free slot of the directory if there is one. -/
def insertRecord (page key value : Bytes) : Result (Bytes × Nat) := do
  checkSizes page key value
  let header <- readHeader page
  let freeSlot <- findFreeSlot page (List.range header.slots)
  let needed := if freeSlot.isNone then payloadLen + slotEntrySize else payloadLen
  let freeBytes := header.freeEnd - header.freeStart
  if freeBytes < needed then throw (.error (.invalidValueSize needed freeBytes))
  let slotId := freeSlot.getD header.slots
  let freeStart := if freeSlot.isNone then min (header.freeStart + slotEntrySize) maxU16
    else header.freeStart
  let slots := if freeSlot.isNone then min (header.slots + 1) maxU16 else header.slots
  let payloadOffset := header.freeEnd - payloadLen
  let page <- copyInto page payloadOffset key
  let page <- copyInto page (payloadOffset + keySize) value
  -- The new row has no commit LSN, no undo pointer and no flags.
  let page <- copyInto page (payloadOffset + keySize + valueSize) (List.replicate mvccHeaderSize 0)
  let page <- writeSlot page slotId payloadOffset payloadLen
  let page <- writeHeader page { slots := slots, freeStart := freeStart, freeEnd := payloadOffset }
  return (page, slotId)

/-- Redo of a put.  When the slot is empty or behind the directory, the record
goes wherever `insert_record` finds room. -/
def insertRecordAtSlotChecked (page : Bytes) (slotId : Nat) (key value : Bytes) : Result Bytes := do
  checkSizes page key value
  let header <- readHeader page
  if slotId < header.slots then
    let existing <- readValue page slotId key
    if existing.isSome then return <- overwriteValue page slotId key value
    let slot <- readSlot page slotId
    if slot.2 ≠ 0 then throw (.error (.io .invalidInput "wal slot key mismatch"))
  let inserted <- insertRecord page key value
  return inserted.1

end SlottedPage

end Storage
end ScaleKv
