import Mathlib.Algebra.Ring.Nat
import Mathlib.Data.List.Basic

namespace ScaleKv
namespace Foundation

open List

/-!
# Reading encoded values back

A reader takes a value off the front of a byte string or fails.  `Reads` says
that a reader takes exactly the given bytes, whatever follows them, and returns
the given value; readers in sequence read encodings in sequence.
-/

/-! ## Little-endian numbers -/

namespace LittleEndian

def encode : Nat -> Nat -> List UInt8
  | 0, _ => []
  | width + 1, number => UInt8.ofNat number :: encode width (number / 256)

def decode : List UInt8 -> Nat
  | [] => 0
  | byte :: rest => byte.toNat + 256 * decode rest

@[simp]
theorem length_encode (width number : Nat) : (encode width number).length = width := by
  induction width generalizing number with
  | zero => rfl
  | succ _ ih => simp [encode, ih]

/-- What does not fit the bytes is cut off. -/
theorem decode_encode_mod (width number : Nat) : decode (encode width number) = number % 256 ^ width := by
  induction width generalizing number with
  | zero =>
    rw [Nat.pow_zero, Nat.mod_one]
    rfl
  | succ width ih =>
    unfold encode decode
    rw [ih]
    change number % 256 + 256 * (number / 256 % 256 ^ width) = number % 256 ^ (width + 1)
    rw [Nat.pow_succ', Nat.mod_mul]

theorem decode_encode {width number : Nat} (fits : number < 256 ^ width) :
    decode (encode width number) = number := by
  rw [decode_encode_mod, Nat.mod_eq_of_lt fits]

end LittleEndian

/-! ## Readers -/

variable {Fault Value Result : Type}

abbrev ByteReader (Fault : Type) := StateT (List UInt8) (Except Fault)

namespace ByteReader

/-- Take some bytes off the front. -/
def take (short : Fault) (count : Nat) : ByteReader Fault (List UInt8) := fun bytes =>
  if bytes.length < count then .error short else .ok (bytes.take count, bytes.drop count)

def number (short : Fault) (width : Nat) : ByteReader Fault Nat := do
  let bytes <- take short width
  return LittleEndian.decode bytes

/-- Read one value after another. -/
def many (reader : ByteReader Fault Value) : Nat -> ByteReader Fault (List Value)
  | 0 => return []
  | count + 1 => do
      let value <- reader
      let rest <- many reader count
      return value :: rest

/-- The reader takes exactly these bytes. -/
def Reads (reader : ByteReader Fault Value) (bytes : List UInt8) (value : Value) : Prop :=
  ∀ rest, reader (bytes ++ rest) = .ok (value, rest)

theorem reads_pure (value : Value) : Reads (pure value : ByteReader Fault Value) [] value :=
  fun _ => rfl

variable {reader : ByteReader Fault Value} {next : Value -> ByteReader Fault Result} {value : Value}

theorem Reads.bind {first second : List UInt8} {result : Result} (reads : Reads reader first value)
    (readsNext : Reads (next value) second result) :
    Reads (reader >>= next) (first ++ second) result := by
  intro rest
  have taken := reads (second ++ rest)
  rw [append_assoc]
  change (reader (first ++ (second ++ rest)) >>= fun pair => next pair.1 pair.2) = _
  rw [taken]
  exact readsNext rest

theorem Reads.map {bytes : List UInt8} (reads : Reads reader bytes value) (result : Value -> Result) :
    Reads (reader >>= fun value => pure (result value)) bytes (result value) := by
  have done : Reads (reader >>= fun value => pure (result value)) (bytes ++ []) (result value) :=
    reads.bind (reads_pure (result value))
  rw [append_nil] at done
  exact done

theorem reads_take (short : Fault) (bytes : List UInt8) :
    Reads (take short bytes.length) bytes bytes := by
  intro _
  unfold take
  rw [if_neg (by simp), take_left, drop_left]

theorem reads_number (short : Fault) {width value : Nat} (fits : value < 256 ^ width) :
    Reads (number short width) (LittleEndian.encode width value) value := by
  have taken := (reads_take short (LittleEndian.encode width value)).map LittleEndian.decode
  rw [LittleEndian.length_encode, LittleEndian.decode_encode fits] at taken
  exact taken

theorem reads_many {encoding : Value -> List UInt8} {values : List Value}
    (reads : ∀ value ∈ values, Reads reader (encoding value) value) :
    Reads (many reader values.length) (values.flatMap encoding) values := by
  induction values with
  | nil => exact reads_pure []
  | cons head tail ih =>
    have tailReads := ih (fun value member => reads value (mem_cons_of_mem _ member))
    rw [flatMap_cons]
    refine (reads head mem_cons_self).bind ?_
    exact tailReads.map (fun rest => head :: rest)

/-! ## More bytes behind -/

/-- Bytes behind those that the reader has looked at make no difference. -/
def Extends (reader : ByteReader Fault Value) : Prop :=
  ∀ bytes value rest more, reader bytes = .ok (value, rest) ->
    reader (bytes ++ more) = .ok (value, rest ++ more)

theorem extends_pure (value : Value) : Extends (pure value : ByteReader Fault Value) := by
  intro _ _ _ _ taken
  cases taken
  rfl

theorem extends_throw (fault : Fault) : Extends (throw fault : ByteReader Fault Value) := by
  nofun

theorem Extends.bind (first : Extends reader) (second : ∀ value, Extends (next value)) :
    Extends (reader >>= next) := by
  intro bytes result rest more taken
  change (reader bytes >>= fun pair => next pair.1 pair.2) = .ok (result, rest) at taken
  change (reader (bytes ++ more) >>= fun pair => next pair.1 pair.2) = _
  cases read : reader bytes with
  | error =>
    rw [read] at taken
    cases taken
  | ok pair =>
    rw [read] at taken
    rw [first bytes pair.1 pair.2 more read]
    exact second pair.1 pair.2 result rest more taken

theorem extends_take (short : Fault) (count : Nat) : Extends (take short count) := by
  intro bytes _ _ _ taken
  unfold take at taken ⊢
  split at taken
  · cases taken
  · next enough =>
    cases taken
    have inside : count ≤ bytes.length := Nat.le_of_not_lt enough
    rw [if_neg (by rw [length_append]; omega), take_append_of_le_length inside,
      drop_append_of_le_length inside]

theorem extends_number (short : Fault) (width : Nat) : Extends (number short width) :=
  (extends_take short width).bind (fun _ => extends_pure _)

theorem Extends.many (one : Extends reader) (count : Nat) : Extends (many reader count) := by
  induction count with
  | zero => exact extends_pure []
  | succ _ ih =>
    exact one.bind (fun value => ih.bind (fun rest => extends_pure (value :: rest)))

end ByteReader

end Foundation
end ScaleKv
