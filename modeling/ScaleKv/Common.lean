import Mathlib.Algebra.Ring.Nat
import Mathlib.Data.List.Lex
import Mathlib.Order.Fin.Basic

namespace ScaleKv

/-!
# Sizes, keys and identifiers

The constants and the type abbreviations of `common.rs`.  Page ids and log
sequence numbers are unsigned 64-bit counters in the source; they are natural
numbers here, and the few functions whose result depends on the word size say
so where they are defined.
-/

/-- `PAGE_SIZE`, in bytes. -/
def pageSize : Nat := 16 * 1024

/-- `KEY_SIZE`, in bytes. -/
def keySize : Nat := 16

/-- `VALUE_SIZE`, in bytes. -/
def valueSize : Nat := 1024

/-- `isize::MAX`, in bytes: a vector with room for more is a panic. -/
def isizeMax : Nat := 2 ^ 63 - 1

abbrev PageId := Nat

/-- A byte string: `Vec<u8>`, `&[u8]` and `Bytes` of the source. -/
abbrev Bytes := List UInt8

/-- `[u8; KEY_SIZE]`.  The length is part of the value, so that a key of
another size cannot be formed. -/
structure Key where
  bytes : Bytes
  length_eq : bytes.length = keySize

namespace Key

theorem ext_bytes {left right : Key} (same : left.bytes = right.bytes) : left = right := by
  cases left
  cases right
  cases same
  rfl

theorem map_toFin_injective :
    Function.Injective (fun key : Key => key.bytes.map UInt8.toFin) := by
  intro _ _ same
  apply ext_bytes
  have bytewise : Function.Injective UInt8.toFin := fun _ _ equal => UInt8.toFin_inj.mp equal
  exact List.map_injective_iff.mpr bytewise same

/-- Byte arrays compare lexicographically. -/
instance linearOrder : LinearOrder Key :=
  LinearOrder.lift' (fun key => key.bytes.map UInt8.toFin) map_toFin_injective

/-- The key whose last byte is the given number. -/
def ofNat (number : Nat) : Key :=
  ⟨List.replicate 15 0 ++ [UInt8.ofNat number], by simp [keySize]⟩

end Key

/-- The kinds of `std::io::Error` that the source builds itself. -/
inductive IoErrorKind
  | invalidInput
  | invalidData
  | wouldBlock
  | brokenPipe
  | interrupted
  | alreadyExists
  | notFound
  | unexpectedEof
  | other
deriving DecidableEq

/-- `Error` of the crate, without the transport errors. -/
inductive Error
  | io (kind : IoErrorKind) (message : String)
  | invalidPageSize (actual expected : Nat)
  | invalidValueSize (actual limit : Nat)
  | invalidKeySize (actual expected : Nat)
  | inMemoryPageMissing (page : PageId)
  | txnTimeout
deriving DecidableEq

/-- How a call ends without a value: with an error, or with a panic such as an
index out of bounds. -/
inductive Fault
  | error (error : Error)
  | panicked
deriving DecidableEq

abbrev Result (Value : Type) := Except Fault Value

/-- Peel the first computation off a bind that succeeds. -/
theorem bind_eq_ok {Failure First Second : Type} {computation : Except Failure First}
    {continuation : First -> Except Failure Second} {result : Second} :
    computation >>= continuation = .ok result <->
      ∃ first, computation = .ok first ∧ continuation first = .ok result := by
  cases computation with
  | error => simp [bind, Except.bind]
  | ok => simp [bind, Except.bind]

theorem length_of_mapM {Failure First Second : Type} {call : First -> Except Failure Second}
    {inputs : List First} {values : List Second} (collected : inputs.mapM call = .ok values) :
    values.length = inputs.length := by
  induction inputs generalizing values with
  | nil =>
    cases collected
    rfl
  | cons input rest ih =>
    rw [List.mapM_cons] at collected
    rcases bind_eq_ok.mp collected with ⟨_, _, others⟩
    rcases bind_eq_ok.mp others with ⟨_, called, done⟩
    cases done
    rw [List.length_cons, List.length_cons, ih called]

theorem ok_of_toOption {Fault Value : Type} {result : Except Fault Value} {value : Value}
    (returned : result.toOption = some value) : result = .ok value := by
  cases result with
  | error => cases returned
  | ok => exact congrArg _ (Option.some.inj returned)

/-- A page image of the right length, `[u8; PAGE_SIZE]`. -/
structure PageImage where
  bytes : Bytes
  length_eq : bytes.length = pageSize
deriving DecidableEq

namespace PageImage

/-- Check the length of a slice before it is stored as a page. -/
def ofSlice (slice : Bytes) : Result PageImage :=
  if length_eq : slice.length = pageSize then .ok ⟨slice, length_eq⟩
  else .error (.error (.invalidPageSize slice.length pageSize))

theorem ofSlice_eq_ok {slice : Bytes} {image : PageImage} :
    ofSlice slice = .ok image <-> image.bytes = slice := by
  unfold ofSlice
  split
  · next _ =>
    rw [Except.ok.injEq]
    constructor
    · intro equal
      rw [← equal]
    · intro equal
      cases image
      cases equal
      rfl
  · next length_ne =>
    simp only [reduceCtorEq, false_iff]
    intro equal
    exact length_ne (equal ▸ image.length_eq)

/-- `vec![byte; PAGE_SIZE]`. -/
def filled (byte : UInt8) : PageImage :=
  ⟨List.replicate pageSize byte, List.length_replicate⟩

/-- The all-zero page, which the page file does not tell from a missing one. -/
def zero : PageImage := filled 0

end PageImage

end ScaleKv
