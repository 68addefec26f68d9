import InsenseCVM.Bytecode.Table
import InsenseCVM.Collections.ListMap
import InsenseCVM.Lib.ByteStream
import Mathlib.Algebra.Group.Int.Defs
import Mathlib.Algebra.Group.Nat.Defs

/-!
# Reading the source file

`component_readString`, `component_readNBytes` and `component_readData`. A string is read twice:
once to find out how large a buffer it needs, and again to fill the buffer. A string whose `NUL`
is missing is never finished, since neither loop looks for the end of the file.
-/

namespace InsenseCVM
open Execution ByteStream

/-- A program that reads the component's source file. -/
abbrev Reader (α : Type) := EStateM Fault File α

def fatal {σ α : Type} (message : String) : EStateM Fault σ α := throw (.fatal message)

@[simp] theorem returns_fatal {σ α : Type} {message : String} {s t : σ} {a : α} :
    ¬ Returns (fatal message : EStateM Fault σ α) s a t :=
  returns_throw

def backslash : UInt8 := 92
def letterN : UInt8 := 110
def newline : UInt8 := 10

/-! ### Strings -/

/-- One round of the loop that finds the length; the state is `numChars` and `escapeChar`. -/
def countRound (state : ℕ × Bool) : Reader ((ℕ × Bool) ⊕ ℕ) := do
  let (numChars, escapeChar) := state
  let nextByte ← fgetc
  if nextByte = some 0 then pure (.inr numChars)
  else if nextByte = some backslash ∧ escapeChar = false then pure (.inl (numChars, true))
  else if nextByte ≠ some letterN ∧ nextByte ≠ some backslash ∧ escapeChar = true then
    pure (.inl (numChars + 2 + 1, false))
  else pure (.inl (numChars + 1, escapeChar))

/-- `string[index] = byte` -/
def writeAt (string : List UInt8) (index : ℕ) (byte : UInt8) : Reader (List UInt8) :=
  if index < string.length then pure (string.set index byte) else throw .undefined

/-- One round of the loop that fills the buffer; the state is `string`, `numChars` and
`escapeChar`. -/
def fillRound (state : List UInt8 × ℕ × Bool) :
    Reader ((List UInt8 × ℕ × Bool) ⊕ List UInt8) := do
  let (string, numChars, escapeChar) := state
  let nextByte ← fgetc
  if nextByte = some 0 then
    let string ← writeAt string numChars 0
    pure (.inr string)
  else if nextByte = some backslash ∧ escapeChar = false then
    pure (.inl (string, numChars, true))
  else if escapeChar = true then
    if nextByte = some letterN then
      let string ← writeAt string numChars newline
      pure (.inl (string, numChars + 1, false))
    else if nextByte = some backslash then
      let string ← writeAt string numChars backslash
      pure (.inl (string, numChars + 1, false))
    else pure (.inl (string, numChars + 1, false))
  else
    -- `EOF` is minus one, and its low byte is written
    let string ← writeAt string numChars (nextByte.getD 255)
    pure (.inl (string, numChars + 1, escapeChar))

/-- What a buffer is to the string functions of C: the bytes before the first `NUL`. -/
def cString (buffer : List UInt8) : CString := buffer.takeWhile (· ≠ 0)

def readString : Reader CString := do
  let nextByte ← fgetc
  if nextByte ≠ some typeString then
    fatal "Syntax error in string read - expected BYTECODE_TYPE_STRING (6), got %d"
  else
    let startPos ← ftell
    let file ← get
    let numChars ← iterate .endless countRound file.rounds (0, false)
    seekSet startPos
    let string := List.replicate (numChars + 1) 0
    let string ← iterate .endless fillRound file.rounds (string, 0, false)
    pure (cString string)

/-! ### Literals -/

/-- The bytes in the order in which they lie in memory: the last one read comes first. -/
def readNBytes : ℕ → Reader (List UInt8)
  | 0 => pure []
  | nBytes + 1 => do
    let nextChar ← fgetc
    let later ← readNBytes nBytes
    pure (later ++ [nextChar.getD 255])

/-- `TypedObject_getSize`: the bytes of a value of the type; the size of the structure that
heads a list map is a matter of the machine. -/
def getSize (listMapSize : ℕ) (type : UInt8) : ℕ :=
  if type = typeInteger then 4
  else if type = typeUnsignedInteger then 4
  else if type = typeReal then 8
  else if type = typeBool then 1
  else if type = typeByte then 1
  else if type = typeStruct then listMapSize
  else if type = typeAny then listMapSize
  else 0

/-- A value that was read from the source file, before a typed object is made of it. -/
inductive Datum
  | bytes (type : UInt8) (value : List UInt8)
  | string (value : CString)
deriving DecidableEq

/-- The bytes of a number, the lowest first. -/
def unsignedOf : List UInt8 → ℕ
  | [] => 0
  | byte :: bytes => byte.toNat + 256 * unsignedOf bytes

/-- The same bytes as a number in two's complement. -/
def signedOf (bytes : List UInt8) : ℤ :=
  if 2 * unsignedOf bytes < 256 ^ bytes.length then unsignedOf bytes
  else (unsignedOf bytes : ℤ) - 256 ^ bytes.length

/-- The types of the literals of a fixed size. -/
def isFixedType (type : UInt8) : Bool :=
  type = typeInteger || type = typeUnsignedInteger || type = typeReal || type = typeBool ||
    type = typeByte

/-- `none` stands for the `NULL` of an unrecognised type. -/
def readData : Reader (Option Datum) := do
  let type ← fgetc
  match type with
  | none => pure none
  | some type =>
    if isFixedType type = true then
      -- the size of a literal does not depend on that of a list map
      let value ← readNBytes (getSize 0 type)
      pure (some (.bytes type value))
    else if type = typeString then
      seekCur (-1)
      let value ← readString
      pure (some (.string value))
    else pure none

end InsenseCVM
