import Mathlib.Tactic.Common

/-!
# The bytecode table

Type bytes and opcodes, and the three ways in which the interpreter can stop in the middle of an
instruction.
-/

namespace InsenseCVM

/-- Why a component stops in the middle of an instruction. -/
inductive Fault
  /-- A `FATAL` message was logged and the component cleaned up and stopped. -/
  | fatal (message : String)
  /-- A loop goes on for ever. -/
  | endless
  /-- `NULL` was followed, or memory outside an allocation written. -/
  | undefined
deriving DecidableEq

/-! ### Types -/

def typeUnknown : UInt8 := 0
def typeInteger : UInt8 := 1
def typeUnsignedInteger : UInt8 := 2
def typeReal : UInt8 := 3
def typeBool : UInt8 := 4
def typeByte : UInt8 := 5
def typeString : UInt8 := 6
def typeArray : UInt8 := 7
def typeComponent : UInt8 := 8
def typeInterface : UInt8 := 9
def typeIn : UInt8 := 10
def typeOut : UInt8 := 11
def typeStruct : UInt8 := 12
def typeAny : UInt8 := 13

/-! ### Opcodes -/

/-- The binary operators, which `component_expression` serves. -/
inductive Operator
  | add | sub | mul | div | mod
  | less | lessEqual | more | moreEqual | equal | unequal
  | and | or
deriving DecidableEq

/-- The opcodes that `component_run` dispatches. -/
inductive Opcode
  | stop | enterScope | exitScope | push | declare | load | store
  | expression (op : Operator)
  | not
  | component | call | constructor | behaviourJump | jump | ifClause | elseClause
  | connect | disconnect | send | receive
  | proc | procReturn | procCall | blockEnd
  | struct | any | projectEntry | projectExit
deriving DecidableEq

def Operator.byte : Operator → UInt8
  | .add => 7 | .sub => 8 | .mul => 9 | .div => 10 | .mod => 11
  | .less => 12 | .lessEqual => 13 | .more => 14 | .moreEqual => 15 | .equal => 16
  | .unequal => 17 | .and => 18 | .or => 19

def Opcode.byte : Opcode → UInt8
  | .stop => 0 | .enterScope => 1 | .exitScope => 2 | .push => 3 | .declare => 4
  | .load => 5 | .store => 6 | .expression op => op.byte | .not => 20
  | .component => 25 | .call => 26 | .constructor => 27 | .behaviourJump => 28 | .jump => 29
  | .ifClause => 30 | .elseClause => 31 | .connect => 32 | .disconnect => 33 | .send => 34
  | .receive => 35 | .proc => 36 | .procReturn => 37 | .procCall => 38 | .blockEnd => 39
  | .struct => 40 | .any => 41 | .projectEntry => 42 | .projectExit => 43

/-- The case of the `switch` in `component_run` that a byte selects. -/
def Opcode.ofByte : UInt8 → Option Opcode
  | 0 => some .stop
  | 1 => some .enterScope
  | 2 => some .exitScope
  | 3 => some .push
  | 4 => some .declare
  | 5 => some .load
  | 6 => some .store
  | 7 => some (.expression .add)
  | 8 => some (.expression .sub)
  | 9 => some (.expression .mul)
  | 10 => some (.expression .div)
  | 11 => some (.expression .mod)
  | 12 => some (.expression .less)
  | 13 => some (.expression .lessEqual)
  | 14 => some (.expression .more)
  | 15 => some (.expression .moreEqual)
  | 16 => some (.expression .equal)
  | 17 => some (.expression .unequal)
  | 18 => some (.expression .and)
  | 19 => some (.expression .or)
  | 20 => some .not
  | 25 => some .component
  | 26 => some .call
  | 27 => some .constructor
  | 28 => some .behaviourJump
  | 29 => some .jump
  | 30 => some .ifClause
  | 31 => some .elseClause
  | 32 => some .connect
  | 33 => some .disconnect
  | 34 => some .send
  | 35 => some .receive
  | 36 => some .proc
  | 37 => some .procReturn
  | 38 => some .procCall
  | 39 => some .blockEnd
  | 40 => some .struct
  | 41 => some .any
  | 42 => some .projectEntry
  | 43 => some .projectExit
  | _ => none

@[simp] theorem Opcode.ofByte_byte (op : Opcode) : Opcode.ofByte op.byte = some op := by
  cases op with
  | expression op => cases op <;> rfl
  | _ => rfl

theorem Opcode.byte_injective {op op' : Opcode} (h : op.byte = op'.byte) : op = op' := by
  have := congrArg Opcode.ofByte h
  simpa using this

/-- The second byte of a `STRUCT` instruction. -/
def structConstructor : UInt8 := 1
def structLoad : UInt8 := 2

end InsenseCVM
