import InsenseCVM.Machine.Component

/-!
# The operators

`component_expression` and `component_not`. Numbers are compared and combined as values of type
`double`, which is a parameter here: what the handler needs of it is the structure `Doubles`. A
conversion of a `double` to an integer type outside the range of the type, a division by zero and
the like are undefined in C, and throw `undefined`.
-/

namespace InsenseCVM
open Execution

/-- The type `double`. -/
structure Doubles (D : Type) where
  ofBytes : List UInt8 → D
  toBytes : D → List UInt8
  ofInt : ℤ → D
  /-- The integral part, which a NaN and an infinity do not have. -/
  truncate : D → Option ℤ
  add : D → D → D
  sub : D → D → D
  mul : D → D → D
  div : D → D → D
  less : D → D → Bool
  lessEqual : D → D → Bool
  equal : D → D → Bool

/-- The lowest `width` bytes of a number in two's complement, the lowest first. -/
def bytesOf : ℕ → ℤ → List UInt8
  | 0, _ => []
  | width + 1, z => UInt8.ofNat (z % 256).toNat :: bytesOf width (z / 256)

/-- The `double` of IEEE 754. Outside the range of every integer type a value has no integral part
here, since there is no use for one. -/
def binary64 : Doubles Float where
  ofBytes value := Float.ofBits (UInt64.ofNat (unsignedOf value))
  toBytes value := bytesOf 8 value.toBits.toNat
  ofInt := Float.ofInt
  truncate value := if value.abs < Float.ofInt (2 ^ 62) then some value.toInt64.toInt else none
  add := Float.add
  sub := Float.sub
  mul := Float.mul
  div := Float.div
  less := Float.lt
  lessEqual := Float.le
  equal := Float.beq

/-- `TypedObject_isNumber` -/
def isNumber (type : UInt8) : Bool :=
  type = typeInteger || type = typeReal || type = typeByte || type = typeUnsignedInteger

def mismatchMessage : String := "Syntax error in EXPR %u - Operand Type Mismatched"

def booleanMessage : String := "Syntax error in EXPR %u - Boolean Operands expected"

/-- An operand that was popped: its type, its object and its value as a `double`. -/
structure Operand (D : Type) where
  type : UInt8
  object : Option ℕ
  value : D

variable {D : Type} (doubles : Doubles D)

/-- `castFirst` and `castSecond` -/
def castOperand (pointer : Option ℕ) : Exec (Operand D) := do
  let (type, object) ← typedObject pointer
  if type = typeReal then return ⟨type, object, doubles.ofBytes (← bytesAt object)⟩
  else if type = typeUnsignedInteger then
    return ⟨type, object, doubles.ofInt (unsignedOf (← bytesAt object))⟩
  else if type = typeInteger then
    return ⟨type, object, doubles.ofInt (signedOf (← bytesAt object))⟩
  else if type = typeByte then
    return ⟨type, object, doubles.ofInt (signedOf (← bytesAt object))⟩
  else return ⟨type, object, doubles.ofInt 0⟩

/-- A conversion to an integer type whose values go from `low` to below `high`. -/
def toIntegral (low high : ℤ) (value : D) : Exec ℤ :=
  match doubles.truncate value with
  | some z => if low ≤ z ∧ z < high then pure z else throw .undefined
  | none => throw .undefined

def toInt (value : D) : Exec ℤ := toIntegral doubles (-2 ^ 31) (2 ^ 31) value

/-- `ADD`, `SUB`, `MUL` and `DIV`. -/
def arithmetic (combine : D → D → D) (first second : Operand D) : Exec (UInt8 × List UInt8) := do
  if !isNumber first.type || !isNumber second.type then fatal mismatchMessage
  else
    let result := combine first.value second.value
    if first.type = typeReal ∨ second.type = typeReal then
      return (typeReal, doubles.toBytes result)
    else if first.type = typeUnsignedInteger ∨ second.type = typeUnsignedInteger then
      return (typeUnsignedInteger, bytesOf 4 (← toIntegral doubles 0 (2 ^ 32) result))
    else if first.type = typeInteger ∨ second.type = typeInteger then
      return (typeInteger, bytesOf 4 (← toInt doubles result))
    else
      return (typeByte, bytesOf 1 (← toIntegral doubles (-2 ^ 7) (2 ^ 7) result))

/-- The remainder of two values of type `int`, with the sign of the first. -/
def remainder (first second : D) : Exec ℤ := do
  let first ← toInt doubles first
  let second ← toInt doubles second
  if second = 0 ∨ (first = -2 ^ 31 ∧ second = -1) then throw .undefined
  else return first.tmod second

def modulo (first second : Operand D) : Exec (UInt8 × List UInt8) := do
  if !isNumber first.type || !isNumber second.type then fatal mismatchMessage
  else if first.type = typeReal ∨ second.type = typeReal then fatal mismatchMessage
  else
    let result ← remainder doubles first.value second.value
    if first.type = typeUnsignedInteger ∨ second.type = typeUnsignedInteger then
      return (typeUnsignedInteger, bytesOf 4 result)
    else if first.type = typeInteger ∨ second.type = typeInteger then
      return (typeInteger, bytesOf 4 result)
    else return (typeByte, bytesOf 1 result)

/-- `AND` and `OR`: the second operand is looked at when the first is `decides`. -/
def logical (decides : Bool) (first second : Operand D) : Exec (UInt8 × List UInt8) := do
  if first.type ≠ typeBool ∨ second.type ≠ typeBool then fatal booleanMessage
  else
    let value ← boolAt first.object
    let result ← if value = decides then boolAt second.object else pure value
    return (typeBool, [if result then 1 else 0])

def comparison (compare : D → D → Bool) (first second : Operand D) :
    Exec (UInt8 × List UInt8) := do
  if !isNumber first.type || !isNumber second.type then fatal mismatchMessage
  else return (typeBool, [if compare first.value second.value then 1 else 0])

/-- The type and the bytes of the result. -/
def operate (first second : Operand D) : Operator → Exec (UInt8 × List UInt8)
  | .add => arithmetic doubles doubles.add first second
  | .sub => arithmetic doubles doubles.sub first second
  | .mul => arithmetic doubles doubles.mul first second
  | .div => arithmetic doubles doubles.div first second
  | .mod => modulo doubles first second
  | .and => logical true first second
  | .or => logical false first second
  | .less => comparison doubles.less first second
  | .lessEqual => comparison doubles.lessEqual first second
  | .equal => comparison doubles.equal first second
  | .moreEqual => comparison (fun a b => doubles.lessEqual b a) first second
  | .more => comparison (fun a b => doubles.less b a) first second
  | .unequal => comparison (fun a b => !doubles.equal a b) first second

/-! ### The operators only look at their operands -/

theorem keeps_castOperand {pointer : Option ℕ} : Keeps (castOperand doubles pointer) := by
  unfold castOperand
  refine keeps_typedObject.bind fun operand => ?_
  have hbytes : ∀ (object : Option ℕ) (k : List UInt8 → Operand D),
      Keeps (do return k (← bytesAt object)) :=
    fun object k => keeps_bytesAt.bind fun _ => Keeps.pure
  refine Keeps.ite (hbytes _ _) (Keeps.ite (hbytes _ _) ?_)
  exact Keeps.ite (hbytes _ _) (Keeps.ite (hbytes _ _) Keeps.pure)

theorem keeps_toIntegral {low high : ℤ} {value : D} :
    Keeps (toIntegral doubles low high value) := by
  unfold toIntegral
  split
  · exact Keeps.ite Keeps.pure Keeps.throw
  · exact Keeps.throw

theorem keeps_arithmetic {combine : D → D → D} {first second : Operand D} :
    Keeps (arithmetic doubles combine first second) := by
  unfold arithmetic
  have hbytes : ∀ (low high : ℤ) (result : D) (k : ℤ → UInt8 × List UInt8),
      Keeps (do return k (← toIntegral doubles low high result)) :=
    fun _ _ _ _ => (keeps_toIntegral doubles).bind fun _ => Keeps.pure
  refine Keeps.ite Keeps.throw (Keeps.ite Keeps.pure ?_)
  exact Keeps.ite (hbytes _ _ _ _) (Keeps.ite (hbytes _ _ _ _) (hbytes _ _ _ _))

theorem keeps_modulo {first second : Operand D} : Keeps (modulo doubles first second) := by
  unfold modulo
  refine Keeps.ite Keeps.throw (Keeps.ite Keeps.throw ?_)
  have hremainder : Keeps (remainder doubles first.value second.value) :=
    (keeps_toIntegral doubles).bind fun _ => (keeps_toIntegral doubles).bind fun _ =>
      Keeps.ite Keeps.throw Keeps.pure
  exact hremainder.bind fun _ => Keeps.ite Keeps.pure (Keeps.ite Keeps.pure Keeps.pure)

omit doubles in
theorem keeps_logical {decides : Bool} {first second : Operand D} :
    Keeps (logical decides first second) := by
  unfold logical
  refine Keeps.ite Keeps.throw (keeps_boolAt.bind fun value => ?_)
  split_ifs
  · exact keeps_boolAt.bind fun _ => Keeps.pure
  · exact Keeps.pure.bind fun _ => Keeps.pure

omit doubles in
theorem keeps_comparison {compare : D → D → Bool} {first second : Operand D} :
    Keeps (comparison compare first second) := by
  unfold comparison
  exact Keeps.ite Keeps.throw Keeps.pure

theorem keeps_operate {first second : Operand D} (op : Operator) :
    Keeps (operate doubles first second op) := by
  cases op with
  | add | sub | mul | div => exact keeps_arithmetic doubles
  | mod => exact keeps_modulo doubles
  | and | or => exact keeps_logical
  | less | lessEqual | equal | moreEqual | more | unequal =>
    unfold operate
    exact keeps_comparison

namespace Component

variable (this : ℕ)

def expression (bytecodeOp : Operator) : Exec Unit := do
  let c ← self this
  if c.dataStack.size < 2 then fatal "Syntax error in EXPR %u - Not enough data in stack"
  else
    let second ← popData this
    let first ← popData this
    let first ← castOperand doubles first
    let second ← castOperand doubles second
    let (type, value) ← operate doubles first second bytecodeOp
    let object ← alloc (.bytes value)
    let result ← construct type (some object)
    pushData this (some result)

/-- The operand is negated where it lies, and pushed again. -/
def not : Exec Unit := do
  let c ← self this
  if c.dataStack.size = 0 then fatal "Syntax error in NOT - Not enough data in stack"
  else
    let first ← popData this
    let (type, object) ← typedObject first
    if type ≠ typeBool then fatal "Syntax error in NOT - Boolean Operand expected"
    else
      let value ← boolAt object
      let address ← follow object
      modify fun w => { w with cell := Function.update w.cell address (some (boolCell !value)) }
      pushData this first

end Component

end InsenseCVM
