import InsenseCVM.Bytecode.Skip

/-!
# Well-formed instructions

An instruction carries its operands, so that the bytes of any instruction are well formed: names
have no `NUL`, a count fits its byte, literals have the size of their type.
-/

namespace InsenseCVM
open Execution ByteStream

/-- A name as it stands in the source file. -/
structure Name where
  bytes : List UInt8
  nulFree : 0 ∉ bytes

theorem nulFree_x : 0 ∉ [(120 : UInt8)] := by decide

theorem nulFree_y : 0 ∉ [(121 : UInt8)] := by decide

/-- A list whose length fits a byte. -/
structure Counted (α : Type) where
  items : List α
  few : items.length < 256

theorem few_nil {α : Type} : ([] : List α).length < 256 := by
  rw [List.length_nil]
  decide

/-- A typed name: a parameter, a channel without its direction or a field of a struct. -/
structure Field where
  type : UInt8
  name : Name

inductive Direction
  | «in» | out
deriving DecidableEq

structure ChannelField where
  direction : Direction
  field : Field

inductive Literal
  | fixed (type : UInt8) (value : List UInt8) (known : isFixedType type = true)
    (size : value.length = getSize 0 type)
  | string (name : Name)

/-- The distance of a jump, an `INTEGER`. -/
structure Distance where
  bytes : List UInt8
  size : bytes.length = 4

/-- An instruction with its operands. -/
inductive Instruction
  | stop (component : Name)
  | enterScope
  | exitScope
  | push (value : Literal)
  | declare (name : Name) (type : UInt8)
  | load (name : Name)
  | store (name : Name)
  | expression (op : Operator)
  | not
  | component (name : Name) (interfaces : Counted (Counted ChannelField))
  | call (component : Name) (parameters : UInt8)
  | constructor (parameters : Counted Field)
  | behaviourJump (distance : Distance)
  | jump (distance : Distance)
  | ifClause (distance : Distance)
  | elseClause (distance : Distance)
  | connect (component1 channel1 component2 channel2 : Name)
  | disconnect (component channel : Name)
  | send (channel : Name)
  | receive (channel : Name)
  | proc (name : Name) (parameters : Counted Field)
  | procReturn
  | procCall (name : Name)
  | blockEnd
  | structConstructor (fields : Counted Field)
  | structLoad (field : Name)
  | any
  | projectEntry (name : Name)
  | projectExit

/-! ### Bytes -/

def Name.encode (n : Name) : List UInt8 := typeString :: n.bytes ++ [0]

def Counted.encode {α : Type} (enc : α → List UInt8) (xs : Counted α) : List UInt8 :=
  UInt8.ofNat xs.items.length :: xs.items.flatMap enc

def Field.encode (field : Field) : List UInt8 := field.type :: field.name.encode

def Direction.byte : Direction → UInt8
  | .in => typeIn
  | .out => typeOut

def ChannelField.encode (c : ChannelField) : List UInt8 := c.direction.byte :: c.field.encode

def Literal.encode : Literal → List UInt8
  | .fixed type value _ _ => type :: value
  | .string name => name.encode

def Distance.encode (d : Distance) : List UInt8 := typeInteger :: d.bytes

namespace Instruction

def opcode : Instruction → Opcode
  | stop _ => .stop
  | enterScope => .enterScope
  | exitScope => .exitScope
  | push _ => .push
  | declare _ _ => .declare
  | load _ => .load
  | store _ => .store
  | expression op => .expression op
  | not => .not
  | component _ _ => .component
  | call _ _ => .call
  | constructor _ => .constructor
  | behaviourJump _ => .behaviourJump
  | jump _ => .jump
  | ifClause _ => .ifClause
  | elseClause _ => .elseClause
  | connect _ _ _ _ => .connect
  | disconnect _ _ => .disconnect
  | send _ => .send
  | receive _ => .receive
  | proc _ _ => .proc
  | procReturn => .procReturn
  | procCall _ => .procCall
  | blockEnd => .blockEnd
  | structConstructor _ => .struct
  | structLoad _ => .struct
  | any => .any
  | projectEntry _ => .projectEntry
  | projectExit => .projectExit

def operands : Instruction → List UInt8
  | stop name => name.encode
  | push value => value.encode
  | declare name type => name.encode ++ [type]
  | load name => name.encode
  | store name => name.encode
  | component name interfaces =>
    name.encode ++ interfaces.encode fun channels => channels.encode ChannelField.encode
  | call name parameters => name.encode ++ [parameters]
  | constructor parameters => parameters.encode Field.encode
  | behaviourJump distance => distance.encode
  | jump distance => distance.encode
  | ifClause distance => distance.encode
  | elseClause distance => distance.encode
  | connect component1 channel1 component2 channel2 =>
    component1.encode ++ (channel1.encode ++ (component2.encode ++ channel2.encode))
  | disconnect component1 channel1 => component1.encode ++ channel1.encode
  | send channel => channel.encode
  | receive channel => channel.encode
  | proc name parameters => name.encode ++ parameters.encode Field.encode
  | procCall name => name.encode
  | structConstructor fields => InsenseCVM.structConstructor :: fields.encode Field.encode
  | structLoad field => InsenseCVM.structLoad :: field.encode
  | projectEntry name => name.encode
  | enterScope | exitScope | expression _ | not | procReturn | blockEnd | any | projectExit => []

def encode (i : Instruction) : List UInt8 := i.opcode.byte :: i.operands

end Instruction

/-- The bytes of an instruction sequence. -/
def encodeAll (code : List Instruction) : List UInt8 := code.flatMap Instruction.encode

/-! ### Reading the bytes back -/

variable {f g : File} {bs r : List UInt8} {n : ℕ}

theorem reads_name (n : Name) : Reads readString n.encode (literal n.bytes) :=
  reads_readString n.nulFree

/-- The name of a parameter, or of a field of a struct, as it is read. -/
def Field.key (field : Field) : CString := literal field.name.bytes

/-- A name whose value is not looked at. -/
theorem reads_anyName (n : Name) : Reads (readString >>= fun _ => pure ()) n.encode () := by
  exact (reads_name n).map

theorem Reads.name {β : Type} {m : Reader β} {b : β} (n : Name) (h : Reads m bs b) :
    Reads (readString >>= fun _ => m) (n.encode ++ bs) b :=
  (reads_name n).bind h

theorem Reads.byte {β : Type} {q : Option UInt8 → Reader β} {b : β} (byte : UInt8)
    (h : Reads (q (some byte)) bs b) : Reads (fgetc >>= q) (byte :: bs) b :=
  reads_fgetc.bind h

theorem reads_anyByte (byte : UInt8) : Reads (fgetc >>= fun _ => (pure () : Reader Unit)) [byte] () :=
  Reads.byte byte Reads.pure

theorem reads_field (field : Field) : Reads readField field.encode () :=
  Reads.byte field.type (reads_anyName field.name)

theorem counted_length {α : Type} (xs : Counted α) :
    counted (some (UInt8.ofNat xs.items.length)) = xs.items.length :=
  UInt8.toNat_ofNat_of_lt' xs.few

/-- A count and as many items. -/
theorem Reads.counted {α : Type} {body : Reader Unit} {enc : α → List UInt8} (xs : Counted α)
    (h : ∀ x ∈ xs.items, Reads body (enc x) ()) :
    Reads (fgetc >>= fun parameters => times (counted parameters) body) (xs.encode enc) () := by
  refine Reads.byte _ ?_
  rw [counted_length]
  exact Reads.times xs.items h

theorem reads_fields (fields : Counted Field) :
    Reads (fgetc >>= fun parameters => times (counted parameters) readField)
      (fields.encode Field.encode) () :=
  Reads.counted fields fun field _ => reads_field field

theorem reads_readNBytes (value : List UInt8) :
    Reads (readNBytes value.length) value value.reverse := by
  induction value with
  | nil => exact Reads.pure
  | cons b value ih =>
    rw [List.reverse_cons]
    exact Reads.byte b ih.map

/-- The value that is read from a literal. -/
def Literal.datum : Literal → Datum
  | .fixed type value _ _ => .bytes type value.reverse
  | .string name => .string (InsenseCVM.literal name.bytes)

theorem reads_literal (value : Literal) : Reads readData value.encode (some value.datum) := by
  cases value with
  | fixed type value known size =>
    unfold readData
    refine Reads.byte type ?_
    have hread := reads_readNBytes value
    rw [size] at hread
    simp only [known, if_true]
    exact hread.map
  | string name =>
    intro f r h
    have hbyte : f.rest = typeString :: (name.bytes ++ [0] ++ r) := by
      rw [h]
      simp [Literal.encode, Name.encode]
    unfold readData
    refine (returns_fgetc_cons hbyte).bind ?_
    simp only
    rw [if_neg (by decide), if_pos trivial]
    refine returns_seekCur_back.bind ((reads_name name f r h).bind ?_)
    exact returns_pure.2 ⟨rfl, rfl⟩

theorem reads_distance (d : Distance) (message : String) :
    Reads (readDistance message) d.encode (signedOf d.bytes.reverse) := by
  intro f r h
  have hread := reads_literal (.fixed typeInteger d.bytes rfl d.size) f r h
  exact hread.bind (returns_pure.2 ⟨rfl, rfl⟩)

theorem reads_channel (c : ChannelField) : Reads readChannel c.encode () := by
  unfold readChannel
  refine Reads.byte _ ?_
  rw [if_pos (by cases c.direction <;> simp [Direction.byte])]
  exact reads_field c.field

end InsenseCVM
