import InsenseCVM.Machine.IntegralOperators

/-!
# Structured conditionals

Conditionals with and without an else part, nested in each other and one after another, and the bytes
that stand for them in a file. The distance of an `IF` is the length of its branch, and that of an
`ELSE` the length of the else part.

What such a program means is told step by step, in a state that has the branches that are open, the
innermost first: an instruction does what its handler does, a conditional takes a truth value off the
data stack and chooses a branch, and behind a branch the else part is jumped over.
-/

namespace InsenseCVM
open Execution ByteStream

/-! ### Programs and their bytes -/

/-- An instruction that is no part of a conditional. -/
structure PlainInstruction where
  instruction : Instruction
  plain : instruction.opcode ≠ .ifClause ∧ instruction.opcode ≠ .elseClause

/-- A program of instructions and conditionals. What a conditional tests is the truth value that is on
top of the data stack when it is reached. -/
inductive Structured
  | done
  | instruction (i : PlainInstruction) (next : Structured)
  | ifThen (branch next : Structured)
  | ifThenElse (branch elseBranch next : Structured)

/-- A length as the operand of a jump. -/
def Distance.ofLength (n : ℕ) : Distance := ⟨(bytesOf 4 n).reverse, by simp⟩

namespace Structured

def code : Structured → List UInt8
  | done => []
  | instruction i next => i.instruction.encode ++ next.code
  | ifThen branch next =>
    (Instruction.ifClause (.ofLength branch.code.length)).encode ++ branch.code ++ next.code
  | ifThenElse branch elseBranch next =>
    (Instruction.ifClause (.ofLength branch.code.length)).encode ++ branch.code ++
      ((Instruction.elseClause (.ofLength elseBranch.code.length)).encode ++ elseBranch.code ++
        next.code)

/-- The lengths of all branches are numbers that an `INTEGER` has. -/
def Fits : Structured → Prop
  | done => True
  | instruction _ next => next.Fits
  | ifThen branch next => branch.code.length < 2 ^ 31 ∧ branch.Fits ∧ next.Fits
  | ifThenElse branch elseBranch next =>
    branch.code.length < 2 ^ 31 ∧ elseBranch.code.length < 2 ^ 31 ∧ branch.Fits ∧ elseBranch.Fits ∧
      next.Fits

/-- Behind every conditional without an else part there is more of the branch that it is in. -/
def Followed : Structured → Prop
  | done => True
  | instruction _ next => next.Followed
  | ifThen branch next => next ≠ .done ∧ branch.Followed ∧ next.Followed
  | ifThenElse branch elseBranch next => branch.Followed ∧ elseBranch.Followed ∧ next.Followed

/-- An `IF` with its branch. -/
def ifPart (branch : Structured) : List UInt8 :=
  (Instruction.ifClause (.ofLength branch.code.length)).encode ++ branch.code

/-- An `ELSE` with its branch. -/
def elsePart (elseBranch : Structured) : List UInt8 :=
  (Instruction.elseClause (.ofLength elseBranch.code.length)).encode ++ elseBranch.code

/-- One program behind another. -/
def append : Structured → Structured → Structured
  | done, p => p
  | instruction i next, p => .instruction i (next.append p)
  | ifThen branch next, p => .ifThen branch (next.append p)
  | ifThenElse branch elseBranch next, p => .ifThenElse branch elseBranch (next.append p)

/-- `if c then A` -/
def conditional (c branch : Structured) : Structured := c.append (.ifThen branch .done)

/-- `if c then A else B` -/
def alternative (c branch elseBranch : Structured) : Structured :=
  c.append (.ifThenElse branch elseBranch .done)

variable {p c branch elseBranch : Structured}

theorem code_append (q : Structured) : (p.append q).code = p.code ++ q.code := by
  induction p with
  | done => rfl
  | instruction i next ih => simp only [append, code, ih, List.append_assoc]
  | ifThen branch next _ ih => simp only [append, code, ih, List.append_assoc]
  | ifThenElse branch elseBranch next _ _ ih => simp only [append, code, ih, List.append_assoc]

theorem code_conditional : (conditional c branch).code = c.code ++ branch.ifPart := by
  rw [conditional, code_append, code, code, List.append_nil, ifPart]

theorem code_alternative :
    (alternative c branch elseBranch).code = c.code ++ (branch.ifPart ++ elseBranch.elsePart) := by
  rw [alternative, code_append, code, code, List.append_nil, ifPart, elsePart]

/-- A program that is not empty begins with an opcode, which is no `ELSE`. -/
theorem exists_code (hp : p ≠ .done) :
    ∃ op r, p.code = Opcode.byte op :: r ∧ op ≠ .elseClause := by
  cases p with
  | done => exact absurd rfl hp
  | instruction i next => exact ⟨i.instruction.opcode, _, rfl, i.plain.2⟩
  | ifThen branch next => exact ⟨.ifClause, _, rfl, by decide⟩
  | ifThenElse branch elseBranch next => exact ⟨.ifClause, _, rfl, by decide⟩

end Structured

/-! ### Meaning -/

/-- What is left of an open branch, and the else part behind it. -/
structure Branch where
  program : Structured
  elseBranch : Option Structured

/-- The bytes up to the end of the conditional. -/
def Branch.bytes (b : Branch) : List UInt8 :=
  b.program.code ++ (b.elseBranch.map Structured.elsePart).getD []

def Branch.Fits (b : Branch) : Prop :=
  b.program.Fits ∧ ∀ elseBranch ∈ b.elseBranch, elseBranch.code.length < 2 ^ 31

/-- The position and the opcode of the instruction that the component reads next. -/
def World.here (w : World) (this : ℕ) : Option (ℕ × Opcode) :=
  (w.opcodeAt this).map fun op => ((w.source this).pos, op)

/-- The component runs, and a truth value `b` is on top of its data stack. -/
def World.Tests (w : World) (this : ℕ) (b : Bool) (s : Stack ℕ) : Prop :=
  (w.component this).stop = false ∧ ∃ q a, (w.component this).dataStack.pop = some (some q, s) ∧
    w.cell q = some (.typed typeBool (some a)) ∧ w.cell a = some (boolCell b)

/-- The truth value has been taken off the stack, and the file is `n` bytes further on. -/
def World.tested (w : World) (this : ℕ) (s : Stack ℕ) (n : ℕ) : World :=
  (w.setComponent this { w.component this with dataStack := s }).setSource this
    ((w.source this).advance n)

section Meaning

variable {D : Type} (doubles : Doubles D) (channelInstruction : Opcode → ℕ → Exec Unit) (this : ℕ)

/-- One step of a program, with the instructions that it executes. An instruction of a program goes on
behind its operands. The distance in front of an else branch is read like any literal. -/
inductive Structured.Step :
    List Branch → World → List (ℕ × Opcode) → List Branch → World → Prop
  | instruction {i : PlainInstruction} {next : Structured} {behind : Option Structured}
      {outer : List Branch} {w u : World}
      (round : Returns (runOne doubles channelInstruction this) w true u)
      (onward : u.source this = (w.source this).advance i.instruction.encode.length) :
      Step (⟨.instruction i next, behind⟩ :: outer) w
        [((w.source this).pos, i.instruction.opcode)] (⟨next, behind⟩ :: outer) u
  | ifThen_true {branch next : Structured} {behind : Option Structured} {outer : List Branch}
      {w : World} {s : Stack ℕ} (test : w.Tests this true s) :
      Step (⟨.ifThen branch next, behind⟩ :: outer) w [((w.source this).pos, .ifClause)]
        (⟨branch, none⟩ :: ⟨next, behind⟩ :: outer) (w.tested this s 6)
  | ifThen_false {branch next : Structured} {behind : Option Structured} {outer : List Branch}
      {w : World} {s : Stack ℕ} (test : w.Tests this false s) :
      Step (⟨.ifThen branch next, behind⟩ :: outer) w [((w.source this).pos, .ifClause)]
        (⟨next, behind⟩ :: outer) (w.tested this s branch.ifPart.length)
  | ifThenElse_true {branch elseBranch next : Structured} {behind : Option Structured}
      {outer : List Branch} {w : World} {s : Stack ℕ} (test : w.Tests this true s) :
      Step (⟨.ifThenElse branch elseBranch next, behind⟩ :: outer) w
        [((w.source this).pos, .ifClause)]
        (⟨branch, some elseBranch⟩ :: ⟨next, behind⟩ :: outer) (w.tested this s 6)
  | ifThenElse_false {branch elseBranch next : Structured} {behind : Option Structured}
      {outer : List Branch} {w : World} {s : Stack ℕ} (test : w.Tests this false s) :
      Step (⟨.ifThenElse branch elseBranch next, behind⟩ :: outer) w
        [((w.source this).pos, .ifClause)]
        (⟨elseBranch, none⟩ :: ⟨next, behind⟩ :: outer)
        ((w.tested this s (branch.ifPart.length + 6)).boxed typeInteger
          (.bytes (Distance.ofLength elseBranch.code.length).bytes.reverse))
  | branch_end {outer : List Branch} {w : World} : Step (⟨.done, none⟩ :: outer) w [] outer w
  | branch_end_else {elseBranch : Structured} {outer : List Branch} {w : World}
      (running : (w.component this).stop = false) :
      Step (⟨.done, some elseBranch⟩ :: outer) w [((w.source this).pos, .elseClause)] outer
        (w.setSource this ((w.source this).advance elseBranch.elsePart.length))

/-- So many steps, each taken where `ok` holds. -/
inductive Structured.Steps (ok : List Branch → World → Prop) :
    ℕ → List Branch → World → List (ℕ × Opcode) → List Branch → World → Prop
  | refl (branches : List Branch) (w : World) : Steps ok 0 branches w [] branches w
  | step {n : ℕ} {branches branches₁ branches' : List Branch} {w w₁ w' : World}
      {executed executed' : List (ℕ × Opcode)} (allowed : ok branches w)
      (first : Step doubles channelInstruction this branches w executed branches₁ w₁)
      (rest : Steps ok n branches₁ w₁ executed' branches' w') :
      Steps ok (n + 1) branches w (executed ++ executed') branches' w'

/-- What the component executes from one state to another. A byte that is no opcode is passed over. -/
inductive Executed : World → List (ℕ × Opcode) → World → Prop
  | refl (w : World) : Executed w [] w
  | step {w u w' : World} {executed : List (ℕ × Opcode)}
      (first : Returns (runOne doubles channelInstruction this) w true u)
      (rest : Executed u executed w') :
      Executed w ((w.here this).toList ++ executed) w'

end Meaning

/-! ### Where a program lies -/

/-- All bytes up to the end of the outermost branch. -/
def Structured.bytes (branches : List Branch) : List UInt8 := branches.flatMap Branch.bytes

/-- The component is in front of what is left of the program, and `after` comes behind it. -/
structure Structured.Placed (this : ℕ) (after : List UInt8) (branches : List Branch) (w : World) :
    Prop where
  rest : (w.source this).rest = Structured.bytes branches ++ after
  fits : ∀ b ∈ branches, b.Fits

end InsenseCVM
