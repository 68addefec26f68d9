import InsenseCVM.Lib.Interleaving
import InsenseCVM.Machine.CallChain
import InsenseCVM.Machine.Resumable

/-!
# Components in the file of the main component

A component that calls a procedure of the main component goes on with the `FILE` of the main component
itself, and a `FILE` has one position. Each component has the rest of its memory to itself; what it
gets from the others (values received, flags, the procedures of the main component) reaches it as
`news` in front of a step, in every run alike.

A step is an access to a file, a step on the memory, or a turn of a loop. The position of the main
component's `FILE` is set by `SEEK_SET`, looked at by `ftell`, and moved on by `fgetc` and `SEEK_CUR`.
-/

namespace InsenseCVM
open Execution ByteStream Interleaving

variable {α : Type}

/-- A step of a component, and what has come to its memory from the others. -/
structure ComponentStep where
  component : ℕ
  news : World → World

/-- The memory that a component has to itself, what is left of its program, and the bytes that it has
decoded. -/
structure Process where
  world : World
  program : Prog Unit
  decoded : List (Option UInt8)

/-- The component reads the `FILE` of the main component. -/
def World.OnMain (w : World) (this : ℕ) : Prop :=
  (w.component this).sourceFile = (w.component w.mainComponent).sourceFile

instance (w : World) (this : ℕ) : Decidable (w.OnMain this) :=
  inferInstanceAs (Decidable (_ = _))

/-- An access does not fail. -/
def Access.on (access : Access α) (f : File) : α × File :=
  match (access.program : EStateM Empty File α) f with
  | .ok a g => (a, g)
  | .error e _ => nomatch e

/-- The byte that was read. -/
def Access.bytes : Access α → α → List (Option UInt8)
  | .fgetc, byte => [byte]
  | _, _ => []

def Access.use : Access α → Use
  | .seekSet _ => .sets
  | .ftell => .looks
  | .fgetc | .seekCur _ => .moves

namespace Process

/-- One step of the component numbered `this`, with the `FILE` of the main component. A fault ends its
program. -/
def step (this : ℕ) (p : Process) (f : File) : Process × File :=
  match p.program with
  | .pure () => (p, f)
  | .act m k =>
    match m p.world with
    | .ok b w => ({ p with world := w, program := k b }, f)
    | .error _ w => ({ p with world := w, program := .pure () }, f)
  | .source access k =>
    if p.world.OnMain this then
      let (b, g) := access.on f
      ({ p with program := k b, decoded := p.decoded ++ access.bytes b }, g)
    else
      let (b, g) := access.on (p.world.source this)
      ({ world := p.world.setSource this g, program := k b,
         decoded := p.decoded ++ access.bytes b }, f)
  | .loop body b k =>
    ({ p with program := (body b).bind (Sum.elim (fun b' => .loop body b' k) k) }, f)

/-- What the next step does with the `FILE` of the main component. -/
def use (this : ℕ) (p : Process) : Use :=
  match p.program with
  | .source access _ => if p.world.OnMain this then access.use else .none
  | _ => .none

def hear (p : Process) (news : World → World) : Process := { p with world := news p.world }

end Process

theorem Access.on_contents (access : Access α) (f : File) :
    (access.on f).2.contents = f.contents := by
  cases access with
  | fgetc =>
    simp only [Access.on, Access.program, ByteStream.fgetc]
    cases f.contents[f.pos]? with
    | some b => rfl
    | none => rfl
  | ftell => rfl
  | seekSet pos => rfl
  | seekCur offset =>
    simp only [Access.on, Access.program, ByteStream.seekCur]
    by_cases h : (f.pos : ℤ) + offset < 0
    · simp only [if_pos h]
    · simp only [if_neg h]

theorem Access.on_of_sets {access : Access α} {f g : File} (h : access.use = .sets)
    (hfg : g.contents = f.contents) : access.on g = access.on f := by
  cases access with
  | seekSet pos =>
    show ((), { g with pos := pos }) = ((), { f with pos := pos })
    rw [hfg]
  | _ => cases h

/-- A step is an access to the `FILE` of the main component, or has nothing to do with it. -/
theorem Process.step_cases (this : ℕ) (p : Process) :
    (∃ (α : Type) (access : Access α) (next : α → Process), p.use this = access.use ∧
      ∀ f, p.step this f = (next (access.on f).1, (access.on f).2)) ∨
    p.use this = .none ∧ ∃ next, ∀ f, p.step this f = (next, f) := by
  unfold Process.use Process.step
  cases p.program with
  | pure => exact .inr ⟨rfl, p, fun _ => rfl⟩
  | act m k =>
    refine .inr ⟨rfl, ?_⟩
    cases hm : m p.world with
    | ok b w => exact ⟨{ p with world := w, program := k b }, fun _ => by simp only [hm]⟩
    | error e w => exact ⟨{ p with world := w, program := .pure () }, fun _ => by simp only [hm]⟩
  | source access k =>
    by_cases hmain : p.world.OnMain this
    · exact .inl ⟨_, access, fun b =>
        { p with program := k b, decoded := p.decoded ++ access.bytes b },
        by simp only [if_pos hmain], fun f => by simp only [if_pos hmain]⟩
    · exact .inr ⟨by simp only [if_neg hmain],
        { world := p.world.setSource this (access.on (p.world.source this)).2
          program := k (access.on (p.world.source this)).1
          decoded := p.decoded ++ access.bytes (access.on (p.world.source this)).1 },
        fun f => by simp only [if_neg hmain]⟩
  | loop body b k => exact .inr ⟨rfl, _, fun _ => rfl⟩

theorem Process.step_contents (this : ℕ) (p : Process) (f : File) :
    (p.step this f).2.contents = f.contents := by
  rcases p.step_cases this with ⟨α, access, next, -, hstep⟩ | ⟨-, next, hstep⟩
  · rw [hstep]
    exact Access.on_contents access f
  · rw [hstep]

theorem Process.step_of_keeps {this : ℕ} {p : Process} (h : (p.use this).Keeps) (f : File) :
    (p.step this f).2 = f := by
  rcases p.step_cases this with ⟨α, access, next, huse, hstep⟩ | ⟨-, next, hstep⟩
  · rw [huse] at h
    rw [hstep]
    cases access with
    | ftell => rfl
    | fgetc | seekSet _ | seekCur _ => exact absurd h id
  · rw [hstep]

theorem Process.step_of_none {this : ℕ} {p : Process} (h : p.use this = .none) (f g : File) :
    (p.step this g).1 = (p.step this f).1 := by
  rcases p.step_cases this with ⟨α, access, next, huse, -⟩ | ⟨-, next, hstep⟩
  · rw [huse] at h
    cases access <;> cases h
  · rw [hstep, hstep]

theorem Process.step_of_sets {this : ℕ} {p : Process} (h : p.use this = .sets) {f g : File}
    (hfg : g.contents = f.contents) : p.step this g = p.step this f := by
  rcases p.step_cases this with ⟨α, access, next, huse, hstep⟩ | ⟨hnone, -⟩
  · rw [huse] at h
    rw [hstep, hstep, Access.on_of_sets h hfg]
  · rw [hnone] at h
    cases h

/-- The components share the `FILE` of the main component. -/
def sharedSource : Sharing ℕ ComponentStep Process File where
  owner e := e.component
  step e p f := (p.hear e.news).step e.component f
  use e p := (p.hear e.news).use e.component
  same f g := g.contents = f.contents
  equivalence := ⟨fun _ => rfl, fun h => h.symm, fun h h' => h'.trans h⟩
  step_same e p f := Process.step_contents e.component (p.hear e.news) f
  step_keeps _ _ f h := Process.step_of_keeps h f
  step_none _ _ f g h := Process.step_of_none h f g
  step_sets _ _ _ _ h hfg := Process.step_of_sets h hfg

/-- Every component is at the start of its program; nothing was decoded yet. -/
def atStart {D : Type} (doubles : Doubles D) (other : Opcode → ℕ → Prog Unit) (world : ℕ → World)
    (source : File) : Interleaving.State ℕ Process File where
  process this := ⟨world this, Resumable.run this doubles other, []⟩
  shared := source
  user := none

variable {D : Type} {doubles : Doubles D} {other : Opcode → ℕ → Prog Unit} {world : ℕ → World}
  {source : File} {steps : List ComponentStep}

/-- **In a run in which no component looks at the position of the main component's file, or goes on
from it, when another component has moved it last, every component decodes the same bytes as it does
in its own steps alone.** -/
theorem decodes_as_alone
    (hown : sharedSource.OwnRun (atStart doubles other world source) steps) (this : ℕ) :
    ((sharedSource.run (atStart doubles other world source) steps).process this).decoded =
      ((sharedSource.run (atStart doubles other world source)
        (steps.filter (·.component = this))).process this).decoded :=
  congrArg Process.decoded (Sharing.run_alone hown this)

/-! ### A call beside the main component -/

/-- The main component, numbered `0`, in front of a call of its own procedure `q`, and the component
numbered `1` in front of one as well. -/
def besideStart : Interleaving.State ℕ Process File :=
  atStart binary64 (fun _ _ => pure ()) (fun _ => besideMain procedureQ) ⟨mainFile, 0⟩

/-- The main component reads an opcode, and then the other one takes `n` steps. -/
def oneCall (n : ℕ) : List ComponentStep := List.replicate 3 ⟨0, id⟩ ++ List.replicate n ⟨1, id⟩

/-- The component calls the procedure and reads its first byte. -/
theorem decodes_as_alone_oneCall :
    ((sharedSource.run besideStart (oneCall 34)).process 1).decoded =
      ((sharedSource.run besideStart ((oneCall 34).filter (·.component = 1))).process 1).decoded :=
  decodes_as_alone (by decide +kernel) 1

/-- After the call the main component reads on. -/
def mainGoesOn : List ComponentStep := oneCall 31 ++ [⟨0, id⟩]

/-- It reads the first byte of the procedure in place of the operand behind its opcode. -/
theorem main_decodes_otherwise :
    ((sharedSource.run besideStart mainGoesOn).process 0).decoded ≠
      ((sharedSource.run besideStart (mainGoesOn.filter (·.component = 0))).process 0).decoded := by
  decide +kernel

end InsenseCVM
