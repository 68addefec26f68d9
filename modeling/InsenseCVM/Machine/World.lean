import InsenseCVM.Bytecode.Skip
import InsenseCVM.Collections.ScopeStack
import InsenseCVM.Collections.Stack

/-!
# The state of the machine

Components, open files and the heap of the values they share. A pointer to a value is an address
in the heap, and `NULL` is `none`. Nothing is ever taken out of the heap: reference counts are not
part of this state.

A handler is a program of type `Exec`, run for the component numbered `this`.
-/

namespace InsenseCVM
open Execution ByteStream

/-- What a pointer to a value can point to. -/
inductive Cell
  /-- A `TypedObject`. -/
  | typed (type : UInt8) (object : Option ℕ)
  /-- The bytes of a number or a truth value, in the order in which they lie in memory. -/
  | bytes (value : List UInt8)
  | string (value : CString)
  /-- The fields of a struct. -/
  | map (fields : ListMap ℕ)
  | long (value : ℕ)
  /-- A `FILE*`, null where the file could not be opened. -/
  | file (handle : Option ℕ)
  | component (id : ℕ)

/-- `struct Procedure`. -/
structure Procedure where
  name : CString
  position : ℕ
  parameterNames : IteratedList CString

/-- `struct Component`, without its channels. -/
structure Component where
  name : CString
  sourceFile : ℕ
  parameters : Option (IteratedList ℕ)
  scopeStack : Option (ScopeStack ℕ)
  dataStack : Stack ℕ
  waitComponents : Option (Stack ℕ)
  procs : Option (ListMap Procedure)
  stop : Bool
  running : Bool
  inProject : Bool

structure World where
  component : ℕ → Component
  /-- Components below this number have been allocated. -/
  components : ℕ
  /-- The components for which a thread was created. -/
  started : List ℕ
  mainComponent : ℕ
  cell : ℕ → Option Cell
  fresh : ℕ
  /-- Open files, by their handle. -/
  file : ℕ → File
  handles : ℕ
  /-- The bytecode files, by their path. -/
  disk : CString → Option (List UInt8)
  directory : CString
  standardFunctions : ListMap Procedure

/-- A program of the machine. -/
abbrev Exec (α : Type) := EStateM Fault World α

variable {α : Type} {this : ℕ} {w w' : World} {a : α}

/-! ### Parts of the state -/

def World.setComponent (w : World) (this : ℕ) (c : Component) : World :=
  { w with component := Function.update w.component this c }

/-- The file a component reads. -/
def World.source (w : World) (this : ℕ) : File := w.file (w.component this).sourceFile

def World.setSource (w : World) (this : ℕ) (f : File) : World :=
  { w with file := Function.update w.file (w.component this).sourceFile f }

@[simp] theorem World.setSource_component (f : File) :
    (w.setSource this f).component = w.component := rfl

@[simp] theorem World.source_setSource (f : File) : (w.setSource this f).source this = f := by
  unfold World.source World.setSource
  exact Function.update_self ..

@[simp] theorem World.setSource_setSource (f g : File) :
    (w.setSource this f).setSource this g = w.setSource this g := by
  simp [World.setSource]

theorem World.setSource_source : w.setSource this (w.source this) = w := by
  simp [World.setSource, World.source]

@[simp] theorem World.setComponent_component (c : Component) :
    (w.setComponent this c).component this = c := by
  unfold World.setComponent
  exact Function.update_self ..

@[simp] theorem World.setComponent_cell (c : Component) :
    (w.setComponent this c).cell = w.cell := rfl

@[simp] theorem World.setComponent_file (c : Component) :
    (w.setComponent this c).file = w.file := rfl

@[simp] theorem World.setComponent_setComponent (c d : Component) :
    (w.setComponent this c).setComponent this d = w.setComponent this d := by
  simp [World.setComponent]

theorem World.setComponent_self : w.setComponent this (w.component this) = w := by
  simp [World.setComponent]

/-! ### Programs on parts of the state -/

/-- What the code follows, which is to be there. -/
def follow {σ : Type} : Option α → EStateM Fault σ α
  | some a => pure a
  | none => throw .undefined

def self (this : ℕ) : Exec Component := do
  return (← get).component this

def modifySelf (this : ℕ) (f : Component → Component) : Exec Unit :=
  modify fun w => w.setComponent this (f (w.component this))

/-- A program that reads the component's source file. -/
def onSource (this : ℕ) (m : Reader α) : Exec α :=
  zoom (World.source · this) (fun f w => w.setSource this f) m

/-- An operation of the component's scope stack; the stack is null before the first scope is
entered. -/
def onScopes (this : ℕ) (f : ScopeStack ℕ → Option (α × ScopeStack ℕ)) : Exec α := do
  let c ← self this
  let scopeStack ← follow c.scopeStack
  let (a, scopeStack) ← follow (f scopeStack)
  modifySelf this ({ · with scopeStack := some scopeStack })
  return a

/-- `Stack_pop(this->dataStack)` -/
def popData (this : ℕ) : Exec (Option ℕ) := do
  let c ← self this
  let (item, dataStack) ← follow c.dataStack.pop
  modifySelf this ({ · with dataStack := dataStack })
  return item

/-- `Stack_push(this->dataStack, item)` -/
def pushData (this : ℕ) (item : Option ℕ) : Exec Unit :=
  modifySelf this fun c => { c with dataStack := c.dataStack.push item }

/-- `GC_alloc` and what is put into the new memory. -/
def alloc (c : Cell) : Exec ℕ := do
  let w ← get
  set { w with cell := Function.update w.cell w.fresh (some c), fresh := w.fresh + 1 }
  return w.fresh

/-- `TypedObject_construct` -/
def construct (type : UInt8) (object : Option ℕ) : Exec ℕ := alloc (.typed type object)

/-- The type and the object of a `TypedObject`. -/
def typedObject (pointer : Option ℕ) : Exec (UInt8 × Option ℕ) := do
  let address ← follow pointer
  match (← get).cell address with
  | some (.typed type object) => return (type, object)
  | _ => throw .undefined

/-- The bytes a pointer to a number or a truth value points to. -/
def bytesAt (pointer : Option ℕ) : Exec (List UInt8) := do
  let address ← follow pointer
  match (← get).cell address with
  | some (.bytes value) => return value
  | _ => throw .undefined

/-- `*(bool*)`: in memory a truth value is `0` or `1`. -/
def boolAt (pointer : Option ℕ) : Exec Bool := do
  match ← bytesAt pointer with
  | [0] => return false
  | [1] => return true
  | _ => throw .undefined

/-- A new typed object whose object is new as well; it is the one at the higher address. -/
def World.boxed (w : World) (type : UInt8) (object : Cell) : World :=
  { w with
    cell := Function.update (Function.update w.cell w.fresh (some object)) (w.fresh + 1)
      (some (.typed type (some w.fresh)))
    fresh := w.fresh + 2 }

def boolCell (b : Bool) : Cell := .bytes [if b then 1 else 0]

/-! ### Rules -/

@[simp] theorem returns_follow {σ : Type} {o : Option α} {s t : σ} :
    Returns (follow o : EStateM Fault σ α) s a t ↔ o = some a ∧ t = s := by
  cases o with
  | none => exact iff_of_false returns_throw (by simp)
  | some b =>
    rw [follow, returns_pure]
    simp [eq_comm]

theorem returns_self : Returns (self this) w (w.component this) w := by
  rfl

theorem returns_modifySelf {f : Component → Component} :
    Returns (modifySelf this f) w () (w.setComponent this (f (w.component this))) := by
  rfl

theorem returns_onSource {m : Reader α} :
    Returns (onSource this m) w a w' ↔
      ∃ g, Returns m (w.source this) a g ∧ w' = w.setSource this g :=
  returns_zoom

theorem returns_onScopes {f : ScopeStack ℕ → Option (α × ScopeStack ℕ)} :
    Returns (onScopes this f) w a w' ↔
      ∃ s s', (w.component this).scopeStack = some s ∧ f s = some (a, s') ∧
        w' = w.setComponent this { w.component this with scopeStack := some s' } := by
  unfold onScopes
  rw [returns_self.bind_iff]
  constructor
  · intro h
    obtain ⟨s, u, hs, hrest⟩ := returns_bind.1 h
    obtain ⟨hs, rfl⟩ := returns_follow.1 hs
    obtain ⟨⟨b, s'⟩, u', hfollow, hlast⟩ := returns_bind.1 hrest
    obtain ⟨hf, rfl⟩ := returns_follow.1 hfollow
    rw [returns_modifySelf.bind_iff, returns_pure] at hlast
    obtain ⟨rfl, rfl⟩ := hlast
    exact ⟨s, s', hs, hf, rfl⟩
  · rintro ⟨s, s', hs, hf, rfl⟩
    refine (returns_follow.2 ⟨hs, rfl⟩).bind ((returns_follow.2 ⟨hf, rfl⟩).bind ?_)
    exact returns_modifySelf.bind (returns_pure.2 ⟨rfl, rfl⟩)

theorem returns_popData {item : Option ℕ} :
    Returns (popData this) w item w' ↔
      ∃ s, (w.component this).dataStack.pop = some (item, s) ∧
        w' = w.setComponent this { w.component this with dataStack := s } := by
  unfold popData
  rw [returns_self.bind_iff]
  constructor
  · intro h
    obtain ⟨⟨i, s⟩, u, hpop, hrest⟩ := returns_bind.1 h
    obtain ⟨hpop, rfl⟩ := returns_follow.1 hpop
    rw [returns_modifySelf.bind_iff, returns_pure] at hrest
    obtain ⟨rfl, rfl⟩ := hrest
    exact ⟨s, hpop, rfl⟩
  · rintro ⟨s, hpop, rfl⟩
    refine (returns_follow.2 ⟨hpop, rfl⟩).bind ?_
    exact returns_modifySelf.bind (returns_pure.2 ⟨rfl, rfl⟩)

theorem returns_pushData {item : Option ℕ} :
    Returns (pushData this item) w () (w.setComponent this
      { w.component this with dataStack := (w.component this).dataStack.push item }) :=
  returns_modifySelf

theorem returns_alloc {c : Cell} :
    Returns (alloc c) w w.fresh
      { w with cell := Function.update w.cell w.fresh (some c), fresh := w.fresh + 1 } := by
  rfl

/-- An allocation of an object and of the typed object for it. -/
theorem returns_boxed {type : UInt8} {object : Cell} {k : ℕ → Exec α} :
    Returns (do let a ← alloc object; k (← construct type (some a))) w a w' ↔
      Returns (k (w.fresh + 1)) (w.boxed type object) a w' := by
  rw [returns_alloc.bind_iff]
  exact returns_alloc.bind_iff

@[simp] theorem World.boxed_source {type : UInt8} {object : Cell} :
    (w.boxed type object).source = w.source := rfl

theorem World.boxed_old {type : UInt8} {object : Cell} {q : ℕ} (hq : q < w.fresh) :
    (w.boxed type object).cell q = w.cell q := by
  have hq' : q ≠ w.fresh + 1 := by omega
  show Function.update (Function.update w.cell _ _) _ _ q = _
  rw [Function.update_of_ne hq', Function.update_of_ne (by omega)]

theorem World.boxed_typed {type : UInt8} {object : Cell} :
    (w.boxed type object).cell (w.fresh + 1) = some (.typed type (some w.fresh)) :=
  Function.update_self ..

theorem World.boxed_object {type : UInt8} {object : Cell} :
    (w.boxed type object).cell w.fresh = some object := by
  show Function.update (Function.update w.cell _ _) _ _ w.fresh = _
  rw [Function.update_of_ne (Nat.ne_of_lt (Nat.lt_succ_self _)), Function.update_self]

theorem World.source_setComponent {c : Component}
    (h : c.sourceFile = (w.component this).sourceFile) :
    (w.setComponent this c).source this = w.source this := by
  unfold World.source
  rw [World.setComponent_component, World.setComponent_file, h]

/-! ### Looking at the heap -/

theorem keeps_follow {σ : Type} {o : Option α} : Keeps (follow o : EStateM Fault σ α) := by
  cases o with
  | none => exact Keeps.throw
  | some a => exact Keeps.pure

theorem returns_typedObject {pointer object : Option ℕ} {type : UInt8} :
    Returns (typedObject pointer) w (type, object) w' ↔
      (∃ p, pointer = some p ∧ w.cell p = some (.typed type object)) ∧ w' = w := by
  unfold typedObject
  constructor
  · intro h
    obtain ⟨p, u, hp, hrest⟩ := returns_bind.1 h
    obtain ⟨rfl, rfl⟩ := returns_follow.1 hp
    obtain ⟨_, v, hget, hlook⟩ := returns_bind.1 hrest
    obtain ⟨rfl, rfl⟩ := returns_get.1 hget
    split at hlook
    · rename_i hcell
      obtain ⟨heq, rfl⟩ := returns_pure.1 hlook
      obtain ⟨rfl, rfl⟩ := Prod.mk.inj heq
      exact ⟨⟨p, rfl, hcell⟩, rfl⟩
    · exact absurd hlook returns_throw
  · rintro ⟨⟨p, rfl, hcell⟩, rfl⟩
    refine (returns_follow.2 ⟨rfl, rfl⟩).bind ((returns_get.2 ⟨rfl, rfl⟩).bind ?_)
    rw [hcell]
    exact returns_pure.2 ⟨rfl, rfl⟩

theorem returns_bytesAt {pointer : Option ℕ} {value : List UInt8} :
    Returns (bytesAt pointer) w value w' ↔
      (∃ p, pointer = some p ∧ w.cell p = some (.bytes value)) ∧ w' = w := by
  unfold bytesAt
  constructor
  · intro h
    obtain ⟨p, u, hp, hrest⟩ := returns_bind.1 h
    obtain ⟨rfl, rfl⟩ := returns_follow.1 hp
    obtain ⟨_, v, hget, hlook⟩ := returns_bind.1 hrest
    obtain ⟨rfl, rfl⟩ := returns_get.1 hget
    split at hlook
    · rename_i hcell
      obtain ⟨rfl, rfl⟩ := returns_pure.1 hlook
      exact ⟨⟨p, rfl, hcell⟩, rfl⟩
    · exact absurd hlook returns_throw
  · rintro ⟨⟨p, rfl, hcell⟩, rfl⟩
    refine (returns_follow.2 ⟨rfl, rfl⟩).bind ((returns_get.2 ⟨rfl, rfl⟩).bind ?_)
    rw [hcell]
    exact returns_pure.2 ⟨rfl, rfl⟩

theorem returns_boolAt {pointer : Option ℕ} {b : Bool} :
    Returns (boolAt pointer) w b w' ↔
      (∃ p, pointer = some p ∧ w.cell p = some (boolCell b)) ∧ w' = w := by
  unfold boolAt
  constructor
  · intro h
    obtain ⟨value, u, hvalue, hrest⟩ := returns_bind.1 h
    obtain ⟨⟨p, rfl, hcell⟩, rfl⟩ := returns_bytesAt.1 hvalue
    split at hrest
    · obtain ⟨rfl, rfl⟩ := returns_pure.1 hrest
      exact ⟨⟨p, rfl, hcell⟩, rfl⟩
    · obtain ⟨rfl, rfl⟩ := returns_pure.1 hrest
      exact ⟨⟨p, rfl, hcell⟩, rfl⟩
    · exact absurd hrest returns_throw
  · rintro ⟨⟨p, rfl, hcell⟩, rfl⟩
    refine (returns_bytesAt.2 ⟨⟨p, rfl, hcell⟩, rfl⟩).bind ?_
    cases b with
    | false => exact returns_pure.2 ⟨rfl, rfl⟩
    | true => exact returns_pure.2 ⟨rfl, rfl⟩

theorem keeps_typedObject {pointer : Option ℕ} : Keeps (typedObject pointer) :=
  fun _ _ _ h => (returns_typedObject.1 h).2

theorem keeps_bytesAt {pointer : Option ℕ} : Keeps (bytesAt pointer) :=
  fun _ _ _ h => (returns_bytesAt.1 h).2

theorem keeps_boolAt {pointer : Option ℕ} : Keeps (boolAt pointer) :=
  fun _ _ _ h => (returns_boolAt.1 h).2

end InsenseCVM
