import InsenseCVM.Machine.Run

/-!
# What the handlers can change

A handler moves in the file that its component reads, changes fields of components, writes to the
heap, opens files and creates components. A relation between states that holds for each of these
changes holds across every handler, and so across every run.

* `Footprint`: the changes that the plain instructions make, which leave the scopes as they are;
* `ScopeFootprint`: those of the others as well, with the functions of `ScopeStack.c` one by one;
* `WideFootprint`: all changes of the scopes;
* `ConstructorFootprint`: those of the handler of `CONSTRUCTOR`, which is apart, since it changes
  `running` and the parameters of its component.

The handlers of the instructions on channels are apart too; they are a parameter.
-/

namespace InsenseCVM
open Execution ByteStream

/-- The cells that no instruction writes to. -/
def Cell.Fixed : Cell → Prop
  | .long _ | .file _ => True
  | _ => False

/-- A change of a component that leaves its name, `running` and its parameters. -/
structure Steady (c c' : Component) : Prop where
  name : c'.name = c.name
  running : c'.running = c.running
  parameters : c'.parameters = c.parameters

/-- A change of a component that leaves its scopes, the file it reads and `inProject` as well. -/
structure Calm (c c' : Component) : Prop extends Steady c c' where
  scopeStack : c'.scopeStack = c.scopeStack
  sourceFile : c'.sourceFile = c.sourceFile
  inProject : c'.inProject = c.inProject

/-- The relation holds for the changes that plain instructions of the component make. -/
structure Footprint (this : ℕ) (R : World → World → Prop) : Prop where
  source (w : World) (f : File) (h : f.contents = (w.source this).contents) :
    R w (w.setSource this f)
  component (owner : ℕ) (w : World) (c : Component) (h : Calm (w.component owner) c) :
    R w (w.setComponent owner c)
  lookUp (name : CString) : Respects R (onScopes this (·.load name))
  alloc (w : World) (c : Cell) (h : ∀ handle, c ≠ .file handle) :
    R w { w with cell := Function.update w.cell w.fresh (some c), fresh := w.fresh + 1 }
  write (w : World) (address : ℕ) (c d : Cell) (hcell : w.cell address = some c)
    (hc : ¬ c.Fixed) (hd : ¬ d.Fixed) :
    R w { w with cell := Function.update w.cell address (some d) }
  opened (w : World) (contents : List UInt8) :
    R w { w with file := Function.update w.file w.handles ⟨contents, 0⟩, handles := w.handles + 1 }
  created (w : World) (c : Component) (h : c.sourceFile < w.handles) :
    R w { w.setComponent w.components c with components := w.components + 1 }
  started (w : World) (l : List ℕ) : R w { w with started := l }
  functions (w : World) (m : ListMap Procedure) : R w { w with standardFunctions := m }

/-- The relation holds for the changes that all instructions but those apart make: those of the
scopes are calls of the functions of `ScopeStack.c`. -/
structure ScopeFootprint (this : ℕ) (R : World → World → Prop) : Prop extends Footprint this R where
  enterScope : Respects R (Component.enterScope this)
  exitScope : Respects R (Component.exitScope this)
  exitTo (name : CString) : Respects R (onScopes this fun s => do return ((), ← s.exitTo name))
  declareVariable (name : CString) : Respects R (Component.declareVariable this name)
  storeVariable (name : CString) (value : Option ℕ) :
    Respects R (onScopes this (·.store name value))
  own (w : World) (c : Component) (h : Steady (w.component this) c)
    (scopeStack : c.scopeStack = (w.component this).scopeStack) : R w (w.setComponent this c)
  allocFile (w : World) (handle : Option ℕ) :
    R w { w with cell := Function.update w.cell w.fresh (some (.file handle)), fresh := w.fresh + 1 }

/-- The relation holds for every change that leaves the name, `running` and the parameters of its
component. -/
structure WideFootprint (this : ℕ) (R : World → World → Prop) : Prop extends Footprint this R where
  self (w : World) (c : Component) (h : Steady (w.component this) c) :
    R w (w.setComponent this c)
  allocFile (w : World) (handle : Option ℕ) :
    R w { w with cell := Function.update w.cell w.fresh (some (.file handle)), fresh := w.fresh + 1 }

/-- The relation holds for the changes that the handler of `CONSTRUCTOR` makes. -/
structure ConstructorFootprint (this : ℕ) (R : World → World → Prop) : Prop
    extends Footprint this R where
  given (w : World) (c : Component) (scopeStack : c.scopeStack = (w.component this).scopeStack)
    (sourceFile : c.sourceFile = (w.component this).sourceFile)
    (inProject : c.inProject = (w.component this).inProject) : R w (w.setComponent this c)
  declareVariable (name : CString) : Respects R (Component.declareVariable this name)
  storeVariable (name : CString) (value : Option ℕ) :
    Respects R (onScopes this (·.store name value))

/-- The instructions that neither enter nor leave a scope and bind no names. -/
def Opcode.Plain : Opcode → Prop
  | .push | .load | .expression _ | .not | .stop | .behaviourJump | .jump | .ifClause | .elseClause
  | .proc | .struct | .any | .call => True
  | _ => False

/-- The instructions whose handlers are not held to a footprint. -/
def Opcode.Apart : Opcode → Prop
  | .constructor | .component | .connect | .disconnect | .send | .receive => True
  | _ => False

variable {D : Type} {doubles : Doubles D} {channelInstruction : Opcode → ℕ → Exec Unit}
  {this n : ℕ} {w w' : World} {α : Type} {R : World → World → Prop}

/-- A relation that holds wherever another does holds for the same changes. -/
theorem Footprint.mono {S : World → World → Prop} (hR : Footprint this R)
    (h : ∀ {w w'}, R w w' → S w w') : Footprint this S where
  source _ _ hf := h (hR.source _ _ hf)
  component _ _ _ hc := h (hR.component _ _ _ hc)
  lookUp name _ _ _ hrun := h (hR.lookUp name _ _ _ hrun)
  alloc _ _ hc := h (hR.alloc _ _ hc)
  write _ _ _ _ hcell hc hd := h (hR.write _ _ _ _ hcell hc hd)
  opened _ _ := h (hR.opened _ _)
  created _ _ hc := h (hR.created _ _ hc)
  started _ _ := h (hR.started _ _)
  functions _ _ := h (hR.functions _ _)

/-! ### Parts of a handler -/

/-- The bytes of a file, wherever it is. -/
def SameContents (f g : File) : Prop := g.contents = f.contents

instance : IsPreorder File SameContents where
  refl _ := rfl
  trans _ _ _ h h' := Eq.trans h' h

theorem sameContents_of_forward {m : Reader α} {k : ℕ} (h : Forward m k) :
    Respects SameContents m := by
  intro f a g hrun
  obtain ⟨n, -, rfl⟩ := h f a g hrun
  rfl

theorem sameContents_seekCur {offset : ℤ} : Respects SameContents (seekCur offset : Reader Unit) := by
  intro f a g h
  unfold Returns seekCur at h
  split_ifs at h
  · cases h
    rfl
  · cases h
    rfl

theorem sameContents_seekSet {pos : ℕ} : Respects SameContents (seekSet pos : Reader Unit) := by
  intro f a g h
  cases h
  rfl

/-- The scopes are a part of a component that steady changes may change. -/
theorem respects_onScopes {f : ScopeStack ℕ → Option (α × ScopeStack ℕ)}
    (h : ∀ w c, Steady (w.component this) c → R w (w.setComponent this c)) :
    Respects R (onScopes this f) := by
  intro w a w' hrun
  obtain ⟨s, s', -, -, rfl⟩ := returns_onScopes.1 hrun
  exact h w _ ⟨rfl, rfl, rfl⟩

theorem keeps_self {owner : ℕ} : Keeps (self owner) := Keeps.get.bind fun _ => Keeps.pure

theorem fopen_lt {path : CString} {handle : ℕ} (h : Returns (fopen path) w (some handle) w') :
    handle < w'.handles := by
  unfold fopen at h
  rw [returns_get_bind] at h
  split at h
  · cases h
  · cases h
    exact Nat.lt_succ_self _

namespace Footprint

section parts

variable (hR : Footprint this R)

include hR

theorem onSource {m : Reader α} (h : Respects SameContents m) : Respects R (onSource this m) := by
  intro w a w' hrun
  obtain ⟨g, hread, rfl⟩ := returns_onSource.1 hrun
  exact hR.source w g (h _ _ _ hread)

theorem forward {m : Reader α} {k : ℕ} (h : Forward m k) :
    Respects R (InsenseCVM.onSource this m) :=
  hR.onSource (sameContents_of_forward h)

theorem fgetc : Respects R (InsenseCVM.onSource this fgetc) := hR.forward forward_fgetc

theorem readString : Respects R (InsenseCVM.onSource this readString) :=
  hR.forward forward_readString

theorem ftell : Respects R (InsenseCVM.onSource this ftell) :=
  hR.onSource fun _ _ _ h => congrArg File.contents (returns_ftell.1 h).2

theorem seekCur {offset : ℤ} : Respects R (InsenseCVM.onSource this (seekCur offset)) :=
  hR.onSource sameContents_seekCur

theorem seekSet {pos : ℕ} : Respects R (InsenseCVM.onSource this (seekSet pos)) :=
  hR.onSource sameContents_seekSet

theorem readDistance {message : String} :
    Respects R (InsenseCVM.onSource this (readDistance message)) := by
  refine hR.onSource ((sameContents_of_forward forward_readData).bind fun data => ?_)
  split
  · exact Respects.throw
  · exact Respects.ite Respects.pure Respects.throw
  · exact Respects.throw

theorem skipToNext {inProject : Bool} {bytecode : UInt8} :
    Respects R (InsenseCVM.onSource this (skipToNext inProject bytecode)) :=
  hR.forward forward_skipToNext

theorem modifySelf {owner : ℕ} {f : Component → Component} (h : ∀ c, Calm c (f c)) :
    Respects R (modifySelf owner f) := by
  intro w a w' hrun
  obtain ⟨-, rfl⟩ := hrun.unique returns_modifySelf
  exact hR.component owner w _ (h _)

theorem popData : Respects R (popData this) := by
  intro w a w' hrun
  obtain ⟨s, -, rfl⟩ := returns_popData.1 hrun
  exact hR.component this w _ ⟨⟨rfl, rfl, rfl⟩, rfl, rfl, rfl⟩

theorem pushData {item : Option ℕ} : Respects R (pushData this item) :=
  hR.modifySelf fun _ => ⟨⟨rfl, rfl, rfl⟩, rfl, rfl, rfl⟩

theorem stopped {owner : ℕ} :
    Respects R (InsenseCVM.modifySelf owner ({ · with stop := true })) :=
  hR.modifySelf fun _ => ⟨⟨rfl, rfl, rfl⟩, rfl, rfl, rfl⟩

theorem keptProcs {owner : ℕ} {procs : Option (ListMap Procedure)} :
    Respects R (InsenseCVM.modifySelf owner ({ · with procs := procs })) :=
  hR.modifySelf fun _ => ⟨⟨rfl, rfl, rfl⟩, rfl, rfl, rfl⟩

theorem allocate {c : Cell} (h : ∀ handle, c ≠ .file handle) :
    Respects R (InsenseCVM.alloc c) := by
  intro w a w' hrun
  obtain ⟨-, rfl⟩ := hrun.unique returns_alloc
  exact hR.alloc w c h

theorem construct {type : UInt8} {object : Option ℕ} : Respects R (construct type object) :=
  hR.allocate (by simp)

end parts

variable [IsPreorder World R] (hR : Footprint this R)

include hR

theorem fopen {path : CString} : Respects R (fopen path) := by
  intro w a w' hrun
  unfold InsenseCVM.fopen at hrun
  rw [returns_get_bind] at hrun
  split at hrun
  · obtain ⟨-, rfl⟩ := returns_pure.1 hrun
    exact refl_of R _
  · rename_i contents _
    cases hrun
    exact hR.opened w contents

/-! ### Variables and jumps -/

theorem readData : Respects R (Component.readData this) := by
  unfold Component.readData
  refine (hR.forward forward_readData).bind fun datum => ?_
  split
  · exact Respects.pure
  · exact (hR.allocate (by simp)).bind fun _ => hR.construct.bind fun _ => Respects.pure
  · exact (hR.allocate (by simp)).bind fun _ => hR.construct.bind fun _ => Respects.pure

theorem push : Respects R (Component.push this) := by
  unfold Component.push
  refine hR.readData.bind fun data => ?_
  split
  · exact Respects.throw
  · exact hR.pushData

theorem load : Respects R (Component.load this) := by
  unfold Component.load
  refine hR.readString.bind fun name => (hR.lookUp name).bind fun data => ?_
  split
  · exact Respects.throw
  · exact hR.pushData

theorem stop : Respects R (Component.stopComponent this) := by
  unfold Component.stopComponent
  refine hR.readString.bind fun name => keeps_self.respects.bind fun c => ?_
  refine Respects.ite hR.stopped ((hR.lookUp name).bind fun component => ?_)
  split
  · exact Respects.throw
  · refine keeps_typedObject.respects.bind ?_
    rintro ⟨type, object⟩
    refine Respects.ite Respects.throw (keeps_follow.respects.bind fun address => ?_)
    refine Respects.bind Respects.get fun w => ?_
    split
    · exact hR.stopped
    · exact Respects.throw

theorem jump : Respects R (Component.jump this) := hR.readDistance.bind fun _ => hR.seekCur

theorem behaviourJump : Respects R (Component.behaviourJump this) := by
  unfold Component.behaviourJump
  refine keeps_self.respects.bind fun c => Respects.ite ?_ hR.jump
  exact hR.readData.bind fun _ => Respects.pure

theorem ifClause : Respects R (Component.ifClause this) := by
  unfold Component.ifClause
  refine hR.readDistance.bind fun _ => hR.popData.bind fun _ => keeps_typedObject.respects.bind ?_
  rintro ⟨type, object⟩
  refine Respects.ite Respects.throw (keeps_boolAt.respects.bind fun _ => ?_)
  refine Respects.ite (hR.seekCur.bind fun _ => hR.fgetc.bind fun _ => ?_) Respects.pure
  exact Respects.ite (hR.readData.bind fun _ => Respects.pure) hR.seekCur

theorem elseClause : Respects R (Component.elseClause this) :=
  hR.readDistance.bind fun _ => hR.seekCur

/-! ### Procedures -/

theorem readParameterNames (parameters : ℕ) (names : IteratedList CString) :
    Respects R (Component.readParameterNames this parameters names) := by
  induction parameters generalizing names with
  | zero => exact Respects.pure
  | succ parameters ih => exact hR.fgetc.bind fun _ => hR.readString.bind fun _ => ih _

theorem proc : Respects R (Component.proc this) := by
  unfold Component.proc
  refine keeps_self.respects.bind fun c => hR.keptProcs.bind fun _ => ?_
  refine hR.readString.bind fun _ => hR.fgetc.bind fun _ => ?_
  refine (hR.readParameterNames _ _).bind fun _ => hR.ftell.bind fun _ => ?_
  refine keeps_follow.respects.bind fun _ => keeps_follow.respects.bind ?_
  rintro ⟨_, procs⟩
  refine hR.keptProcs.bind fun _ => keeps_self.respects.bind fun _ => ?_
  exact hR.skipToNext.bind fun _ => Respects.pure

theorem findProc {owner : ℕ} {procName : CString} :
    Respects R (Component.findProc owner procName) := by
  unfold Component.findProc
  refine keeps_self.respects.bind fun c => ?_
  split
  · exact Respects.pure
  · refine keeps_follow.respects.bind ?_
    rintro ⟨proc, procs⟩
    exact hR.keptProcs.bind fun _ => Respects.pure

theorem popArguments (numParams : ℕ) : Respects R (Component.popArguments this numParams) := by
  induction numParams with
  | zero => exact Respects.pure
  | succ numParams ih => exact hR.popData.bind fun _ => keeps_typedObject.respects.bind fun _ => ih

theorem callStandard {procName : CString} : Respects R (Component.callStandard this procName) := by
  unfold Component.callStandard
  intro w a w' hrun
  rw [returns_get_bind] at hrun
  obtain ⟨⟨proc, functions⟩, u, hfollow, hcall⟩ := returns_bind.1 hrun
  obtain ⟨-, rfl⟩ := returns_follow.1 hfollow
  rw [returns_set_bind] at hcall
  refine trans_of R (hR.functions u functions) ?_
  cases proc with
  | none => exact absurd hcall returns_fatal
  | some proc =>
    have hpop : Respects R (do
        let numParams ← follow proc.parameterNames.getListLength
        Component.popArguments this numParams) :=
      keeps_follow.respects.bind fun _ => hR.popArguments _
    exact hpop _ _ _ hcall

/-! ### Structs and operators -/

theorem readStructFields (paramsToRead : ℕ) (paramsList : ListMap ℕ) :
    Respects R (Component.readStructFields this paramsToRead paramsList) := by
  induction paramsToRead generalizing paramsList with
  | zero => exact Respects.pure
  | succ paramsToRead ih =>
    unfold Component.readStructFields
    refine hR.fgetc.bind fun _ => hR.readString.bind fun _ => ?_
    refine keeps_follow.respects.bind fun _ => hR.popData.bind fun _ => ?_
    refine keeps_typedObject.respects.bind fun _ => keeps_follow.respects.bind ?_
    rintro ⟨_, paramsList⟩
    exact ih _

theorem structConstructor : Respects R (Component.structConstructor this) :=
  hR.fgetc.bind fun _ => (hR.readStructFields _ _).bind fun _ =>
    (hR.allocate (by simp)).bind fun _ => hR.construct.bind fun _ => hR.pushData

theorem structLoad : Respects R (Component.structLoad this) := by
  unfold Component.structLoad
  refine hR.readString.bind fun fieldName => hR.popData.bind fun item => ?_
  refine keeps_typedObject.respects.bind ?_
  rintro ⟨type, object⟩
  refine keeps_follow.respects.bind fun address => ?_
  intro w a w' h
  rw [returns_get_bind] at h
  split at h
  · rename_i structFields hcell
    obtain ⟨⟨field, fields⟩, u, hfollow, hwrite⟩ := returns_bind.1 h
    obtain ⟨-, rfl⟩ := returns_follow.1 hfollow
    -- the list map of the fields has moved its cursor
    rw [returns_modify.bind_iff] at hwrite
    cases field with
    | none => exact absurd hwrite returns_fatal
    | some field =>
      have hmoved := hR.write u address _ (.map fields) hcell (fun h => h) fun h => h
      exact trans_of R hmoved (hR.pushData _ _ _ hwrite)
  · exact absurd h returns_throw

theorem struct : Respects R (Component.struct this) := by
  unfold Component.struct
  refine hR.fgetc.bind fun _ => Respects.ite hR.structConstructor ?_
  exact Respects.ite hR.structLoad Respects.throw

theorem any : Respects R (Component.any this) :=
  hR.popData.bind fun _ => hR.construct.bind fun _ => hR.pushData

theorem not : Respects R (Component.not this) := by
  unfold Component.not
  refine keeps_self.respects.bind fun c => Respects.ite Respects.throw ?_
  refine hR.popData.bind fun first => keeps_typedObject.respects.bind ?_
  rintro ⟨type, object⟩
  refine Respects.ite Respects.throw ?_
  intro w a w' h
  obtain ⟨value, _, hbool, hrest⟩ := returns_bind.1 h
  obtain ⟨⟨p, rfl, hcell⟩, rfl⟩ := returns_boolAt.1 hbool
  obtain ⟨address, _, hfollow, hwrite⟩ := returns_bind.1 hrest
  obtain ⟨haddress, rfl⟩ := returns_follow.1 hfollow
  obtain rfl := Option.some.inj haddress
  rw [returns_modify.bind_iff] at hwrite
  have hnegated := hR.write _ p _ (boolCell (!value)) hcell (fun h => h) fun h => h
  exact trans_of R hnegated (hR.pushData _ _ _ hwrite)

theorem expression {op : Operator} : Respects R (Component.expression doubles this op) := by
  unfold Component.expression
  refine keeps_self.respects.bind fun c => Respects.ite Respects.throw ?_
  refine hR.popData.bind fun _ => hR.popData.bind fun _ => ?_
  refine (keeps_castOperand doubles).respects.bind fun _ => ?_
  refine (keeps_castOperand doubles).respects.bind fun _ => ?_
  refine (keeps_operate doubles op).respects.bind ?_
  rintro ⟨type, value⟩
  exact (hR.allocate (by simp)).bind fun _ => hR.construct.bind fun _ => hR.pushData

/-! ### Components -/

theorem newComponent {name path : CString} {params : Option (IteratedList ℕ)} :
    Respects R (Component.newComponent name path params) := by
  intro w a w' h
  unfold Component.newComponent at h
  obtain ⟨opened, u, hopen, hrest⟩ := returns_bind.1 h
  refine trans_of R (hR.fopen _ _ _ hopen) ?_
  cases opened with
  | none => exact absurd hrest returns_fatal
  | some sourceFile =>
    cases hrest
    exact hR.created u _ (fopen_lt hopen)

theorem popParameters (parameters : ℕ) (paramsList : IteratedList ℕ) :
    Respects R (Component.popParameters this parameters paramsList) := by
  induction parameters generalizing paramsList with
  | zero => exact Respects.pure
  | succ parameters ih => exact hR.popData.bind fun _ => ih _

theorem call : Respects R (Component.call this) := by
  unfold Component.call
  refine hR.readString.bind fun _ => hR.fgetc.bind fun number => ?_
  refine Respects.bind ?_ fun paramsList => ?_
  · exact Respects.ite Respects.pure (hR.popParameters _ _).map
  · refine Respects.bind Respects.get fun w => hR.newComponent.bind fun component => ?_
    refine Respects.bind ?_ fun _ => (hR.allocate (by simp)).bind fun _ => ?_
    · intro w a w' hrun
      obtain ⟨-, rfl⟩ := hrun.unique returns_modify
      exact hR.started w _
    · refine hR.construct.bind fun _ => hR.pushData.bind fun _ => ?_
      refine Respects.bind ?_ fun _ => Respects.pure
      exact hR.modifySelf fun _ => ⟨⟨rfl, rfl, rfl⟩, rfl, rfl, rfl⟩

theorem plain {op : Opcode} (h : op.Plain) :
    Respects R (InsenseCVM.execute doubles channelInstruction this op) := by
  cases op with
  | push => exact hR.push
  | load => exact hR.load
  | expression => exact hR.expression
  | not => exact hR.not
  | stop => exact hR.stop
  | behaviourJump => exact hR.behaviourJump
  | jump => exact hR.jump
  | ifClause => exact hR.ifClause
  | elseClause => exact hR.elseClause
  | proc => exact hR.proc
  | struct => exact hR.struct
  | any => exact hR.any
  | call => exact hR.call.bind fun _ => Respects.pure
  | _ => exact absurd h (fun h => h)

/-- Inside a project the end of a block only moves on in the source. -/
theorem blockEnd_inProject (hproject : (w.component this).inProject = true)
    (h : Returns (Component.blockEnd this) w () w') : R w w' := by
  unfold Component.blockEnd at h
  rw [returns_self.bind_iff, if_pos hproject] at h
  have hmoves : Respects R (do
      let nextByte ← InsenseCVM.onSource this ByteStream.fgetc
      if nextByte ≠ some Opcode.projectExit.byte then
        let _ ← InsenseCVM.onSource this
          (InsenseCVM.skipToNext (w.component this).inProject Opcode.projectExit.byte)
      else pure ()) :=
    hR.fgetc.bind fun _ =>
      Respects.ite (hR.skipToNext.bind fun _ => Respects.pure) Respects.pure
  exact hmoves _ _ _ h

end Footprint

/-! ### Constructors -/

theorem keeps_givenParameters : Keeps (Component.givenParameters this) := by
  unfold Component.givenParameters
  refine keeps_self.bind fun c => ?_
  split
  · exact Keeps.pure
  · exact keeps_follow

namespace ConstructorFootprint

section parts

variable (hR : ConstructorFootprint this R)

include hR

theorem modifyGiven {f : Component → Component} (hscopes : ∀ c, (f c).scopeStack = c.scopeStack)
    (hsource : ∀ c, (f c).sourceFile = c.sourceFile)
    (hproject : ∀ c, (f c).inProject = c.inProject) : Respects R (modifySelf this f) := by
  intro w a w' hrun
  obtain ⟨-, rfl⟩ := hrun.unique returns_modifySelf
  exact hR.given w _ (hscopes _) (hsource _) (hproject _)

theorem rewindParameters : Respects R (Component.rewindParameters this) :=
  hR.modifyGiven (fun _ => rfl) (fun _ => rfl) fun _ => rfl

end parts

variable [IsPreorder World R] (hR : ConstructorFootprint this R)

include hR

theorem nextParameter : Respects R (Component.nextParameter this) := by
  unfold Component.nextParameter
  refine keeps_self.respects.bind fun c => keeps_follow.respects.bind fun _ => ?_
  refine keeps_follow.respects.bind ?_
  rintro ⟨value, parameters⟩
  refine Respects.bind ?_ fun _ => Respects.pure
  exact hR.modifyGiven (fun _ => rfl) (fun _ => rfl) fun _ => rfl

theorem readParameters (parameters : ℕ) (readParams : IteratedList CString)
    (thisConstructor : Bool) :
    Respects R (Component.readParameters this parameters readParams thisConstructor) := by
  induction parameters generalizing readParams thisConstructor with
  | zero => exact Respects.pure
  | succ parameters ih =>
    unfold Component.readParameters
    refine hR.fgetc.bind fun _ => hR.nextParameter.bind fun _ => ?_
    refine keeps_typedObject.respects.bind ?_
    rintro ⟨type, _⟩
    refine hR.readString.bind fun _ => Respects.ite ?_ (ih _ _)
    exact keeps_follow.respects.bind fun _ => ih _ _

theorem matchConstructor (paramsToRead : Option UInt8) (given : ℕ) :
    Respects R (Component.matchConstructor this paramsToRead given) := by
  unfold Component.matchConstructor
  refine Respects.ite (hR.readParameters _ _ _) ?_
  have hfields := (sameContents_of_forward forward_readField).times (n := counted paramsToRead)
  exact (hR.onSource hfields).bind fun _ => Respects.pure

theorem skipConstructor : Respects R (Component.skipConstructor this) := by
  unfold Component.skipConstructor
  refine keeps_self.respects.bind fun c => Respects.ite ?_ Respects.pure
  exact hR.skipToNext.bind fun _ => hR.fgetc.bind fun _ => Respects.pure

theorem bindParameters (parameters : ℕ) (readParams : IteratedList CString) :
    Respects R (Component.bindParameters this parameters readParams) := by
  induction parameters generalizing readParams with
  | zero => exact Respects.pure
  | succ parameters ih =>
    unfold Component.bindParameters
    refine keeps_follow.respects.bind ?_
    rintro ⟨name, readParams⟩
    refine keeps_follow.respects.bind fun name => (hR.declareVariable name).bind fun _ => ?_
    exact hR.nextParameter.bind fun _ => (hR.storeVariable name _).bind fun _ => ih _

theorem runConstructor (parameters : ℕ) (readParams : IteratedList CString) :
    Respects R (Component.runConstructor this parameters readParams) := by
  refine hR.rewindParameters.bind fun _ => (hR.bindParameters _ _).bind fun _ => ?_
  exact hR.modifyGiven (fun _ => rfl) (fun _ => rfl) fun _ => rfl

theorem constructorWithin (rounds : ℕ) :
    Respects R (Component.constructorWithin this rounds) := by
  induction rounds with
  | zero => exact Respects.throw
  | succ rounds ih =>
    unfold Component.constructorWithin
    refine hR.skipConstructor.bind fun _ => keeps_givenParameters.respects.bind fun _ => ?_
    refine hR.fgetc.bind fun _ => (hR.matchConstructor _ _).bind ?_
    rintro ⟨readParams, thisConstructor⟩
    refine Respects.ite (hR.runConstructor _ _) ?_
    refine hR.rewindParameters.bind fun _ => keeps_self.respects.bind fun _ => ?_
    exact hR.skipToNext.bind fun _ => Respects.ite ih Respects.throw

theorem constructor : Respects R (Component.constructor this) :=
  Respects.bind Respects.get fun _ => hR.constructorWithin _

end ConstructorFootprint

theorem WideFootprint.scopeFootprint (hR : WideFootprint this R) : ScopeFootprint this R where
  toFootprint := hR.toFootprint
  enterScope := by
    intro w a w' hrun
    obtain ⟨-, rfl⟩ := hrun.unique returns_modifySelf
    exact hR.self w _ ⟨rfl, rfl, rfl⟩
  exitScope := respects_onScopes hR.self
  exitTo _ := respects_onScopes hR.self
  declareVariable _ := respects_onScopes hR.self
  storeVariable _ _ := respects_onScopes hR.self
  own w c h _ := hR.self w c h
  allocFile := hR.allocFile

namespace ScopeFootprint

section parts

variable (hR : ScopeFootprint this R)

include hR

theorem modifyOwn {f : Component → Component} (h : ∀ c, Steady c (f c))
    (hscopes : ∀ c, (f c).scopeStack = c.scopeStack) : Respects R (modifySelf this f) := by
  intro w a w' hrun
  obtain ⟨-, rfl⟩ := hrun.unique returns_modifySelf
  exact hR.own w _ (h _) (hscopes _)

theorem allocateFile {handle : Option ℕ} : Respects R (alloc (.file handle)) := by
  intro w a w' hrun
  obtain ⟨-, rfl⟩ := hrun.unique returns_alloc
  exact hR.allocFile w handle

end parts

variable [IsPreorder World R] (hR : ScopeFootprint this R)

include hR

theorem bindVariable {name : CString} {value : Option ℕ} :
    Respects R (Component.bindVariable this name value) :=
  (hR.declareVariable _).bind fun _ => (hR.storeVariable _ _).bind fun _ => Respects.pure

theorem declare : Respects R (Component.declare this) :=
  hR.readString.bind fun _ => hR.fgetc.bind fun _ => hR.declareVariable _

theorem store : Respects R (Component.store this) := by
  unfold Component.store
  refine hR.readString.bind fun _ => hR.popData.bind fun _ => (hR.storeVariable _ _).bind fun _ => ?_
  exact Respects.ite Respects.pure Respects.throw

/-! ### Calls and returns -/

theorem bindArguments (names : IteratedList CString) (parameters i : ℕ) :
    Respects R (Component.bindArguments this names parameters i) := by
  induction parameters generalizing i with
  | zero => exact Respects.pure
  | succ parameters ih =>
    unfold Component.bindArguments
    refine keeps_follow.respects.bind fun _ => keeps_follow.respects.bind fun _ => ?_
    refine (hR.declareVariable _).bind fun _ => hR.popData.bind fun _ => ?_
    exact (hR.storeVariable _ _).bind fun _ => ih _

theorem callOwn {proc : Procedure} : Respects R (Component.callOwn this proc) := by
  unfold Component.callOwn
  refine hR.enterScope.bind fun _ => hR.ftell.bind fun _ => (hR.allocate (by simp)).bind fun _ => ?_
  refine hR.bindVariable.bind fun _ => keeps_follow.respects.bind fun _ => ?_
  exact (hR.bindArguments _ _ _).bind fun _ => hR.seekSet

theorem callGlobal {proc : Procedure} : Respects R (Component.callGlobal this proc) := by
  unfold Component.callGlobal
  refine hR.enterScope.bind fun _ => hR.ftell.bind fun _ => (hR.allocate (by simp)).bind fun _ => ?_
  refine keeps_self.respects.bind fun c => Respects.bind Respects.get fun w => ?_
  refine hR.fopen.bind fun _ => hR.allocateFile.bind fun _ => hR.bindVariable.bind fun _ => ?_
  refine hR.bindVariable.bind fun _ => keeps_follow.respects.bind fun _ => ?_
  refine (hR.bindArguments _ _ _).bind fun _ => keeps_self.respects.bind fun _ => ?_
  refine Respects.bind ?_ fun _ => hR.seekSet
  exact hR.modifyOwn (fun _ => ⟨rfl, rfl, rfl⟩) fun _ => rfl

theorem procCall : Respects R (Component.procCall this) := by
  unfold Component.procCall
  refine hR.readString.bind fun _ => hR.findProc.bind fun found => ?_
  split
  · exact hR.callOwn
  · refine Respects.bind Respects.get fun w => hR.findProc.bind fun found => ?_
    split
    · exact hR.callGlobal
    · exact hR.callStandard

theorem procReturn : Respects R (Component.procReturn this) := by
  unfold Component.procReturn
  refine (hR.lookUp _).bind fun _ => (hR.lookUp _).bind fun newFile => ?_
  refine Respects.bind ?_ fun _ => Respects.bind ?_ fun _ => (hR.exitTo _).bind fun _ => hR.exitScope
  · unfold Component.returnToSource
    split
    · exact Respects.pure
    · refine Respects.bind Respects.get fun w => ?_
      split
      · exact hR.modifyOwn (fun _ => ⟨rfl, rfl, rfl⟩) fun _ => rfl
      · exact Respects.throw
  · unfold Component.returnToPosition
    refine keeps_follow.respects.bind fun _ => Respects.bind Respects.get fun w => ?_
    split
    · exact hR.seekSet
    · exact Respects.throw

/-! ### Blocks and projects -/

theorem blockEnd : Respects R (Component.blockEnd this) := by
  intro w a w' h
  by_cases hproject : (w.component this).inProject = true
  · exact hR.blockEnd_inProject hproject h
  · unfold Component.blockEnd at h
    rw [returns_self.bind_iff, if_neg hproject] at h
    obtain ⟨found, u, hload, hrest⟩ := returns_bind.1 h
    refine trans_of R (hR.lookUp _ _ _ _ hload) ?_
    cases found with
    | none =>
      obtain ⟨-, rfl⟩ := returns_pure.1 hrest
      exact refl_of R _
    | some _ => exact hR.procReturn _ _ _ hrest

theorem tryBlocks {projectedObject : Option ℕ} (rounds : ℕ) :
    Respects R (Component.tryBlocks this projectedObject rounds) := by
  induction rounds with
  | zero => exact Respects.throw
  | succ rounds ih =>
    unfold Component.tryBlocks
    refine hR.fgetc.bind fun _ => Respects.ite Respects.pure ?_
    refine keeps_typedObject.respects.bind ?_
    rintro ⟨type, _⟩
    refine Respects.ite (keeps_self.respects.bind fun c => hR.skipToNext.bind fun _ => ih) ?_
    exact hR.modifyOwn (fun _ => ⟨rfl, rfl, rfl⟩) fun _ => rfl

theorem projectEntry : Respects R (Component.projectEntry this) := by
  unfold Component.projectEntry
  refine hR.enterScope.bind fun _ => hR.popData.bind fun _ => keeps_typedObject.respects.bind ?_
  rintro ⟨_, projectedObject⟩
  refine hR.readString.bind fun _ => hR.bindVariable.bind fun _ => ?_
  exact Respects.bind Respects.get fun _ => hR.tryBlocks _

theorem projectExit : Respects R (Component.projectExit this) := by
  unfold Component.projectExit
  refine keeps_self.respects.bind fun c => ?_
  refine Respects.ite Respects.throw (hR.exitScope.bind fun _ => ?_)
  exact hR.modifyOwn (fun _ => ⟨rfl, rfl, rfl⟩) fun _ => rfl

/-! ### Runs -/

/-- The relation holds across every handler when it does across those that are apart. -/
theorem execute {op : Opcode}
    (hapart : op.Apart → Respects R (InsenseCVM.execute doubles channelInstruction this op)) :
    Respects R (InsenseCVM.execute doubles channelInstruction this op) := by
  cases op with
  | push | load | expression _ | not | stop | behaviourJump | jump | ifClause | elseClause | proc
  | struct | any | call => exact hR.plain trivial
  | enterScope => exact hR.enterScope
  | exitScope => exact hR.exitScope
  | declare => exact hR.declare
  | store => exact hR.store
  | blockEnd => exact hR.blockEnd
  | procCall => exact hR.procCall
  | procReturn => exact hR.procReturn
  | projectEntry => exact hR.projectEntry
  | projectExit => exact hR.projectExit
  | constructor | component | connect | disconnect | send | receive => exact hapart trivial

/-- The round at an opcode that is not apart. -/
theorem round {op : Opcode} (hop : w.opcodeAt this = some op) (hnot : ¬ op.Apart)
    (hrun : Runs doubles channelInstruction this 1 w w') : R w w' := by
  have hopcode : R w (w.setSource this ((w.source this).advance 1)) := hR.source w _ rfl
  have hexec := hR.execute (fun hapart => absurd hapart hnot) _ _ _ (hrun.handler hop)
  exact trans_of R hopcode hexec

/-- **What holds across every handler holds across every run.** -/
theorem runs (hapart : ∀ op : Opcode, op.Apart →
      Respects R (InsenseCVM.execute doubles channelInstruction this op))
    (hrun : Runs doubles channelInstruction this n w w') : R w w' := by
  induction hrun with
  | refl => exact refl_of R _
  | @step n u w w' first _ ih =>
    refine trans_of R ?_ ih
    have hopcode : R w (w.setSource this ((w.source this).advance 1)) := hR.source w _ rfl
    rcases runs_one_cases (.step first (.refl u)) with ⟨op, -, hexec⟩ | ⟨-, rfl⟩
    · exact trans_of R hopcode (hR.execute (hapart op) _ _ _ hexec)
    · exact hopcode

end ScopeFootprint

end InsenseCVM
