import InsenseCVM.Machine.ChannelInstruction

/-!
# What every handler leaves, however it ends

The handlers of all instructions, also where they stop with a fault half way. None of them but that
of `CALL` changes the field `waitComponents` of a component, and none writes to a typed object or
to a pointer to a component. A relation that holds for all other changes holds between the state
before an instruction and the state in which it ends.
-/

namespace InsenseCVM
open Execution ByteStream

/-- The cells that no instruction writes to once they are filled. -/
def Cell.Lasting : Cell → Prop
  | .typed .. | .component _ => True
  | _ => False

/-- The relation holds for each change that a handler other than that of `CALL` makes. -/
structure FullFootprint (R : World → World → Prop) : Prop where
  source (this : ℕ) (w : World) (f : File) : R w (w.setSource this f)
  component (owner : ℕ) (w : World) (c : Component)
    (h : c.waitComponents = (w.component owner).waitComponents) : R w (w.setComponent owner c)
  alloc (w : World) (c : Cell) :
    R w { w with cell := Function.update w.cell w.fresh (some c), fresh := w.fresh + 1 }
  write (w : World) (address : ℕ) (c d : Cell) (hcell : w.cell address = some c)
    (hc : ¬ c.Lasting) : R w { w with cell := Function.update w.cell address (some d) }
  opened (w : World) (contents : List UInt8) :
    R w { w with file := Function.update w.file w.handles ⟨contents, 0⟩, handles := w.handles + 1 }
  created (w : World) (c : Component) :
    R w { w.setComponent w.components c with components := w.components + 1 }
  functions (w : World) (m : ListMap Procedure) : R w { w with standardFunctions := m }

variable {D : Type} {doubles : Doubles D} {wires : Wires} {received : Cell} {this : ℕ} {α : Type}
  {R : World → World → Prop} [IsPreorder World R]

/-! ### Programs that only look -/

theorem always_follow {σ : Type} {S : σ → σ → Prop} [IsPreorder σ S] {o : Option α} :
    Always S (follow o : EStateM Fault σ α) := by
  cases o with
  | none => exact Always.throw
  | some a => exact Always.pure

theorem always_self {owner : ℕ} : Always R (self owner) := Always.get.bind fun _ => Always.pure

theorem always_typedObject {pointer : Option ℕ} : Always R (typedObject pointer) := by
  refine always_follow.bind fun address => Always.get.bind fun w => ?_
  split
  · exact Always.pure
  · exact Always.throw

theorem always_bytesAt {pointer : Option ℕ} : Always R (bytesAt pointer) := by
  refine always_follow.bind fun address => Always.get.bind fun w => ?_
  split
  · exact Always.pure
  · exact Always.throw

theorem always_boolAt {pointer : Option ℕ} : Always R (boolAt pointer) := by
  refine always_bytesAt.bind fun value => ?_
  split
  · exact Always.pure
  · exact Always.pure
  · exact Always.throw

theorem always_castOperand {pointer : Option ℕ} : Always R (castOperand doubles pointer) := by
  unfold castOperand
  refine always_typedObject.bind fun operand => ?_
  have hbytes : ∀ (object : Option ℕ) (k : List UInt8 → Operand D),
      Always R (do return k (← bytesAt object)) :=
    fun object k => always_bytesAt.bind fun _ => Always.pure
  refine Always.ite (hbytes _ _) (Always.ite (hbytes _ _) ?_)
  exact Always.ite (hbytes _ _) (Always.ite (hbytes _ _) Always.pure)

theorem always_toIntegral {low high : ℤ} {value : D} :
    Always R (toIntegral doubles low high value) := by
  unfold toIntegral
  split
  · exact Always.ite Always.pure Always.throw
  · exact Always.throw

theorem always_arithmetic {combine : D → D → D} {first second : Operand D} :
    Always R (arithmetic doubles combine first second) := by
  unfold arithmetic
  have hbytes : ∀ (low high : ℤ) (result : D) (k : ℤ → UInt8 × List UInt8),
      Always R (do return k (← toIntegral doubles low high result)) :=
    fun _ _ _ _ => always_toIntegral.bind fun _ => Always.pure
  refine Always.ite Always.throw (Always.ite Always.pure ?_)
  exact Always.ite (hbytes _ _ _ _) (Always.ite (hbytes _ _ _ _) (hbytes _ _ _ _))

theorem always_modulo {first second : Operand D} : Always R (modulo doubles first second) := by
  unfold modulo
  refine Always.ite Always.throw (Always.ite Always.throw ?_)
  have hremainder : Always R (remainder doubles first.value second.value) :=
    always_toIntegral.bind fun _ => always_toIntegral.bind fun _ =>
      Always.ite Always.throw Always.pure
  exact hremainder.bind fun _ => Always.ite Always.pure (Always.ite Always.pure Always.pure)

theorem always_logical {decides : Bool} {first second : Operand D} :
    Always R (logical decides first second) := by
  unfold logical
  refine Always.ite Always.throw (always_boolAt.bind fun value => ?_)
  split_ifs
  · exact always_boolAt.bind fun _ => Always.pure
  · exact Always.pure.bind fun _ => Always.pure

theorem always_comparison {compare : D → D → Bool} {first second : Operand D} :
    Always R (comparison compare first second) := by
  unfold comparison
  exact Always.ite Always.throw Always.pure

theorem always_operate {first second : Operand D} (op : Operator) :
    Always R (operate doubles first second op) := by
  cases op with
  | add | sub | mul | div => exact always_arithmetic
  | mod => exact always_modulo
  | and | or => exact always_logical
  | less | lessEqual | equal | moreEqual | more | unequal =>
    unfold operate
    exact always_comparison

theorem always_componentAt {object : Option ℕ} : Always R (Component.componentAt object) := by
  refine always_follow.bind fun address => Always.get.bind fun w => ?_
  split
  · exact Always.pure
  · exact Always.throw

theorem always_findChannel {owner : ℕ} {name : CString} :
    Always R (Component.findChannel wires owner name) := by
  refine always_follow.bind ?_
  rintro ⟨channel, _⟩
  exact Always.pure

theorem always_waitUntilRunning {owner : ℕ} : Always R (Component.waitUntilRunning owner) :=
  always_self.bind fun _ => Always.ite Always.pure Always.throw

namespace FullFootprint

variable (hR : FullFootprint R)

include hR

/-! ### Parts of a handler -/

omit [IsPreorder World R] in
theorem onSource {m : Reader α} : Always R (onSource this m) := by
  intro w w' h
  obtain ⟨f, rfl⟩ := Ends.zoom h
  exact hR.source this w f

omit [IsPreorder World R] in
theorem modifySelf {owner : ℕ} {f : Component → Component}
    (h : ∀ c, (f c).waitComponents = c.waitComponents) : Always R (modifySelf owner f) := by
  intro w w' hrun
  rw [returns_modifySelf.ends.1 hrun]
  exact hR.component owner w _ (h _)

theorem onScopes {f : ScopeStack ℕ → Option (α × ScopeStack ℕ)} : Always R (onScopes this f) := by
  refine always_self.bind fun c => always_follow.bind fun scopeStack => always_follow.bind ?_
  rintro ⟨a, scopeStack⟩
  exact Always.bind (hR.modifySelf fun _ => rfl) fun _ => Always.pure

theorem popData : Always R (popData this) := by
  refine always_self.bind fun c => always_follow.bind ?_
  rintro ⟨item, dataStack⟩
  exact Always.bind (hR.modifySelf fun _ => rfl) fun _ => Always.pure

omit [IsPreorder World R] in
theorem pushData {item : Option ℕ} : Always R (pushData this item) := hR.modifySelf fun _ => rfl

omit [IsPreorder World R] in
theorem allocate {c : Cell} : Always R (InsenseCVM.alloc c) := by
  intro w w' h
  rw [returns_alloc.ends.1 h]
  exact hR.alloc w c

omit [IsPreorder World R] in
theorem construct {type : UInt8} {object : Option ℕ} : Always R (construct type object) :=
  hR.allocate

theorem fopen {path : CString} : Always R (fopen path) := by
  intro w w' h
  unfold InsenseCVM.fopen at h
  rw [ends_get_bind] at h
  split at h
  · rw [ends_pure.1 h]
    exact refl_of R _
  · rename_i contents _
    rw [ends_set_bind] at h
    rw [ends_pure.1 h]
    exact hR.opened w contents

/-! ### Scopes and variables -/

omit [IsPreorder World R] in
theorem enterScope : Always R (Component.enterScope this) := hR.modifySelf fun _ => rfl

theorem bindVariable {name : CString} {value : Option ℕ} :
    Always R (Component.bindVariable this name value) :=
  hR.onScopes.bind fun _ => hR.onScopes.bind fun _ => Always.pure

theorem declare : Always R (Component.declare this) :=
  hR.onSource.bind fun _ => hR.onSource.bind fun _ => hR.onScopes

theorem store : Always R (Component.store this) := by
  refine hR.onSource.bind fun _ => hR.popData.bind fun _ => hR.onScopes.bind fun _ => ?_
  exact Always.ite Always.pure Always.throw

theorem readData : Always R (Component.readData this) := by
  refine hR.onSource.bind fun datum => ?_
  split
  · exact Always.pure
  · exact hR.allocate.bind fun _ => hR.construct.bind fun _ => Always.pure
  · exact hR.allocate.bind fun _ => hR.construct.bind fun _ => Always.pure

theorem push : Always R (Component.push this) := by
  refine hR.readData.bind fun data => ?_
  split
  · exact Always.throw
  · exact hR.pushData

theorem load : Always R (Component.load this) := by
  refine hR.onSource.bind fun name => hR.onScopes.bind fun data => ?_
  split
  · exact Always.throw
  · exact hR.pushData

/-! ### Jumps -/

theorem stopComponent : Always R (Component.stopComponent this) := by
  refine hR.onSource.bind fun name => always_self.bind fun c => ?_
  refine Always.ite (hR.modifySelf fun _ => rfl) (hR.onScopes.bind fun component => ?_)
  split
  · exact Always.throw
  · refine always_typedObject.bind ?_
    rintro ⟨type, object⟩
    refine Always.ite Always.throw (always_follow.bind fun address => Always.get.bind fun w => ?_)
    split
    · exact hR.modifySelf fun _ => rfl
    · exact Always.throw

theorem jump : Always R (Component.jump this) := hR.onSource.bind fun _ => hR.onSource

theorem behaviourJump : Always R (Component.behaviourJump this) := by
  refine always_self.bind fun c => Always.ite ?_ hR.jump
  exact hR.readData.bind fun _ => Always.pure

theorem ifClause : Always R (Component.ifClause this) := by
  refine hR.onSource.bind fun _ => hR.popData.bind fun _ => always_typedObject.bind ?_
  rintro ⟨type, object⟩
  refine Always.ite Always.throw (always_boolAt.bind fun _ => ?_)
  refine Always.ite (hR.onSource.bind fun _ => hR.onSource.bind fun _ => ?_) Always.pure
  exact Always.ite (hR.readData.bind fun _ => Always.pure) hR.onSource

theorem elseClause : Always R (Component.elseClause this) :=
  hR.onSource.bind fun _ => hR.onSource

/-! ### Procedures -/

theorem readParameterNames (parameters : ℕ) (names : IteratedList CString) :
    Always R (Component.readParameterNames this parameters names) := by
  induction parameters generalizing names with
  | zero => exact Always.pure
  | succ parameters ih => exact hR.onSource.bind fun _ => hR.onSource.bind fun _ => ih _

theorem proc : Always R (Component.proc this) := by
  refine always_self.bind fun c => Always.bind (hR.modifySelf fun _ => rfl) fun _ => ?_
  refine hR.onSource.bind fun _ => hR.onSource.bind fun _ => ?_
  refine (hR.readParameterNames _ _).bind fun _ => hR.onSource.bind fun _ => ?_
  refine always_follow.bind fun _ => always_follow.bind ?_
  rintro ⟨_, procs⟩
  refine Always.bind (hR.modifySelf fun _ => rfl) fun _ => always_self.bind fun _ => ?_
  exact hR.onSource.bind fun _ => Always.pure

theorem findProc {owner : ℕ} {procName : CString} :
    Always R (Component.findProc owner procName) := by
  refine always_self.bind fun c => ?_
  split
  · exact Always.pure
  · refine always_follow.bind ?_
    rintro ⟨proc, procs⟩
    exact Always.bind (hR.modifySelf fun _ => rfl) fun _ => Always.pure

theorem bindArguments (names : IteratedList CString) (parameters i : ℕ) :
    Always R (Component.bindArguments this names parameters i) := by
  induction parameters generalizing i with
  | zero => exact Always.pure
  | succ parameters ih =>
    refine always_follow.bind fun _ => always_follow.bind fun _ => hR.onScopes.bind fun _ => ?_
    exact hR.popData.bind fun _ => hR.onScopes.bind fun _ => ih _

theorem callOwn {proc : Procedure} : Always R (Component.callOwn this proc) := by
  refine hR.enterScope.bind fun _ => hR.onSource.bind fun _ => hR.allocate.bind fun _ => ?_
  refine hR.bindVariable.bind fun _ => always_follow.bind fun _ => ?_
  exact (hR.bindArguments _ _ _).bind fun _ => hR.onSource

theorem callGlobal {proc : Procedure} : Always R (Component.callGlobal this proc) := by
  refine hR.enterScope.bind fun _ => hR.onSource.bind fun _ => hR.allocate.bind fun _ => ?_
  refine always_self.bind fun c => Always.get.bind fun w => ?_
  refine hR.fopen.bind fun _ => hR.allocate.bind fun _ => hR.bindVariable.bind fun _ => ?_
  refine hR.bindVariable.bind fun _ => always_follow.bind fun _ => ?_
  refine (hR.bindArguments _ _ _).bind fun _ => always_self.bind fun _ => ?_
  exact Always.bind (hR.modifySelf fun _ => rfl) fun _ => hR.onSource

theorem popArguments (numParams : ℕ) : Always R (Component.popArguments this numParams) := by
  induction numParams with
  | zero => exact Always.pure
  | succ numParams ih => exact hR.popData.bind fun _ => always_typedObject.bind fun _ => ih

theorem callStandard {procName : CString} : Always R (Component.callStandard this procName) := by
  intro w w' h
  unfold Component.callStandard at h
  rw [ends_get_bind] at h
  rcases ends_bind.1 h with ⟨e, hfollow⟩ | ⟨⟨proc, functions⟩, u, hfollow, hrest⟩
  · exact always_follow _ _ (.inr ⟨e, hfollow⟩)
  · obtain ⟨-, rfl⟩ := returns_follow.1 hfollow
    simp only at hrest
    rw [ends_set_bind] at hrest
    refine trans_of R (hR.functions u functions) ?_
    cases proc with
    | none => exact Always.throw _ _ hrest
    | some proc =>
      have hpop : Always R (do
          let numParams ← follow proc.parameterNames.getListLength
          Component.popArguments this numParams) :=
        always_follow.bind fun _ => hR.popArguments _
      exact hpop _ _ hrest

theorem procCall : Always R (Component.procCall this) := by
  refine hR.onSource.bind fun _ => hR.findProc.bind fun found => ?_
  split
  · exact hR.callOwn
  · refine Always.get.bind fun w => hR.findProc.bind fun found => ?_
    split
    · exact hR.callGlobal
    · exact hR.callStandard

theorem returnToSource {newFile : Option ℕ} :
    Always R (Component.returnToSource this newFile) := by
  unfold Component.returnToSource
  split
  · exact Always.pure
  · refine Always.get.bind fun w => ?_
    split
    · exact hR.modifySelf fun _ => rfl
    · exact Always.throw

theorem returnToPosition {newPos : Option ℕ} :
    Always R (Component.returnToPosition this newPos) := by
  refine always_follow.bind fun _ => Always.get.bind fun w => ?_
  split
  · exact hR.onSource
  · exact Always.throw

theorem procReturn : Always R (Component.procReturn this) := by
  refine hR.onScopes.bind fun _ => hR.onScopes.bind fun newFile => ?_
  refine hR.returnToSource.bind fun _ => hR.returnToPosition.bind fun _ => ?_
  exact hR.onScopes.bind fun _ => hR.onScopes

/-! ### Structs and operators -/

theorem readStructFields (paramsToRead : ℕ) (paramsList : ListMap ℕ) :
    Always R (Component.readStructFields this paramsToRead paramsList) := by
  induction paramsToRead generalizing paramsList with
  | zero => exact Always.pure
  | succ paramsToRead ih =>
    refine hR.onSource.bind fun _ => hR.onSource.bind fun _ => always_follow.bind fun _ => ?_
    refine hR.popData.bind fun _ => always_typedObject.bind fun _ => always_follow.bind ?_
    rintro ⟨_, paramsList⟩
    exact ih _

theorem structConstructor : Always R (Component.structConstructor this) :=
  hR.onSource.bind fun _ => (hR.readStructFields _ _).bind fun _ =>
    hR.allocate.bind fun _ => hR.construct.bind fun _ => hR.pushData

theorem structLoad : Always R (Component.structLoad this) := by
  refine hR.onSource.bind fun fieldName => hR.popData.bind fun item => ?_
  refine always_typedObject.bind ?_
  rintro ⟨type, object⟩
  refine always_follow.bind fun address => ?_
  intro w w' h
  rw [ends_get_bind] at h
  split at h
  · rename_i structFields hcell
    rcases ends_bind.1 h with ⟨e, hfollow⟩ | ⟨⟨field, fields⟩, u, hfollow, hwrite⟩
    · exact always_follow _ _ (.inr ⟨e, hfollow⟩)
    · obtain ⟨-, rfl⟩ := returns_follow.1 hfollow
      -- the list map of the fields has moved its cursor
      rw [returns_modify.ends_bind] at hwrite
      refine trans_of R (hR.write u address _ (.map fields) hcell fun h => h) ?_
      cases field with
      | none => exact Always.throw _ _ hwrite
      | some field => exact hR.pushData _ _ hwrite
  · exact Always.throw _ _ h

theorem struct : Always R (Component.struct this) := by
  refine hR.onSource.bind fun _ => Always.ite hR.structConstructor ?_
  exact Always.ite hR.structLoad Always.throw

theorem any : Always R (Component.any this) :=
  hR.popData.bind fun _ => hR.construct.bind fun _ => hR.pushData

theorem not : Always R (Component.not this) := by
  refine always_self.bind fun c => Always.ite Always.throw ?_
  refine hR.popData.bind fun first => always_typedObject.bind ?_
  rintro ⟨type, object⟩
  refine Always.ite Always.throw ?_
  intro w w' h
  rcases ends_bind.1 h with ⟨e, hbool⟩ | ⟨value, u, hbool, hrest⟩
  · exact always_boolAt _ _ (.inr ⟨e, hbool⟩)
  · obtain ⟨⟨p, rfl, hcell⟩, hu⟩ := returns_boolAt.1 hbool
    have hfollow : Returns (follow (some p) : Exec ℕ) u p u := returns_follow.2 ⟨rfl, rfl⟩
    rw [hfollow.ends_bind, returns_modify.ends_bind] at hrest
    subst hu
    refine trans_of R (hR.write _ p _ (boolCell (!value)) hcell fun h => h) ?_
    exact hR.pushData _ _ hrest

theorem expression {op : Operator} : Always R (Component.expression doubles this op) := by
  refine always_self.bind fun c => Always.ite Always.throw ?_
  refine hR.popData.bind fun _ => hR.popData.bind fun _ => ?_
  refine always_castOperand.bind fun _ => always_castOperand.bind fun _ => ?_
  refine (always_operate op).bind ?_
  rintro ⟨type, value⟩
  exact hR.allocate.bind fun _ => hR.construct.bind fun _ => hR.pushData

/-! ### Blocks and projects -/

theorem blockEnd : Always R (Component.blockEnd this) := by
  refine always_self.bind fun c => Always.ite ?_ (hR.onScopes.bind fun found => ?_)
  · refine hR.onSource.bind fun _ => Always.ite ?_ Always.pure
    exact hR.onSource.bind fun _ => Always.pure
  · split
    · exact hR.procReturn
    · exact Always.pure

theorem tryBlocks {projectedObject : Option ℕ} (rounds : ℕ) :
    Always R (Component.tryBlocks this projectedObject rounds) := by
  induction rounds with
  | zero => exact Always.throw
  | succ rounds ih =>
    refine hR.onSource.bind fun _ => Always.ite Always.pure ?_
    refine always_typedObject.bind ?_
    rintro ⟨type, _⟩
    refine Always.ite (always_self.bind fun c => hR.onSource.bind fun _ => ih) ?_
    exact hR.modifySelf fun _ => rfl

theorem projectEntry : Always R (Component.projectEntry this) := by
  refine hR.enterScope.bind fun _ => hR.popData.bind fun _ => always_typedObject.bind ?_
  rintro ⟨_, projectedObject⟩
  refine hR.onSource.bind fun _ => hR.bindVariable.bind fun _ => Always.get.bind fun _ => ?_
  exact hR.tryBlocks _

theorem projectExit : Always R (Component.projectExit this) := by
  refine always_self.bind fun c => ?_
  exact Always.ite Always.throw (hR.onScopes.bind fun _ => hR.modifySelf fun _ => rfl)

/-! ### Constructors -/

theorem nextParameter : Always R (Component.nextParameter this) := by
  refine always_self.bind fun c => always_follow.bind fun _ => always_follow.bind ?_
  rintro ⟨value, parameters⟩
  exact Always.bind (hR.modifySelf fun _ => rfl) fun _ => Always.pure

theorem readParameters (parameters : ℕ) (readParams : IteratedList CString)
    (thisConstructor : Bool) :
    Always R (Component.readParameters this parameters readParams thisConstructor) := by
  induction parameters generalizing readParams thisConstructor with
  | zero => exact Always.pure
  | succ parameters ih =>
    refine hR.onSource.bind fun _ => hR.nextParameter.bind fun _ => always_typedObject.bind ?_
    rintro ⟨type, _⟩
    refine hR.onSource.bind fun _ => Always.ite ?_ (ih _ _)
    exact always_follow.bind fun _ => ih _ _

theorem bindParameters (parameters : ℕ) (readParams : IteratedList CString) :
    Always R (Component.bindParameters this parameters readParams) := by
  induction parameters generalizing readParams with
  | zero => exact Always.pure
  | succ parameters ih =>
    refine always_follow.bind ?_
    rintro ⟨name, readParams⟩
    refine always_follow.bind fun _ => hR.onScopes.bind fun _ => hR.nextParameter.bind fun _ => ?_
    exact hR.onScopes.bind fun _ => ih _

omit [IsPreorder World R] in
theorem rewindParameters : Always R (Component.rewindParameters this) :=
  hR.modifySelf fun _ => rfl

omit hR in
theorem givenParameters : Always R (Component.givenParameters this) := by
  refine always_self.bind fun c => ?_
  split
  · exact Always.pure
  · exact always_follow

theorem matchConstructor (paramsToRead : Option UInt8) (given : ℕ) :
    Always R (Component.matchConstructor this paramsToRead given) :=
  Always.ite (hR.readParameters _ _ _) (hR.onSource.bind fun _ => Always.pure)

theorem runConstructor (parameters : ℕ) (readParams : IteratedList CString) :
    Always R (Component.runConstructor this parameters readParams) :=
  hR.rewindParameters.bind fun _ => (hR.bindParameters _ _).bind fun _ =>
    hR.modifySelf fun _ => rfl

theorem skipConstructor : Always R (Component.skipConstructor this) := by
  refine always_self.bind fun c => Always.ite ?_ Always.pure
  exact hR.onSource.bind fun _ => hR.onSource.bind fun _ => Always.pure

theorem constructorWithin (rounds : ℕ) : Always R (Component.constructorWithin this rounds) := by
  induction rounds with
  | zero => exact Always.throw
  | succ rounds ih =>
    refine hR.skipConstructor.bind fun _ => givenParameters.bind fun given => ?_
    refine hR.onSource.bind fun _ => (hR.matchConstructor _ _).bind ?_
    rintro ⟨readParams, thisConstructor⟩
    refine Always.ite (hR.runConstructor _ _) (hR.rewindParameters.bind fun _ => ?_)
    refine always_self.bind fun c => hR.onSource.bind fun _ => Always.ite ih Always.throw

theorem constructor : Always R (Component.constructor this) :=
  Always.get.bind fun _ => hR.constructorWithin _

/-! ### Channels -/

omit hR in
theorem storeChannel {name : CString} {channelWrapper : ChannelWrapper} :
    Always R (Component.storeChannel this wires name channelWrapper) := by
  refine always_follow.bind fun _ => always_follow.bind ?_
  rintro ⟨stored, channels⟩
  exact Always.ite Always.pure Always.throw

theorem readChannel : Always R (Component.readChannel this wires) := by
  refine hR.onSource.bind fun direction => Always.bind ?_ fun direction => ?_
  · exact Always.ite Always.pure (Always.ite Always.pure Always.throw)
  · refine hR.onSource.bind fun _ => hR.onSource.bind fun _ => always_follow.bind fun _ => ?_
    exact storeChannel

theorem readChannels (numberOfChannels : ℕ) (wires : Wires) :
    Always R (Component.readChannels this numberOfChannels wires) := by
  induction numberOfChannels generalizing wires with
  | zero => exact Always.pure
  | succ numberOfChannels ih => exact hR.readChannel.bind fun _ => ih _

theorem readInterfaces (numberOfInterfaces : ℕ) (wires : Wires) :
    Always R (Component.readInterfaces this numberOfInterfaces wires) := by
  induction numberOfInterfaces generalizing wires with
  | zero => exact Always.pure
  | succ numberOfInterfaces ih =>
    exact hR.onSource.bind fun _ => (hR.readChannels _ _).bind fun _ => ih _

theorem componentDeclared : Always R (Component.component this wires) := by
  refine hR.onSource.bind fun name => always_self.bind fun c => Always.ite Always.throw ?_
  exact hR.onSource.bind fun _ => hR.readInterfaces _ _

theorem loadComponent {message : String} : Always R (Component.loadComponent this message) := by
  refine hR.load.bind fun _ => hR.popData.bind fun _ => always_typedObject.bind ?_
  rintro ⟨type, object⟩
  exact Always.ite Always.throw always_componentAt

theorem connectEnd : Always R (Component.connectEnd this wires) := by
  refine hR.loadComponent.bind fun owner => hR.onSource.bind fun name => ?_
  refine always_waitUntilRunning.bind fun _ => always_findChannel.bind fun channel => ?_
  split
  · exact Always.throw
  · exact Always.pure

theorem connect : Always R (Component.connect this wires) :=
  hR.connectEnd.bind fun _ => hR.connectEnd.bind fun _ => Always.pure

theorem disconnect : Always R (Component.disconnect this wires) := by
  refine hR.loadComponent.bind fun owner => hR.onSource.bind fun name => ?_
  refine always_findChannel.bind fun channel => ?_
  split
  · exact Always.throw
  · exact Always.pure

theorem send : Always R (Component.send this wires) := by
  refine hR.onSource.bind fun name => always_findChannel.bind fun channel => ?_
  split
  · exact Always.throw
  · refine hR.popData.bind fun _ => always_typedObject.bind ?_
    rintro ⟨type, object⟩
    exact Always.pure

theorem beginReceive : Always R (Component.beginReceive this wires) :=
  hR.onSource.bind fun _ => always_findChannel.bind fun _ => always_follow.bind fun _ =>
    hR.allocate.bind fun _ => hR.construct.bind fun _ => Always.pure

theorem receive : Always R (Component.receive this wires received) := by
  intro w w' h
  rcases ends_bind.1 h with ⟨e, hbegin⟩ | ⟨⟨channel, wrapper, block⟩, u, hbegin, hrest⟩
  · exact hR.beginReceive _ _ (.inr ⟨e, hbegin⟩)
  · rw [returns_modify.ends_bind] at hrest
    refine trans_of R (hR.beginReceive _ _ (.inl ⟨_, hbegin⟩)) ?_
    refine trans_of R ?_ (hR.pushData _ _ hrest)
    obtain ⟨f, -, rfl, rfl, rfl⟩ := Component.returns_beginReceive hbegin
    exact hR.write _ _ _ received World.boxed_object fun h => h

/-! ### Components that are called -/

theorem newComponent {name path : CString} {params : Option (IteratedList ℕ)} :
    Always R (Component.newComponent name path params) := by
  refine hR.fopen.bind fun opened => ?_
  cases opened with
  | none => exact Always.throw
  | some sourceFile =>
    intro w w' h
    simp only at h
    rw [ends_get_bind, ends_set_bind] at h
    rw [ends_pure.1 h]
    exact hR.created w _

theorem popParameters (parameters : ℕ) (paramsList : IteratedList ℕ) :
    Always R (Component.popParameters this parameters paramsList) := by
  induction parameters generalizing paramsList with
  | zero => exact Always.pure
  | succ parameters ih => exact hR.popData.bind fun _ => ih _

theorem paramsList {numberOfParameters : Option UInt8} :
    Always R (Component.paramsList this numberOfParameters) :=
  Always.ite Always.pure (hR.popParameters _ _).map

/-! ### Instructions -/

/-- The relation holds across every handler but that of `CALL`. -/
theorem execute {op : Opcode} (hop : op ≠ .call) :
    Always R (execute doubles (channelHandler wires received) this op) := by
  cases op with
  | enterScope => exact hR.enterScope
  | exitScope => exact hR.onScopes
  | call => exact absurd rfl hop
  | declare => exact hR.declare
  | store => exact hR.store
  | push => exact hR.push
  | load => exact hR.load
  | constructor => exact hR.constructor
  | expression _ => exact hR.expression
  | not => exact hR.not
  | stop => exact hR.stopComponent
  | behaviourJump => exact hR.behaviourJump
  | jump => exact hR.jump
  | ifClause => exact hR.ifClause
  | elseClause => exact hR.elseClause
  | proc => exact hR.proc
  | blockEnd => exact hR.blockEnd
  | procCall => exact hR.procCall
  | procReturn => exact hR.procReturn
  | struct => exact hR.struct
  | any => exact hR.any
  | projectEntry => exact hR.projectEntry
  | projectExit => exact hR.projectExit
  | component => exact hR.componentDeclared.bind fun _ => Always.pure
  | connect => exact hR.connect.bind fun _ => Always.pure
  | disconnect => exact hR.disconnect.bind fun _ => Always.pure
  | send => exact hR.send.bind fun _ => Always.pure
  | receive => exact hR.receive

/-- However a round ends, when the handler of its opcode is one of those. -/
theorem round {w w' : World}
    (hcall : w.opcodeAt this = some .call →
      ∀ t, Ends (InsenseCVM.execute doubles (channelHandler wires received) this .call)
        (w.setSource this ((w.source this).advance 1)) t → R w t)
    (h : Ends (runOne doubles (channelHandler wires received) this) w w') : R w w' := by
  have hexec : ∀ op, w.opcodeAt this = some op →
      Ends (InsenseCVM.execute doubles (channelHandler wires received) this op)
        (w.setSource this ((w.source this).advance 1)) w' → R w w' := by
    intro op hop hends
    by_cases hne : op = .call
    · subst hne
      exact hcall hop _ hends
    · exact trans_of R (hR.source this w _) (hR.execute hne _ _ hends)
  rcases h with ⟨more, h⟩ | ⟨e, h⟩
  · cases more with
    | true =>
      rcases runs_one_cases (.step h (.refl _)) with ⟨op, hop, hrun⟩ | ⟨-, rfl⟩
      · exact hexec op hop (.inl ⟨_, hrun⟩)
      · exact hR.source this w _
    | false =>
      rw [(runOne_false h).2]
      exact refl_of R w
  · obtain ⟨-, op, hop, hrun⟩ := runOne_throws h
    exact hexec op hop (.inr ⟨e, hrun⟩)

end FullFootprint

end InsenseCVM
