import InsenseCVM.Machine.Scoping

/-!
# Project statements

`PROJECT_ENTRY` enters a scope for the projected value. Its `PROJECT_EXIT` byte is consumed by
`component_projectEntry` when no block matches, and by `component_blockEnd` at the end of the block
that does, so that `component_projectExit`, which leaves the scope and clears `inProject`, is never
run. `ProjectRun` is a run of the machine over a project statement.
-/

namespace InsenseCVM
open Execution ByteStream

variable {D : Type} {doubles : Doubles D} {channelInstruction : Opcode → ℕ → Exec Unit} {this : ℕ}
  {w w' u v : World} {levels : List ℕ} {es : ℕ → List (ListMap.Located ℕ)} {α : Type}

/-! ### Scopes on top of those that are there -/

/-- The levels that were there are still there, below those that were entered, and a component in a
project stays in one. -/
def Deepens (this : ℕ) (w w' : World) : Prop :=
  Settled this w → Settled this w' ∧
    ((w.component this).inProject = true → (w'.component this).inProject = true) ∧
    ∀ levels es, ScopesAre (w.component this).scopeStack levels es →
      ∃ pre es', ScopesAre (w'.component this).scopeStack (pre ++ levels) es'

instance : IsPreorder World (Deepens this) where
  refl _ h := ⟨h, fun h => h, fun _ es hs => ⟨[], es, hs⟩⟩
  trans u v w h h' hu := by
    obtain ⟨hv, hproject, hscopes⟩ := h hu
    obtain ⟨hw, hproject', hscopes'⟩ := h' hv
    refine ⟨hw, fun hp => hproject' (hproject hp), fun levels es hs => ?_⟩
    obtain ⟨pre, es', hs'⟩ := hscopes levels es hs
    obtain ⟨pre', es'', hs''⟩ := hscopes' _ es' hs'
    exact ⟨pre' ++ pre, es'', by rwa [List.append_assoc]⟩

theorem Undisturbed.deepens {reserved : CString → Prop} (h : Undisturbed this reserved w w') :
    Deepens this w w' := by
  intro hw
  obtain ⟨hw', hsame⟩ := h hw
  refine ⟨hw', hsame.inProject, fun levels es hs => ?_⟩
  obtain ⟨es', hs', -⟩ := hsame.scopes levels es hs
  exact ⟨[], es', hs'⟩

theorem deepens_of_undisturbed {m : Exec α} (h : Respects (Undisturbed this noName) m) :
    Respects (Deepens this) m :=
  fun w a w' hrun => (h w a w' hrun).deepens

theorem footprint_deepens : Footprint this (Deepens this) :=
  Footprint.mono (R := Undisturbed this noName) footprint_undisturbed Undisturbed.deepens

theorem deepens_enterScope : Respects (Deepens this) (Component.enterScope this) := by
  intro w a w' hrun hw
  obtain rfl := returns_enterScope.1 hrun
  refine ⟨hw.setComponent (hw.sourceFile this), ?_, fun levels es hs => ?_⟩
  · rw [World.setComponent_component]
    exact fun hp => hp
  · rw [World.setComponent_component]
    obtain ⟨b, es', hs', -, -⟩ := scopesAre_enterScope hs
    exact ⟨[b], es', hs'⟩

/-- A change of the component that the scopes do not depend on. -/
theorem deepens_setComponent {c : Component}
    (hscopes : c.scopeStack = (w.component this).scopeStack) (hsource : c.sourceFile < w.handles)
    (hproject : (w.component this).inProject = true → c.inProject = true) :
    Deepens this w (w.setComponent this c) := by
  intro hw
  refine ⟨hw.setComponent hsource, ?_, fun levels es hs => ⟨[], es, ?_⟩⟩
  · rw [World.setComponent_component]
    exact hproject
  · rw [World.setComponent_component, hscopes]
    exact hs

/-! ### Calls -/

theorem deepens_bindVariable {name : CString} {value : Option ℕ} :
    Respects (Deepens this) (Component.bindVariable this name value) :=
  deepens_of_undisturbed (undisturbed_bindVariable (not_noName name))

theorem deepens_bindArguments (names : IteratedList CString) (parameters i : ℕ) :
    Respects (Deepens this) (Component.bindArguments this names parameters i) := by
  refine deepens_of_undisturbed ?_
  induction parameters generalizing i with
  | zero => exact Respects.pure
  | succ parameters ih =>
    unfold Component.bindArguments
    refine keeps_follow.respects.bind fun _ => keeps_follow.respects.bind fun name => ?_
    refine (undisturbed_declareVariable (not_noName name)).bind fun _ => ?_
    refine footprint_undisturbed.popData.bind fun _ => ?_
    exact (undisturbed_storeVariable (not_noName name)).bind fun _ => ih _

theorem deepens_callOwn {proc : Procedure} :
    Respects (Deepens this) (Component.callOwn this proc) := by
  unfold Component.callOwn
  refine deepens_enterScope.bind fun _ => ?_
  refine footprint_deepens.ftell.bind fun fPos => ?_
  refine (footprint_deepens.allocate (by simp)).bind fun _ => ?_
  refine deepens_bindVariable.bind fun _ => keeps_follow.respects.bind fun _ => ?_
  refine (deepens_bindArguments _ _ _).bind fun _ => ?_
  exact footprint_deepens.seekSet

theorem deepens_callGlobal {proc : Procedure} :
    Respects (Deepens this) (Component.callGlobal this proc) := by
  unfold Component.callGlobal
  refine deepens_enterScope.bind fun _ => ?_
  refine footprint_deepens.ftell.bind fun fPos => ?_
  refine (footprint_deepens.allocate (by simp)).bind fun address => ?_
  refine keeps_self.respects.bind fun c => Respects.bind Respects.get fun w₀ => ?_
  intro w a w' h
  obtain ⟨opened, u, hopen, hrest⟩ := returns_bind.1 h
  obtain ⟨fLoc, v, halloc, hcall⟩ := returns_bind.1 hrest
  have hfile : ∀ handle, Cell.file opened = .file (some handle) → handle < u.handles := by
    intro handle heq
    cases heq
    exact fopen_lt hopen
  have hu : Undisturbed this noName w u := footprint_undisturbed.fopen _ _ _ hopen
  have hv : Undisturbed this noName u v := undisturbed_of_alloc hfile halloc
  have hlast : Respects (Deepens this) (do
      Component.bindVariable this returnAddress (some address)
      Component.bindVariable this returnSource (some fLoc)
      let parameters ← follow proc.parameterNames.getListLength
      Component.bindArguments this proc.parameterNames parameters 0
      let main ← self w₀.mainComponent
      modifySelf this ({ · with sourceFile := main.sourceFile })
      onSource this (seekSet proc.position)) := by
    refine deepens_bindVariable.bind fun _ => deepens_bindVariable.bind fun _ => ?_
    refine keeps_follow.respects.bind fun _ => (deepens_bindArguments _ _ _).bind fun _ => ?_
    intro w a w' hrun
    rw [returns_self.bind_iff] at hrun
    obtain ⟨_, x, hself, hseek⟩ := returns_bind.1 hrun
    obtain ⟨-, rfl⟩ := hself.unique returns_modifySelf
    refine trans_of (Deepens this) (fun hw => ?_)
      (footprint_deepens.seekSet _ _ _ hseek)
    exact deepens_setComponent rfl (hw.sourceFile _) (fun hp => hp) hw
  exact trans_of (Deepens this) (trans_of (Deepens this) hu.deepens hv.deepens) (hlast _ _ _ hcall)

theorem deepens_procCall : Respects (Deepens this) (Component.procCall this) := by
  unfold Component.procCall
  refine footprint_deepens.readString.bind fun procName => ?_
  refine footprint_deepens.findProc.bind fun found => ?_
  split
  · exact deepens_callOwn
  · refine Respects.bind Respects.get fun w => ?_
    refine footprint_deepens.findProc.bind fun found => ?_
    split
    · exact deepens_callGlobal
    · exact footprint_deepens.callStandard

/-! ### Entering and leaving -/

/-- What `PROJECT_ENTRY` does once it has entered its scope. -/
theorem deepens_tryProject : Respects (Deepens this) (do
    let anyObject ← popData this
    let (_, projectedObject) ← typedObject anyObject
    let asName ← onSource this readString
    Component.bindVariable this asName projectedObject
    let w ← get
    Component.tryBlocks this projectedObject (w.source this).rounds) := by
  refine footprint_deepens.popData.bind fun _ => keeps_typedObject.respects.bind ?_
  rintro ⟨_, projectedObject⟩
  refine footprint_deepens.readString.bind fun _ => ?_
  refine deepens_bindVariable.bind fun _ => Respects.bind Respects.get fun _ => ?_
  exact deepens_of_undisturbed (undisturbed_tryBlocks _)

theorem deepens_projectEntry : Respects (Deepens this) (Component.projectEntry this) :=
  deepens_enterScope.bind fun _ => deepens_tryProject

/-! ### The instructions -/

/-- The instructions that can leave a scope. -/
def Opcode.Leaves : Opcode → Prop
  | .exitScope | .procReturn | .blockEnd | .projectExit => True
  | _ => False

/-- Every other instruction leaves the levels that are there where they are. -/
theorem deepens_execute (hchannel : ∀ op, Respects (Deepens this) (channelInstruction op this))
    {op : Opcode} (h : ¬ op.Leaves) :
    Respects (Deepens this) (execute doubles channelInstruction this op) := by
  have hplain : op.Plain → Respects (Deepens this) (execute doubles channelInstruction this op) :=
    fun hop => footprint_deepens.plain hop
  cases op with
  | enterScope => exact deepens_enterScope
  | declare =>
    refine footprint_deepens.readString.bind fun name => ?_
    refine footprint_deepens.fgetc.bind fun _ => ?_
    exact deepens_of_undisturbed (undisturbed_declareVariable (not_noName name))
  | store =>
    refine footprint_deepens.readString.bind fun name => ?_
    refine footprint_deepens.popData.bind fun _ => ?_
    refine (deepens_of_undisturbed (undisturbed_storeVariable (not_noName name))).bind fun _ => ?_
    exact Respects.ite Respects.pure Respects.throw
  | constructor => exact deepens_of_undisturbed (undisturbed_constructor not_noName)
  | procCall => exact deepens_procCall
  | projectEntry => exact deepens_projectEntry
  | component | connect | disconnect | send | receive => exact hchannel _
  | exitScope | procReturn | blockEnd | projectExit => exact absurd trivial h
  | _ => exact hplain trivial

/-! ### A run over a project statement -/

/-- The component runs inside a block. An instruction that leaves a scope leaves one that was
entered in the block: the levels `ls` that were there stay. -/
inductive Body (doubles : Doubles D) (channelInstruction : Opcode → ℕ → Exec Unit) (this : ℕ)
    (ls : List ℕ) : World → World → Prop
  | refl (w : World) : Body doubles channelInstruction this ls w w
  | step {w u w' : World} (first : Runs doubles channelInstruction this 1 w u)
      (nested : ∀ op, w.opcodeAt this = some op → op.Leaves → op ≠ .projectExit ∧
        ∃ pre es, ScopesAre (u.component this).scopeStack (pre ++ ls) es)
      (rest : Body doubles channelInstruction this ls u w') :
      Body doubles channelInstruction this ls w w'

/-- What holds of a component inside a block. -/
structure Inside (this : ℕ) (ls : List ℕ) (w : World) : Prop where
  settled : Settled this w
  inProject : (w.component this).inProject = true
  scopes : ∃ pre es, ScopesAre (w.component this).scopeStack (pre ++ ls) es

theorem Inside.after {ls : List ℕ} (h : Inside this ls w) (hrun : Deepens this w w') :
    Inside this ls w' := by
  obtain ⟨hw', hproject, hscopes⟩ := hrun h.settled
  obtain ⟨pre, es, hs⟩ := h.scopes
  obtain ⟨pre', es', hs'⟩ := hscopes _ _ hs
  exact ⟨hw', hproject h.inProject, pre' ++ pre, es', by rwa [List.append_assoc]⟩

/-- One round inside a block. -/
theorem Inside.step {ls : List ℕ} (h : Inside this ls w)
    (hchannel : ∀ op, Respects (Deepens this) (channelInstruction op this))
    (hrun : Runs doubles channelInstruction this 1 w u)
    (nested : ∀ op, w.opcodeAt this = some op → op.Leaves → op ≠ .projectExit ∧
      ∃ pre es, ScopesAre (u.component this).scopeStack (pre ++ ls) es) : Inside this ls u := by
  have hread : Undisturbed this noName w (w.setSource this ((w.source this).advance 1)) :=
    undisturbed_opcode
  have hin := h.after hread.deepens
  rcases runs_one_cases hrun with ⟨op, hop, hexec⟩ | ⟨-, rfl⟩
  · by_cases hleaves : op.Leaves
    · obtain ⟨hexit, hscopes⟩ := nested op hop hleaves
      have hstays : StaysIn this (w.setSource this ((w.source this).advance 1)) u := by
        cases op with
        | exitScope => exact staysIn_onScopes _ _ _ hexec
        | procReturn => exact staysIn_procReturn _ _ _ hexec
        | blockEnd => exact staysIn_blockEnd _ _ _ hexec
        | projectExit => exact absurd rfl hexit
        | _ => exact absurd hleaves (fun h => h)
      obtain ⟨hu, hproject⟩ := hstays hin.settled
      exact ⟨hu, hproject hin.inProject, hscopes⟩
    · exact hin.after (deepens_execute hchannel hleaves _ _ _ hexec)
  · exact hin

theorem Body.inside {ls : List ℕ} (hbody : Body doubles channelInstruction this ls w w')
    (hchannel : ∀ op, Respects (Deepens this) (channelInstruction op this))
    (h : Inside this ls w) : Inside this ls w' := by
  induction hbody with
  | refl => exact h
  | step first nested _ ih => exact ih (h.step hchannel first nested)

def variableV : Name := ⟨[118], by decide⟩

end InsenseCVM
