import InsenseCVM.Machine.Footprint

/-!
# What the instructions do to the scopes

Most instructions leave the levels of the scope stack, `inProject` and the bytecode as they are,
and change the entries of a name only where they declare or store it. `Undisturbed` is that
relation between the states before and after. The plain instructions respect it, since it holds for
all that they change; those that bind names have lemmas of their own, and the handlers that enter
and leave scopes are the ones that remain.
-/

namespace InsenseCVM
open Execution ByteStream

/-- The levels of a scope stack, which are none while the stack is null. -/
def ScopesAre (scopeStack : Option (ScopeStack ℕ)) (levels : List ℕ)
    (es : ℕ → List (ListMap.Located ℕ)) : Prop :=
  match scopeStack with
  | none => levels = []
  | some s => s.Holds levels es

/-- The components and the files they read exist, and the heap ends at `fresh`. -/
structure Settled (this : ℕ) (w : World) : Prop where
  component : this < w.components
  sourceFile : ∀ c, (w.component c).sourceFile < w.handles
  files : ∀ p handle, w.cell p = some (.file (some handle)) → handle < w.handles
  cells : ∀ p, w.fresh ≤ p → w.cell p = none

/-- What an instruction does not disturb. -/
structure Same (this : ℕ) (reserved : CString → Prop) (w w' : World) : Prop where
  inProject : (w.component this).inProject = true → (w'.component this).inProject = true
  scopes : ∀ levels es, ScopesAre (w.component this).scopeStack levels es →
    ∃ es', ScopesAre (w'.component this).scopeStack levels es' ∧
      ScopeStack.SameFor reserved levels es es'
  cells : ∀ p c, w.cell p = some c → c.Fixed → w'.cell p = some c
  contents : (w'.source this).contents = (w.source this).contents

/-- The names in `reserved` keep their entries, and the rest of `Same` holds as well. -/
def Undisturbed (this : ℕ) (reserved : CString → Prop) (w w' : World) : Prop :=
  Settled this w → Settled this w' ∧ Same this reserved w w'

variable {this : ℕ} {reserved : CString → Prop} {w w' u : World} {α : Type} {levels : List ℕ}
  {es : ℕ → List (ListMap.Located ℕ)}

/-- No name is reserved. -/
def noName (_ : CString) : Prop := False

theorem not_noName (name : CString) : ¬ noName name := fun h => h

theorem Same.refl : Same this reserved w w :=
  ⟨fun h => h, fun _ es h => ⟨es, h, ScopeStack.SameFor.refl⟩, fun _ _ h _ => h, rfl⟩

theorem Same.trans (h : Same this reserved w u) (h' : Same this reserved u w') :
    Same this reserved w w' where
  inProject := fun hp => h'.inProject (h.inProject hp)
  scopes := fun levels es hscopes => by
    obtain ⟨es₁, hscopes₁, hsame₁⟩ := h.scopes levels es hscopes
    obtain ⟨es₂, hscopes₂, hsame₂⟩ := h'.scopes levels es₁ hscopes₁
    exact ⟨es₂, hscopes₂, hsame₁.trans hsame₂⟩
  cells := fun p c hcell hfixed => h'.cells p c (h.cells p c hcell hfixed) hfixed
  contents := h'.contents.trans h.contents

instance : IsPreorder World (Undisturbed this reserved) where
  refl _ h := ⟨h, Same.refl⟩
  trans _ _ _ h h' hw :=
    have hu := h hw
    have hw' := h' hu.1
    ⟨hw'.1, hu.2.trans hw'.2⟩

theorem ScopesAre.unique {o : Option (ScopeStack ℕ)} {levels' : List ℕ}
    {es' : ℕ → List (ListMap.Located ℕ)} (h : ScopesAre o levels es) (h' : ScopesAre o levels' es') :
    levels = levels' := by
  cases o with
  | none =>
    obtain rfl : levels = [] := h
    obtain rfl : levels' = [] := h'
    rfl
  | some s => exact (ScopeStack.Holds.order h).unique (ScopeStack.Holds.order h')

/-! ### The parts of a handler -/

theorem undisturbed_setSource {f : File} (hf : f.contents = (w.source this).contents) :
    Undisturbed this reserved w (w.setSource this f) := by
  intro hw
  refine ⟨⟨hw.component, hw.sourceFile, hw.files, hw.cells⟩, fun h => h, Same.refl.scopes,
    fun _ _ h _ => h, ?_⟩
  rw [World.source_setSource]
  exact hf

/-- The opcode is read. -/
theorem undisturbed_opcode :
    Undisturbed this reserved w (w.setSource this ((w.source this).advance 1)) :=
  undisturbed_setSource rfl

/-- A component that reads an open file leaves everything settled. -/
theorem Settled.setComponent {owner : ℕ} {c : Component} (hw : Settled this w)
    (hsource : c.sourceFile < w.handles) : Settled this (w.setComponent owner c) := by
  refine ⟨hw.component, fun d => ?_, hw.files, hw.cells⟩
  by_cases hdo : d = owner
  · subst hdo
    rw [World.setComponent_component]
    exact hsource
  · show (Function.update w.component owner c d).sourceFile < w.handles
    rw [Function.update_of_ne hdo]
    exact hw.sourceFile d

/-- A change of a component that the scopes and the file do not depend on. -/
theorem undisturbed_setComponent {owner : ℕ} {c : Component}
    (hscopes : c.scopeStack = (w.component owner).scopeStack)
    (hsource : c.sourceFile = (w.component owner).sourceFile)
    (hproject : (w.component owner).inProject = true → c.inProject = true) :
    Undisturbed this reserved w (w.setComponent owner c) := by
  intro hw
  refine ⟨hw.setComponent (hsource.trans_lt (hw.sourceFile owner)), ?_⟩
  by_cases howner : this = owner
  · subst howner
    refine ⟨?_, ?_, fun _ _ h _ => h, ?_⟩
    · rw [World.setComponent_component]
      exact hproject
    · rw [World.setComponent_component, hscopes]
      exact Same.refl.scopes
    · rw [World.source_setComponent hsource]
  · have hsame : (w.setComponent owner c).component this = w.component this :=
      Function.update_of_ne howner ..
    refine ⟨?_, ?_, fun _ _ h _ => h, ?_⟩
    · rw [hsame]
      exact fun hp => hp
    · rw [hsame]
      exact Same.refl.scopes
    · unfold World.source
      rw [hsame]
      rfl

theorem undisturbed_modifySelf {owner : ℕ} {f : Component → Component}
    (hscopes : ∀ c, (f c).scopeStack = c.scopeStack) (hsource : ∀ c, (f c).sourceFile = c.sourceFile)
    (hproject : ∀ c, c.inProject = true → (f c).inProject = true) :
    Respects (Undisturbed this reserved) (modifySelf owner f) := by
  intro w a w' hrun
  obtain ⟨-, rfl⟩ := hrun.unique returns_modifySelf
  exact undisturbed_setComponent (hscopes _) (hsource _) (hproject _)

/-- A new cell; a handle in it is one of an open file. -/
theorem undisturbed_of_alloc {c : Cell} {a : ℕ}
    (hc : ∀ handle, c = .file (some handle) → handle < w.handles)
    (hrun : Returns (alloc c) w a w') : Undisturbed this reserved w w' := by
  intro hw
  obtain ⟨-, rfl⟩ := hrun.unique returns_alloc
  refine ⟨⟨hw.component, hw.sourceFile, fun p handle hp => ?_, fun p hp => ?_⟩, fun h => h,
    Same.refl.scopes, fun p d hcell _ => ?_, rfl⟩
  · by_cases hne : p = w.fresh
    · subst hne
      have hp' : Function.update w.cell w.fresh (some c) w.fresh = some (.file (some handle)) := hp
      rw [Function.update_self] at hp'
      exact hc handle (Option.some.inj hp')
    · have hp' : Function.update w.cell w.fresh (some c) p = some (.file (some handle)) := hp
      rw [Function.update_of_ne hne] at hp'
      exact hw.files p handle hp'
  · have hne : p ≠ w.fresh := by
      have hp' : w.fresh + 1 ≤ p := hp
      omega
    show Function.update w.cell w.fresh (some c) p = none
    rw [Function.update_of_ne hne]
    exact hw.cells p (Nat.le_of_succ_le hp)
  · have hne : p ≠ w.fresh := by
      rintro rfl
      rw [hw.cells _ (Nat.le_refl _)] at hcell
      cases hcell
    show Function.update w.cell w.fresh (some c) p = some d
    rwa [Function.update_of_ne hne]

/-- A cell that is not fixed is written, and is not fixed afterwards. -/
theorem undisturbed_write {address : ℕ} {c d : Cell} (hcell : w.cell address = some c)
    (hfixed : ¬ c.Fixed) (hfixed' : ¬ d.Fixed) :
    Undisturbed this reserved w { w with cell := Function.update w.cell address (some d) } := by
  intro hw
  refine ⟨⟨hw.component, hw.sourceFile, fun p handle hp => ?_, fun p hp => ?_⟩, fun h => h,
    Same.refl.scopes, fun p e hp he => ?_, rfl⟩
  · by_cases hne : p = address
    · subst hne
      have hp' : Function.update w.cell p (some d) p = some (.file (some handle)) := hp
      rw [Function.update_self] at hp'
      obtain rfl := Option.some.inj hp'
      exact absurd trivial hfixed'
    · have hp' : Function.update w.cell address (some d) p = some (.file (some handle)) := hp
      rw [Function.update_of_ne hne] at hp'
      exact hw.files p handle hp'
  · have hne : p ≠ address := by
      rintro rfl
      rw [hw.cells p hp] at hcell
      cases hcell
    show Function.update w.cell address (some d) p = none
    rw [Function.update_of_ne hne]
    exact hw.cells p hp
  · have hne : p ≠ address := by
      rintro rfl
      rw [hcell] at hp
      obtain rfl := Option.some.inj hp
      exact hfixed he
    show Function.update w.cell address (some d) p = some e
    rwa [Function.update_of_ne hne]

/-- An operation of the scope stack that keeps the levels and the reserved names. -/
theorem undisturbed_onScopes {f : ScopeStack ℕ → Option (α × ScopeStack ℕ)}
    (hf : ∀ s s' levels es a, s.Holds levels es → f s = some (a, s') →
      ∃ es', s'.Holds levels es' ∧ ScopeStack.SameFor reserved levels es es') :
    Respects (Undisturbed this reserved) (onScopes this f) := by
  intro w a w' hrun hw
  obtain ⟨s, s', hs, hfs, rfl⟩ := returns_onScopes.1 hrun
  refine ⟨hw.setComponent (hw.sourceFile this), ?_, fun levels es hscopes => ?_, fun _ _ h _ => h, ?_⟩
  · rw [World.setComponent_component]
    exact fun hp => hp
  · rw [World.setComponent_component]
    rw [hs] at hscopes
    exact hf s s' levels es a hscopes hfs
  · rw [World.source_setComponent (by rfl)]

theorem undisturbed_load {name : CString} :
    Respects (Undisturbed this reserved) (onScopes this (·.load name)) := by
  refine undisturbed_onScopes fun s s' levels es v hs hload => ?_
  obtain ⟨v', s₁, hload₁, hsame, -⟩ := hs.load name
  rw [hload₁] at hload
  obtain ⟨-, rfl⟩ := Prod.mk.inj (Option.some.inj hload)
  exact ⟨es, hsame.holds, ScopeStack.SameFor.refl⟩

theorem undisturbed_storeVariable {name : CString} {value : Option ℕ} (hname : ¬ reserved name) :
    Respects (Undisturbed this reserved) (onScopes this (·.store name value)) := by
  refine undisturbed_onScopes fun s s' levels es b hs hstore => ?_
  obtain ⟨es', hholds, hsame⟩ := hs.store_keeps hstore
  exact ⟨es', hholds, hsame hname⟩

theorem undisturbed_declareVariable {name : CString} (hname : ¬ reserved name) :
    Respects (Undisturbed this reserved) (Component.declareVariable this name) := by
  refine undisturbed_onScopes fun s s' levels es _ hs hdeclare => ?_
  cases hrun : s.declare name with
  | none =>
    rw [hrun] at hdeclare
    cases hdeclare
  | some t =>
    rw [hrun] at hdeclare
    cases hdeclare
    obtain ⟨es', hholds, hsame⟩ := hs.declare_keeps hrun
    exact ⟨es', hholds, hsame hname⟩

/-- The bytes of an open file are not overwritten. -/
theorem undisturbed_opened {contents : List UInt8} : Undisturbed this reserved w
    { w with file := Function.update w.file w.handles ⟨contents, 0⟩, handles := w.handles + 1 } := by
  intro hw
  refine ⟨⟨hw.component, fun c => Nat.lt_succ_of_lt (hw.sourceFile c),
    fun p handle hp => Nat.lt_succ_of_lt (hw.files p handle hp), hw.cells⟩, fun h => h,
    Same.refl.scopes, fun _ _ h _ => h, ?_⟩
  have hne := Nat.ne_of_lt (hw.sourceFile this)
  exact congrArg File.contents (Function.update_of_ne hne ..)

/-- The new component is none of those that there were. -/
theorem undisturbed_created {c : Component} (hc : c.sourceFile < w.handles) :
    Undisturbed this reserved w
      { w.setComponent w.components c with components := w.components + 1 } := by
  intro hw
  have hne : this ≠ w.components := Nat.ne_of_lt hw.component
  have hsame : (w.setComponent w.components c).component this = w.component this :=
    Function.update_of_ne hne ..
  have hcreated : Settled this (w.setComponent w.components c) := hw.setComponent hc
  refine ⟨⟨Nat.lt_succ_of_lt hw.component, hcreated.sourceFile, hw.files, hw.cells⟩, ?_, ?_,
    fun _ _ h _ => h, ?_⟩
  · show _ → ((w.setComponent _ _).component this).inProject = true
    rw [hsame]
    exact fun hp => hp
  · show ∀ levels es, _ → ∃ es', ScopesAre ((w.setComponent _ _).component this).scopeStack levels
      es' ∧ _
    rw [hsame]
    exact Same.refl.scopes
  · show (w.file ((w.setComponent _ _).component this).sourceFile).contents = _
    rw [hsame]
    rfl

/-- What the plain instructions change disturbs nothing. -/
theorem footprint_undisturbed : Footprint this (Undisturbed this reserved) where
  source _ _ h := undisturbed_setSource h
  component _ _ _ h :=
    undisturbed_setComponent h.scopeStack h.sourceFile fun hp => h.inProject.trans hp
  lookUp _ := undisturbed_load
  alloc _ _ h := undisturbed_of_alloc (fun _ hc => absurd hc (h _)) returns_alloc
  write _ _ _ _ hcell hc hd := undisturbed_write hcell hc hd
  opened _ _ := undisturbed_opened
  created _ _ h := undisturbed_created h
  started _ _ hw :=
    ⟨⟨hw.component, hw.sourceFile, hw.files, hw.cells⟩, fun h => h, Same.refl.scopes,
      fun _ _ h _ => h, rfl⟩
  functions _ _ hw :=
    ⟨⟨hw.component, hw.sourceFile, hw.files, hw.cells⟩, fun h => h, Same.refl.scopes,
      fun _ _ h _ => h, rfl⟩

/-! ### The handlers that bind names -/

theorem undisturbed_bindVariable {name : CString} {value : Option ℕ} (hname : ¬ reserved name) :
    Respects (Undisturbed this reserved) (Component.bindVariable this name value) :=
  (undisturbed_declareVariable hname).bind fun _ =>
    (undisturbed_storeVariable hname).bind fun _ => Respects.pure

/-- `DECLARE` of a name that is not reserved. -/
theorem undisturbed_declare {name : Name} {type : UInt8} {r : List UInt8}
    (hname : ¬ reserved (literal name.bytes))
    (hrest : (w.source this).rest = (Instruction.declare name type).operands ++ r)
    (h : Returns (Component.declare this) w () w') : Undisturbed this reserved w w' := by
  have hrest' : (w.source this).rest = name.encode ++ ([type] ++ r) := by
    rw [hrest]
    exact List.append_assoc ..
  have hread : Returns (onSource this readString) w (literal name.bytes)
      (w.setSource this ((w.source this).advance name.encode.length)) :=
    returns_onSource.2 ⟨_, reads_name name _ _ hrest', rfl⟩
  unfold Component.declare at h
  rw [hread.bind_iff] at h
  have hdeclare : Respects (Undisturbed this reserved) (do
      let _ ← onSource this fgetc
      Component.declareVariable this (literal name.bytes)) :=
    footprint_undisturbed.fgetc.bind fun _ => undisturbed_declareVariable hname
  have hreads : Undisturbed this reserved w _ := footprint_undisturbed.readString _ _ _ hread
  exact trans_of (Undisturbed this reserved) hreads (hdeclare _ _ _ h)

/-- `STORE` to a name that is not reserved. -/
theorem undisturbed_store {name : Name} {r : List UInt8} (hname : ¬ reserved (literal name.bytes))
    (hrest : (w.source this).rest = (Instruction.store name).operands ++ r)
    (h : Returns (Component.store this) w () w') : Undisturbed this reserved w w' := by
  have hread : Returns (onSource this readString) w (literal name.bytes)
      (w.setSource this ((w.source this).advance name.encode.length)) :=
    returns_onSource.2 ⟨_, reads_name name _ _ hrest, rfl⟩
  unfold Component.store at h
  rw [hread.bind_iff] at h
  have hstore : Respects (Undisturbed this reserved) (do
      let value ← popData this
      let stored ← onScopes this (·.store (literal name.bytes) value)
      if stored = true then pure () else fatal "  Unable to store data.") :=
    footprint_undisturbed.popData.bind fun _ => (undisturbed_storeVariable hname).bind fun _ =>
      Respects.ite Respects.pure Respects.throw
  have hreads : Undisturbed this reserved w _ := footprint_undisturbed.readString _ _ _ hread
  exact trans_of (Undisturbed this reserved) hreads (hstore _ _ _ h)

/-! ### Constructors -/

/-- A constructor binds the names of its parameters, whatever they are. -/
theorem undisturbed_constructor (hfree : ∀ name, ¬ reserved name) :
    Respects (Undisturbed this reserved) (Component.constructor this) := by
  have hR : ConstructorFootprint this (Undisturbed this reserved) :=
    { footprint_undisturbed with
      given := fun w c hscopes hsource hproject =>
        undisturbed_setComponent hscopes hsource fun h => hproject.trans h
      declareVariable := fun name => undisturbed_declareVariable (hfree name)
      storeVariable := fun name _ => undisturbed_storeVariable (hfree name) }
  exact hR.constructor

/-! ### Entering and leaving scopes -/

/-- `component_enterScope` puts one level on top. -/
theorem scopesAre_enterScope {o : Option (ScopeStack ℕ)} (h : ScopesAre o levels es) :
    ∃ a es', ScopesAre (some (ScopeStack.enterScope o)) (a :: levels) es' ∧ es' a = [] ∧
      ∀ b ∈ levels, es' b = es b := by
  cases o with
  | none =>
    obtain rfl : levels = [] := h
    exact ⟨0, _, ScopeStack.enterScope_null, rfl, by simp⟩
  | some s =>
    refine ⟨s.fresh, _, ScopeStack.Holds.enterScope h, Function.update_self .., fun b hb => ?_⟩
    have hlt : b < s.fresh := ScopeStack.Holds.bounded h b hb
    exact Function.update_of_ne (Nat.ne_of_lt hlt) ..

theorem returns_enterScope :
    Returns (Component.enterScope this) w () w' ↔ w' = w.setComponent this
      { w.component this with
        scopeStack := some (ScopeStack.enterScope (w.component this).scopeStack) } := by
  constructor
  · exact fun h => (h.unique returns_modifySelf).2
  · rintro rfl
    exact returns_modifySelf

theorem undisturbed_tryBlocks {projectedObject : Option ℕ} (rounds : ℕ) :
    Respects (Undisturbed this reserved) (Component.tryBlocks this projectedObject rounds) := by
  induction rounds with
  | zero => exact Respects.throw
  | succ rounds ih =>
    unfold Component.tryBlocks
    refine footprint_undisturbed.fgetc.bind fun nextByte => ?_
    refine Respects.ite Respects.pure (keeps_typedObject.respects.bind ?_)
    rintro ⟨type, _⟩
    refine Respects.ite (keeps_self.respects.bind fun c => ?_) ?_
    · exact footprint_undisturbed.skipToNext.bind fun _ => ih
    · exact undisturbed_modifySelf (fun _ => rfl) (fun _ => rfl) fun _ _ => rfl

/-- A component in a project stays in one. -/
def StaysIn (this : ℕ) (w w' : World) : Prop :=
  Settled this w → Settled this w' ∧
    ((w.component this).inProject = true → (w'.component this).inProject = true)

instance : IsPreorder World (StaysIn this) where
  refl _ h := ⟨h, fun h => h⟩
  trans u v w h h' hu := by
    obtain ⟨hv, hproject⟩ := h hu
    obtain ⟨hw, hproject'⟩ := h' hv
    exact ⟨hw, fun hp => hproject' (hproject hp)⟩

theorem Undisturbed.staysIn (h : Undisturbed this reserved w w') : StaysIn this w w' := by
  intro hw
  obtain ⟨hw', hsame⟩ := h hw
  exact ⟨hw', hsame.inProject⟩

theorem staysIn_onScopes {f : ScopeStack ℕ → Option (α × ScopeStack ℕ)} :
    Respects (StaysIn this) (onScopes this f) := by
  intro w a w' hrun hw
  obtain ⟨s, s', -, -, rfl⟩ := returns_onScopes.1 hrun
  refine ⟨hw.setComponent (hw.sourceFile this), fun hp => ?_⟩
  rw [World.setComponent_component]
  exact hp

theorem staysIn_returnToSource {newFile : Option ℕ} :
    Respects (StaysIn this) (Component.returnToSource this newFile) := by
  intro w a w' h
  unfold Component.returnToSource at h
  cases newFile with
  | none =>
    obtain ⟨-, rfl⟩ := returns_pure.1 h
    exact refl_of (StaysIn this) _
  | some newFile =>
    simp only [returns_get_bind] at h
    split at h
    · rename_i handle hcell
      obtain ⟨-, rfl⟩ := h.unique returns_modifySelf
      intro hw
      refine ⟨hw.setComponent (hw.files _ _ hcell), fun hp => ?_⟩
      rw [World.setComponent_component]
      exact hp
    · exact absurd h returns_throw

theorem staysIn_procReturn : Respects (StaysIn this) (Component.procReturn this) := by
  unfold Component.procReturn
  refine staysIn_onScopes.bind fun newPos => staysIn_onScopes.bind fun newFile => ?_
  refine staysIn_returnToSource.bind fun _ => Respects.bind ?_ fun _ =>
    staysIn_onScopes.bind fun _ => staysIn_onScopes
  unfold Component.returnToPosition
  refine keeps_follow.respects.bind fun _ => Respects.bind Respects.get fun w => ?_
  split
  · intro w a w' hrun
    have hsame : Undisturbed this noName w w' := footprint_undisturbed.seekSet _ _ _ hrun
    exact hsame.staysIn
  · exact Respects.throw

theorem staysIn_blockEnd : Respects (StaysIn this) (Component.blockEnd this) := by
  intro w a w' h
  by_cases hproject : (w.component this).inProject = true
  · have hsame : Undisturbed this noName w w' := footprint_undisturbed.blockEnd_inProject hproject h
    exact hsame.staysIn
  · unfold Component.blockEnd at h
    rw [returns_self.bind_iff, if_neg hproject] at h
    obtain ⟨found, u, hload, hrest⟩ := returns_bind.1 h
    refine trans_of (StaysIn this) (staysIn_onScopes _ _ _ hload) ?_
    cases found with
    | none =>
      obtain ⟨-, rfl⟩ := returns_pure.1 hrest
      exact refl_of (StaysIn this) _
    | some _ => exact staysIn_procReturn _ _ _ hrest

theorem settled_atCode {contents : List UInt8} {scopeStack : Option (ScopeStack ℕ)}
    {dataStack : Stack ℕ} {heap : List Cell} (hheap : ∀ c ∈ heap, ¬ c.Fixed) :
    Settled 0 (.atCode contents scopeStack dataStack heap) where
  component := Nat.zero_lt_one
  sourceFile := fun _ => Nat.zero_lt_one
  files := fun _ _ hcell => absurd trivial (hheap _ (List.mem_of_getElem? hcell))
  cells := fun _ hp => List.getElem?_eq_none hp

end InsenseCVM
