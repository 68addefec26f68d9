import InsenseCVM.Machine.ProcedureReturn

/-!
# Returning to the file of the call

A call of a procedure of the main component binds `_returnSource` beside `_returnAddress`: the source
file of the component, opened by its name. A return takes the innermost `_returnSource` of all
scopes, and a local call binds none. So a return goes on in the component's own file as soon as any
call of the main component's procedures is open, wherever the call stands that it returns from.

`ChainRun` is a run of the machine with the calls of both kinds that are open.
-/

namespace InsenseCVM
open Execution ByteStream

variable {D : Type} {doubles : Doubles D} {channelInstruction : Opcode → ℕ → Exec Unit} {this : ℕ}
  {w w' u v w₀ : World} {levels base pre : List ℕ} {es es' : ℕ → List (ListMap.Located ℕ)}
  {a f p : ℕ} {name : CString}

/-! ### The files -/

/-- The bytes under the component's own name. -/
def World.ownFile (w : World) (this : ℕ) : Option (List UInt8) :=
  w.disk (getFilePath w.directory (getSourceFile (w.component this).name))

/-- Open files keep their bytes, and the component has the same file of its own. -/
structure Kept (this : ℕ) (w w' : World) : Prop where
  component : this < w'.components
  handles : w.handles ≤ w'.handles
  contents : ∀ handle < w.handles, (w'.file handle).contents = (w.file handle).contents
  ownFile : w'.ownFile this = w.ownFile this

def KeepsFiles (this : ℕ) (w w' : World) : Prop := this < w.components → Kept this w w'

instance : IsPreorder World (KeepsFiles this) where
  refl _ h := ⟨h, Nat.le_refl _, fun _ _ => rfl, rfl⟩
  trans _ _ _ h h' hw := by
    have hk := h hw
    have hk' := h' hk.component
    refine ⟨hk'.component, hk.handles.trans hk'.handles, fun handle hlt => ?_, ?_⟩
    · rw [hk'.contents handle (Nat.lt_of_lt_of_le hlt hk.handles), hk.contents handle hlt]
    · rw [hk'.ownFile, hk.ownFile]

theorem keepsFiles_setComponent {owner : ℕ} {c : Component} (hc : Steady (w.component owner) c) :
    KeepsFiles this w (w.setComponent owner c) := by
  intro hw
  refine ⟨hw, Nat.le_refl _, fun _ _ => rfl, ?_⟩
  by_cases h : this = owner
  · subst h
    unfold World.ownFile
    rw [World.setComponent_component, hc.name]
    rfl
  · have hsame : (w.setComponent owner c).component this = w.component this :=
      Function.update_of_ne h ..
    unfold World.ownFile
    rw [hsame]
    rfl

/-- No handler writes to a file, or renames a component. -/
theorem wideFootprint_keepsFiles : WideFootprint this (KeepsFiles this) where
  source w f hf hw := by
    refine ⟨hw, Nat.le_refl _, fun handle _ => ?_, rfl⟩
    show (Function.update w.file _ f handle).contents = _
    by_cases h : handle = (w.component this).sourceFile
    · rw [h, Function.update_self]
      exact hf
    · rw [Function.update_of_ne h]
  component _ _ _ hc := keepsFiles_setComponent hc.toSteady
  lookUp _ := respects_onScopes fun _ _ hc => keepsFiles_setComponent hc
  alloc _ _ _ hw := ⟨hw, Nat.le_refl _, fun _ _ => rfl, rfl⟩
  write _ _ _ _ _ _ _ hw := ⟨hw, Nat.le_refl _, fun _ _ => rfl, rfl⟩
  opened _ _ hw := by
    refine ⟨hw, Nat.le_succ _, fun handle hlt => ?_, rfl⟩
    exact congrArg File.contents (Function.update_of_ne (Nat.ne_of_lt hlt) ..)
  created w c _ hw := by
    have hsame : (w.setComponent w.components c).component this = w.component this :=
      Function.update_of_ne (Nat.ne_of_lt hw) ..
    refine ⟨Nat.lt_succ_of_lt hw, Nat.le_refl _, fun _ _ => rfl, ?_⟩
    show w.disk (getFilePath w.directory
      (getSourceFile ((w.setComponent w.components c).component this).name)) = _
    rw [hsame]
    rfl
  started _ _ hw := ⟨hw, Nat.le_refl _, fun _ _ => rfl, rfl⟩
  functions _ _ hw := ⟨hw, Nat.le_refl _, fun _ _ => rfl, rfl⟩
  self _ _ hc := keepsFiles_setComponent hc
  allocFile _ _ hw := ⟨hw, Nat.le_refl _, fun _ _ => rfl, rfl⟩

theorem footprint_keepsFiles : ScopeFootprint this (KeepsFiles this) :=
  wideFootprint_keepsFiles.scopeFootprint

/-! ### The bodies of procedures -/

/-- No search of the level finds what a call binds. -/
def Unbound (es : ℕ → List (ListMap.Located ℕ)) (b : ℕ) : Prop :=
  ∀ name, Reserved name → ScopeStack.Passes es name b

theorem ScopeStack.SameFor.unbound (h : ScopeStack.SameFor Reserved levels es es') (ha : a ∈ levels)
    (hunbound : Unbound es a) : Unbound es' a :=
  fun name hname => h.passes hname ha (hunbound name hname)

/-- What a body leaves: the scopes `base` with what calls have bound in them, the cells, and the file
it is in. The scopes above bind no name of a call. -/
structure Leaves (this : ℕ) (base : List ℕ) (w w' : World) : Prop where
  settled : Settled this w'
  kept : Kept this w w'
  cells : ∀ q c, w.cell q = some c → c.Fixed → w'.cell q = some c
  contents : (w'.source this).contents = (w.source this).contents
  scopes : ∀ pre es, ScopesAre (w.component this).scopeStack (pre ++ base) es →
    (∀ b ∈ pre, Unbound es b) →
    ∃ pre' es', ScopesAre (w'.component this).scopeStack (pre' ++ base) es' ∧
      (∀ b ∈ pre', Unbound es' b) ∧ ScopeStack.SameFor Reserved base es es'

/-- A part of a run inside the body of a procedure whose call entered the scopes `base`. -/
def Within (this : ℕ) (base : List ℕ) (w w' : World) : Prop := Settled this w → Leaves this base w w'

theorem Undisturbed.within (h : Undisturbed this Reserved w w') (hfiles : KeepsFiles this w w') :
    Within this base w w' := by
  intro hw
  obtain ⟨hw', hsame⟩ := h hw
  refine ⟨hw', hfiles hw.component, hsame.cells, hsame.contents, fun pre es hs hunbound => ?_⟩
  obtain ⟨es', hs', hfor⟩ := hsame.scopes _ es hs
  refine ⟨pre, es', hs', fun b hb => ?_, hfor.mono fun b hb => List.mem_append_right _ hb⟩
  exact hfor.unbound (List.mem_append_left _ hb) (hunbound b hb)

instance : IsPreorder World (Within this base) where
  refl w := Undisturbed.within (refl_of (Undisturbed this Reserved) w) (refl_of (KeepsFiles this) w)
  trans _ _ _ h h' hw := by
    have hl := h hw
    have hl' := h' hl.settled
    refine ⟨hl'.settled, trans_of (KeepsFiles this) (fun _ => hl.kept) (fun _ => hl'.kept)
      hw.component, fun q c hc hfixed => ?_, hl'.contents.trans hl.contents,
      fun pre es hs hunbound => ?_⟩
    · exact hl'.cells q c (hl.cells q c hc hfixed) hfixed
    · obtain ⟨pre₁, es₁, hs₁, hunbound₁, hsame₁⟩ := hl.scopes pre es hs hunbound
      obtain ⟨pre₂, es₂, hs₂, hunbound₂, hsame₂⟩ := hl'.scopes pre₁ es₁ hs₁ hunbound₁
      exact ⟨pre₂, es₂, hs₂, hunbound₂, hsame₁.trans hsame₂⟩

/-- Most instructions change no scope. -/
theorem within_plain {op : Opcode} (hop : u.opcodeAt this = some op) (hplain : op.Plain)
    (hrun : Runs doubles channelInstruction this 1 u w) : Within this base u w := by
  have hnot : ¬ op.Apart := by
    intro hapart
    cases op <;> first | exact hapart | exact hplain
  have hsame : Undisturbed this Reserved u w := trans_of (Undisturbed this Reserved)
    undisturbed_opcode (footprint_undisturbed.plain hplain _ _ _ (hrun.handler hop))
  exact hsame.within (footprint_keepsFiles.round hop hnot hrun)

theorem within_enterScope (hop : u.opcodeAt this = some .enterScope)
    (hrun : Runs doubles channelInstruction this 1 u w) : Within this base u w := by
  have hfiles : KeepsFiles this u w := footprint_keepsFiles.round hop id hrun
  have hopcode : Undisturbed this Reserved u _ := undisturbed_opcode
  have henter : Returns (Component.enterScope this) _ () w := hrun.handler hop
  intro hu
  obtain ⟨hv, hsame⟩ := hopcode hu
  obtain rfl := returns_enterScope.1 henter
  refine ⟨hv.setComponent (hv.sourceFile this), hfiles hu.component, hsame.cells, ?_, ?_⟩
  · rw [World.source_setComponent (by rfl)]
    exact hsame.contents
  · intro pre es hs hunbound
    obtain ⟨a, es', hs', hempty, heq⟩ := scopesAre_enterScope hs
    refine ⟨a :: pre, es', ?_, fun b hb => ?_, .of_eq fun b hb => ?_⟩
    · rw [World.setComponent_component]
      exact hs'
    · intro name hname e he
      rcases List.mem_cons.1 hb with rfl | hb
      · rw [hempty] at he
        cases he
      · rw [heq b (List.mem_append_left _ hb)] at he
        exact hunbound b hb name hname e he
    · exact heq b (List.mem_append_right _ hb)

/-- A body leaves the scopes that it has entered. -/
theorem within_exitScope {ls : List ℕ} (hop : u.opcodeAt this = some .exitScope)
    (hs : ScopesAre (u.component this).scopeStack (a :: ls) es) (hown : base.length ≤ ls.length)
    (hrun : Runs doubles channelInstruction this 1 u w) : Within this base u w := by
  have hfiles : KeepsFiles this u w := footprint_keepsFiles.round hop id hrun
  have hopcode : Undisturbed this Reserved u _ := undisturbed_opcode
  have hexit : Returns (Component.exitScope this) _ () w := hrun.handler hop
  intro hu
  obtain ⟨hv, hsame⟩ := hopcode hu
  obtain ⟨s, rfl, -⟩ := ScopesAre.exits (w := u.setSource this _) hs hexit
  refine ⟨hv.setComponent (hv.sourceFile this), hfiles hu.component, hsame.cells, ?_, ?_⟩
  · rw [World.setScopes_source]
    exact hsame.contents
  · intro pre es' hs' hunbound
    have heq := hs.unique hs'
    cases pre with
    | nil =>
      have hlength := congrArg List.length heq
      simp only [List.length_cons, List.nil_append] at hlength
      omega
    | cons b pre =>
      obtain ⟨t, ht, hholds⟩ := ScopesAre.exits (w := u.setSource this _) hs' hexit
      refine ⟨pre, es', ?_, fun c hc => hunbound c (List.mem_cons_of_mem _ hc), .refl⟩
      rw [ht, World.setScopes_scopeStack]
      exact hholds

/-! ### A call of a procedure of the main component -/

/-- The component is in front of the call of a procedure that only the main component declared. -/
structure MainCall (this : ℕ) (u : World) (name : Name) (r : List UInt8) : Prop where
  instruction : (u.source this).rest = (Instruction.procCall name).encode ++ r
  notOwn : ∀ procs, (u.component this).procs = some procs →
    ∃ procs', procs.get (literal name.bytes) = some (none, procs')
  found : ∃ procs procs' proc, (u.component u.mainComponent).procs = some procs ∧
    procs.get (literal name.bytes) = some (some proc, procs') ∧ proc.Unreserved

/-- The round of such a call comes to `callGlobal`. -/
theorem MainCall.enters {name : Name} {r : List UInt8} (h : MainCall this w name r)
    (hrun : Runs doubles channelInstruction this 1 w w') :
    ∃ proc v, proc.Unreserved ∧ Reached this w v (Instruction.procCall name).encode.length ∧
      Returns (Component.callGlobal this proc) v () w' := by
  obtain ⟨procs, procs', proc, hprocs, hget, hproc⟩ := h.found
  obtain ⟨found, u, hfind, hrest⟩ := returns_bind.1 (hrun.procCall h.instruction)
  have hread : Reached this w u (Instruction.procCall name).encode.length :=
    (reached_setSource _).findProc hfind
  obtain ⟨rfl, hsame⟩ : found = none ∧ (u.component u.mainComponent).procs = some procs := by
    rcases returns_findProc hfind with ⟨-, rfl, rfl⟩ | ⟨procs₁, procs₂, hprocs₁, hget₁, rfl⟩
    · exact ⟨rfl, hprocs⟩
    · obtain ⟨procs₃, hnone⟩ := h.notOwn procs₁ hprocs₁
      rw [hnone] at hget₁
      obtain ⟨rfl, rfl⟩ := Prod.mk.inj (Option.some.inj hget₁)
      refine ⟨rfl, ?_⟩
      have hne : w.mainComponent ≠ this := by
        rintro rfl
        have hprocs₁ : (w.component w.mainComponent).procs = some procs₁ := hprocs₁
        rw [hprocs] at hprocs₁
        obtain rfl := Option.some.inj hprocs₁
        rw [hget] at hnone
        cases hnone
      exact (congrArg Component.procs (Function.update_of_ne hne ..)).trans hprocs
  simp only [returns_get_bind] at hrest
  obtain ⟨found, v, hfind', hcall⟩ := returns_bind.1 hrest
  obtain rfl : found = some proc := by
    rcases returns_findProc hfind' with ⟨hnone, -, -⟩ | ⟨procs₁, procs₂, hprocs₁, hget₁, -⟩
    · rw [hsame] at hnone
      cases hnone
    · rw [hsame] at hprocs₁
      obtain rfl := Option.some.inj hprocs₁
      rw [hget] at hget₁
      exact (Prod.mk.inj (Option.some.inj hget₁)).1.symm
  exact ⟨proc, v, hproc, hread.findProc hfind', hcall⟩

/-- The file to return to is opened, if it is there, and put on the heap. -/
theorem source_opened {path : CString} {opened : Option ℕ} {address : ℕ}
    (hopen : Returns (fopen path) w opened u) (halloc : Returns (alloc (.file opened)) u address v) :
    Undisturbed this Reserved w v ∧ v.component = w.component ∧
      v.cell address = some (.file opened) ∧
      ∀ handle, opened = some handle →
        handle < v.handles ∧ some (v.file handle).contents = w.disk path := by
  have hfile : ∀ handle, Cell.file opened = .file (some handle) → handle < u.handles := by
    intro handle heq
    cases heq
    exact fopen_lt hopen
  have hopened : Undisturbed this Reserved w u := footprint_undisturbed.fopen _ _ _ hopen
  refine ⟨trans_of (Undisturbed this Reserved) hopened (undisturbed_of_alloc hfile halloc), ?_⟩
  obtain ⟨rfl, rfl⟩ := halloc.unique returns_alloc
  unfold fopen at hopen
  rw [returns_get_bind] at hopen
  split at hopen
  · obtain ⟨rfl, rfl⟩ := returns_pure.1 hopen
    exact ⟨rfl, Function.update_self .., fun handle h => by cases h⟩
  · rename_i contents hdisk
    cases hopen
    refine ⟨rfl, Function.update_self .., fun handle h => ?_⟩
    obtain rfl := Option.some.inj h
    refine ⟨Nat.lt_succ_self _, ?_⟩
    rw [hdisk]
    show some (Function.update w.file w.handles ⟨contents, 0⟩ w.handles).contents = some contents
    rw [Function.update_self]

/-- The position and the file are bound in a new scope. -/
theorem return_bound {q : ℕ} (hw : Settled this w)
    (hs : ScopesAre (w.component this).scopeStack (f :: levels) es) (hempty : es f = [])
    (haddress : Returns (Component.bindVariable this returnAddress (some p)) w () u)
    (hsource : Returns (Component.bindVariable this returnSource (some q)) u () v) :
    Settled this v ∧ v.cell = w.cell ∧
      ∃ es', ScopesAre (v.component this).scopeStack (f :: levels) es' ∧
        ScopeStack.Binds es' returnAddress f p ∧ ScopeStack.Binds es' returnSource f q ∧
        ∀ b ∈ levels, es' b = es b := by
  have hnew : ∀ e ∈ es f, e.2.key ≠ returnAddress := by
    rw [hempty]
    simp
  obtain ⟨s, es₁, rfl, hholds, hbinds, hsame, hother⟩ := hs.binds hnew haddress
  have hs₁ : ScopesAre ((w.setScopes this s).component this).scopeStack (f :: levels) es₁ := by
    rw [World.setScopes_scopeStack]
    exact hholds
  have hnew₁ : ∀ e ∈ es₁ f, e.2.key ≠ returnSource := by
    intro e he hkey
    have hne : e.2.key ≠ returnAddress := by
      rw [hkey]
      decide
    have hmem := (hsame f List.mem_cons_self e hne).1 he
    rw [hempty] at hmem
    cases hmem
  obtain ⟨t, es₂, rfl, hholds₂, hbinds₂, hsame₂, hother₂⟩ := hs₁.binds hnew₁ hsource
  have hsettled : Settled this (w.setScopes this s) := hw.setComponent (hw.sourceFile this)
  refine ⟨hsettled.setComponent (hsettled.sourceFile this), rfl, es₂, ?_,
    hsame₂.binds (by decide) List.mem_cons_self hbinds, hbinds₂, fun b hb => ?_⟩
  · rw [World.setScopes_scopeStack]
    exact hholds₂
  · have hne : b ≠ f := by
      rintro rfl
      exact (List.nodup_cons.1 hholds.distinct).1 hb
    rw [hother₂ b hne, hother b hne]

/-- A call enters a scope and binds in it the position behind the call and the component's own
file; what was there stays. -/
theorem returns_callGlobal {proc : Procedure} (hproc : proc.Unreserved) (hw : Settled this w)
    (hs : ScopesAre (w.component this).scopeStack levels es)
    (hrun : Returns (Component.callGlobal this proc) w () w') :
    Settled this w' ∧ (∀ q c, w.cell q = some c → c.Fixed → w'.cell q = some c) ∧
      ∃ f p q handle es', ScopesAre (w'.component this).scopeStack (f :: levels) es' ∧
        ScopeStack.Binds es' returnAddress f p ∧ w'.cell p = some (.long (w.source this).pos) ∧
        ScopeStack.Binds es' returnSource f q ∧ w'.cell q = some (.file handle) ∧
        (∀ h, handle = some h → h < w'.handles ∧ some (w'.file h).contents = w.ownFile this) ∧
        ScopeStack.SameFor Reserved levels es es' := by
  unfold Component.callGlobal at hrun
  obtain ⟨_, u₁, henter, hrun₁⟩ := returns_bind.1 hrun
  obtain ⟨fPos, u₂, hftell, hrun₂⟩ := returns_bind.1 hrun₁
  obtain ⟨address, u₃, halloc, hrun₃⟩ := returns_bind.1 hrun₂
  rw [returns_self.bind_iff, returns_get_bind] at hrun₃
  obtain ⟨opened, u₄, hopen, hrun₄⟩ := returns_bind.1 hrun₃
  obtain ⟨fLoc, u₅, hfile, hrun₅⟩ := returns_bind.1 hrun₄
  obtain ⟨_, u₆, haddress, hrun₆⟩ := returns_bind.1 hrun₅
  obtain ⟨_, u₇, hsource, hrun₇⟩ := returns_bind.1 hrun₆
  have hfoot : ScopeFootprint this (KeepsFiles this) := footprint_keepsFiles
  -- up to the opened file
  obtain ⟨hu₁, hcell₁, hsource₁, f, es₁, hs₁, hempty, hsame₁⟩ := enterScope_enters hw hs henter
  obtain ⟨hsaved, hcomponent₃, hposition⟩ := position_saved hftell halloc
  obtain ⟨hu₃, hkept₃⟩ := hsaved hu₁
  obtain ⟨hopened, hcomponent₅, hfile₅, hown⟩ := source_opened hopen hfile
  obtain ⟨hu₅, hkept₅⟩ := hopened hu₃
  have hownFile : u₃.ownFile this = w.ownFile this := by
    have hfiles : KeepsFiles this w u₃ := trans_of (KeepsFiles this)
      (hfoot.enterScope _ _ _ henter)
      (trans_of (KeepsFiles this) (hfoot.ftell _ _ _ hftell) (hfoot.allocate (by simp) _ _ _ halloc))
    exact (hfiles hw.component).ownFile
  -- the names of the call, and those of the parameters
  have hs₅ : ScopesAre (u₅.component this).scopeStack (f :: levels) es₁ := by
    rw [hcomponent₅, hcomponent₃]
    exact hs₁
  obtain ⟨hu₇, hcell₇, es₂, hs₇, hbinds, hbinds', hsame₂⟩ :=
    return_bound hu₅ hs₅ hempty haddress hsource
  have harguments : ∃ x parameters, Returns
      (Component.bindArguments this proc.parameterNames parameters 0) u₇ () x ∧
      Returns (do
        let main ← self u₃.mainComponent
        modifySelf this ({ · with sourceFile := main.sourceFile })
        onSource this (seekSet proc.position)) x () w' := by
    obtain ⟨parameters, x, hparameters, hrun₈⟩ := returns_bind.1 hrun₇
    obtain ⟨-, rfl⟩ := returns_follow.1 hparameters
    obtain ⟨_, y, hbind, hrun₉⟩ := returns_bind.1 hrun₈
    exact ⟨y, parameters, hbind, hrun₉⟩
  obtain ⟨x, parameters, hbind, hlast⟩ := harguments
  obtain ⟨hx, hkept⟩ := undisturbed_bindArguments hproc _ _ _ _ _ hbind hu₇
  obtain ⟨es₃, hs₃, hsame₃⟩ := hkept.scopes _ es₂ hs₇
  -- the file of the main component
  rw [returns_self.bind_iff, returns_modifySelf.bind_iff] at hlast
  have hmain : Settled this (x.setComponent this
      { x.component this with sourceFile := (x.component u₃.mainComponent).sourceFile }) :=
    hx.setComponent (hx.sourceFile _)
  have hseek : Undisturbed this Reserved _ w' := footprint_undisturbed.seekSet _ _ _ hlast
  obtain ⟨hw', hkept'⟩ := hseek hmain
  obtain ⟨es₄, hs₄, hsame₄⟩ := hkept'.scopes (f :: levels) es₃ (by
    rw [World.setComponent_component]
    exact hs₃)
  have hsame : ScopeStack.SameFor Reserved (f :: levels) es₂ es₄ := hsame₃.trans hsame₄
  have hcells : ∀ q c, u₅.cell q = some c → c.Fixed → w'.cell q = some c := by
    intro q c hc hfixed
    rw [← hcell₇] at hc
    exact hkept'.cells q c (hkept.cells q c hc hfixed) hfixed
  have hfiles : KeepsFiles this u₅ w' := by
    have hbound : Respects (KeepsFiles this) (do
        Component.bindVariable this returnAddress (some address)
        Component.bindVariable this returnSource (some fLoc)
        let parameters ← follow proc.parameterNames.getListLength
        Component.bindArguments this proc.parameterNames parameters 0
        let main ← self u₃.mainComponent
        modifySelf this ({ · with sourceFile := main.sourceFile })
        onSource this (seekSet proc.position)) := by
      refine hfoot.bindVariable.bind fun _ => hfoot.bindVariable.bind fun _ => ?_
      refine keeps_follow.respects.bind fun _ => (hfoot.bindArguments _ _ _).bind fun _ => ?_
      refine keeps_self.respects.bind fun main => ?_
      refine Respects.bind ?_ fun _ => hfoot.seekSet
      exact hfoot.modifyOwn (fun _ => ⟨rfl, rfl, rfl⟩) fun _ => rfl
    exact hbound _ _ _ hrun₅
  refine ⟨hw', fun q c hc hfixed => ?_, f, address, fLoc, opened, es₄, hs₄,
    hsame.binds (.inl rfl) List.mem_cons_self hbinds, ?_,
    hsame.binds (.inr rfl) List.mem_cons_self hbinds', hcells _ _ hfile₅ trivial, ?_, ?_⟩
  · rw [← hcell₁] at hc
    exact hcells q c (hkept₅.cells q c (hkept₃.cells q c hc hfixed) hfixed) hfixed
  · rw [hsource₁] at hposition
    exact hcells _ _ (hkept₅.cells _ _ hposition trivial) trivial
  · intro h hh
    obtain ⟨hlt, hcontents⟩ := hown h hh
    have hk := hfiles hu₅.component
    refine ⟨Nat.lt_of_lt_of_le hlt hk.handles, ?_⟩
    rw [hk.contents h hlt, hcontents, ← hownFile]
    rfl
  · have heq : ∀ b ∈ levels, es₂ b = es b := fun b hb => by rw [hsame₂ b hb, hsame₁ b hb]
    exact (ScopeStack.SameFor.of_eq heq).trans
      (hsame.mono fun b hb => List.mem_cons_of_mem f hb)

/-! ### Runs with open calls of both kinds -/

/-- A call that is open: the scopes with the one that it entered, and the source behind it. -/
structure ChainFrame where
  ofMain : Bool
  levels : List ℕ
  file : File

/-- A return from the call of `frame`, with the calls that stay open around it. -/
structure ChainReturn where
  frame : ChainFrame
  outer : List ChainFrame
  before : World
  after : World

/-- The scopes that the body of the innermost call is not to touch. -/
def floor : List ChainFrame → List ℕ
  | [] => []
  | frame :: _ => frame.levels

/-- The component runs from `w₀` to `w`: the calls that are open in `w`, the innermost first, and the
returns that were made, the last first. -/
inductive ChainRun (doubles : Doubles D) (channelInstruction : Opcode → ℕ → Exec Unit) (this : ℕ)
    (w₀ : World) : List ChainFrame → List ChainReturn → World → Prop
  | start : ChainRun doubles channelInstruction this w₀ [] [] w₀
  | body {frames : List ChainFrame} {returns : List ChainReturn} {u w : World} {n : ℕ}
      (before : ChainRun doubles channelInstruction this w₀ frames returns u)
      (run : Runs doubles channelInstruction this n u w) (within : Within this (floor frames) u w) :
      ChainRun doubles channelInstruction this w₀ frames returns w
  | callOwn {frames : List ChainFrame} {returns : List ChainReturn} {u w : World} {name : Name}
      {r : List UInt8} {ls : List ℕ} {es : ℕ → List (ListMap.Located ℕ)}
      (before : ChainRun doubles channelInstruction this w₀ frames returns u)
      (calls : LocalCall this u name r) (run : Runs doubles channelInstruction this 1 u w)
      (levels : ScopesAre (w.component this).scopeStack ls es) :
      ChainRun doubles channelInstruction this w₀ (⟨false, ls,
        (u.source this).advance (Instruction.procCall name).encode.length⟩ :: frames) returns w
  | callMain {frames : List ChainFrame} {returns : List ChainReturn} {u w : World} {name : Name}
      {r : List UInt8} {ls : List ℕ} {es : ℕ → List (ListMap.Located ℕ)}
      (before : ChainRun doubles channelInstruction this w₀ frames returns u)
      (calls : MainCall this u name r) (run : Runs doubles channelInstruction this 1 u w)
      (levels : ScopesAre (w.component this).scopeStack ls es) :
      ChainRun doubles channelInstruction this w₀ (⟨true, ls,
        (u.source this).advance (Instruction.procCall name).encode.length⟩ :: frames) returns w
  | ret {frame : ChainFrame} {frames : List ChainFrame} {returns : List ChainReturn} {u v w : World}
      (before : ChainRun doubles channelInstruction this w₀ (frame :: frames) returns u)
      (enters : EntersReturn this u v) (run : Runs doubles channelInstruction this 1 u w) :
      ChainRun doubles channelInstruction this w₀ frames (⟨frame, frames, v, w⟩ :: returns) w

/-- The return goes on in the file of the call, at the byte behind it. -/
def Resumes (this : ℕ) (r : ChainReturn) : Prop := r.after.source this = r.frame.file

/-- When the return begins, no scope of the body is open. -/
def Closed (this : ℕ) (r : ChainReturn) : Prop :=
  ∃ es, ScopesAre (r.before.component this).scopeStack r.frame.levels es

/-- When a procedure of the main component is open, the call that the return is from stood in the
component's own file. -/
def Homeward (this : ℕ) (r : ChainReturn) : Prop :=
  (∃ g ∈ r.frame :: r.outer, g.ofMain = true) → some r.frame.file.contents = r.before.ownFile this

/-! ### What the scopes of the open calls hold -/

/-- The scopes of the open calls lie in the levels, each with what its return needs; `here` are the
bytes of the file that the innermost body is in. -/
inductive Chain (this : ℕ) (w : World) (es : ℕ → List (ListMap.Located ℕ)) :
    List UInt8 → List ChainFrame → List ℕ → Prop
  | nil {here : List UInt8} {levels : List ℕ} (unbound : ∀ b ∈ levels, Unbound es b) :
      Chain this w es here [] levels
  | own {here : List UInt8} {frames : List ChainFrame} {pre ls : List ℕ} {f p : ℕ} {file : File}
      (unbound : ∀ b ∈ pre, Unbound es b) (address : ScopeStack.Binds es returnAddress f p)
      (position : w.cell p = some (.long file.pos))
      (passes : ScopeStack.Passes es returnSource f) (stays : file.contents = here)
      (outer : Chain this w es file.contents frames ls) :
      Chain this w es here (⟨false, f :: ls, file⟩ :: frames) (pre ++ f :: ls)
  | main {here : List UInt8} {frames : List ChainFrame} {pre ls : List ℕ} {f p q : ℕ} {file : File}
      {handle : Option ℕ} (unbound : ∀ b ∈ pre, Unbound es b)
      (address : ScopeStack.Binds es returnAddress f p)
      (position : w.cell p = some (.long file.pos))
      (source : ScopeStack.Binds es returnSource f q) (opened : w.cell q = some (.file handle))
      (own : ∀ h, handle = some h → h < w.handles ∧ some (w.file h).contents = w.ownFile this)
      (outer : Chain this w es file.contents frames ls) :
      Chain this w es here (⟨true, f :: ls, file⟩ :: frames) (pre ++ f :: ls)

variable {frame : ChainFrame} {frames : List ChainFrame} {returns : List ChainReturn}
  {here : List UInt8}

theorem Chain.keep (h : Chain this w es here frames levels)
    (hsame : ScopeStack.SameFor Reserved levels es es')
    (hcells : ∀ q c, w.cell q = some c → c.Fixed → w'.cell q = some c) (hkept : Kept this w w') :
    Chain this w' es' here frames levels := by
  induction h with
  | nil unbound => exact .nil fun b hb => hsame.unbound hb (unbound b hb)
  | own unbound address position passes stays _ ih =>
    refine .own (fun b hb => ?_) (hsame.binds (.inl rfl) (by simp) address)
      (hcells _ _ position trivial) (hsame.passes (.inr rfl) (by simp) passes) stays (ih ?_)
    · exact hsame.unbound (List.mem_append_left _ hb) (unbound b hb)
    · exact hsame.mono fun b hb => List.mem_append_right _ (List.mem_cons_of_mem _ hb)
  | main unbound address position source opened own _ ih =>
    refine .main (fun b hb => ?_) (hsame.binds (.inl rfl) (by simp) address)
      (hcells _ _ position trivial) (hsame.binds (.inr rfl) (by simp) source)
      (hcells _ _ opened trivial) (fun h hh => ?_) (ih ?_)
    · exact hsame.unbound (List.mem_append_left _ hb) (unbound b hb)
    · obtain ⟨hlt, hcontents⟩ := own h hh
      refine ⟨Nat.lt_of_lt_of_le hlt hkept.handles, ?_⟩
      rw [hkept.contents h hlt, hcontents, hkept.ownFile]
    · exact hsame.mono fun b hb => List.mem_append_right _ (List.mem_cons_of_mem _ hb)

/-- The scopes of the innermost body can be others, if they bind no name of a call. -/
theorem Chain.split (h : Chain this w es here frames levels) :
    ∃ pre, levels = pre ++ floor frames ∧ (∀ b ∈ pre, Unbound es b) ∧
      ∀ pre', (∀ b ∈ pre', Unbound es b) → Chain this w es here frames (pre' ++ floor frames) := by
  cases h with
  | nil unbound =>
    refine ⟨levels, (List.append_nil _).symm, unbound, fun pre' h => ?_⟩
    rw [floor, List.append_nil]
    exact .nil h
  | own unbound address position passes stays outer =>
    exact ⟨_, rfl, unbound, fun pre' h => .own h address position passes stays outer⟩
  | main unbound address position source opened own outer =>
    exact ⟨_, rfl, unbound, fun pre' h => .main h address position source opened own outer⟩

/-- What the return from the innermost call finds of it. -/
theorem Chain.head (h : Chain this w es here (frame :: frames) levels) :
    ∃ pre f ls p, frame.levels = f :: ls ∧ levels = pre ++ f :: ls ∧
      (∀ b ∈ pre, Unbound es b) ∧ ScopeStack.Binds es returnAddress f p ∧
      w.cell p = some (.long frame.file.pos) ∧ Chain this w es frame.file.contents frames ls ∧
      (frame.ofMain = false → frame.file.contents = here) := by
  cases h with
  | own unbound address position _ stays outer =>
    exact ⟨_, _, _, _, rfl, rfl, unbound, address, position, outer, fun _ => stays⟩
  | main unbound address position _ _ _ outer =>
    exact ⟨_, _, _, _, rfl, rfl, unbound, address, position, outer, fun h => by cases h⟩

/-- The innermost call of a procedure of the main component is the one that answers. -/
theorem Chain.answers {x : Option ℕ} (h : Chain this w es here frames levels)
    (hans : ScopeStack.Answers es returnSource levels x) :
    (x = none ∧ ∀ g ∈ frames, g.ofMain = false) ∨
      (∃ g ∈ frames, g.ofMain = true) ∧ ∃ q handle, x = some q ∧ w.cell q = some (.file handle) ∧
        ∀ h, handle = some h → some (w.file h).contents = w.ownFile this := by
  induction h with
  | nil unbound =>
    exact .inl ⟨hans.of_passes fun b hb => unbound b hb _ (.inr rfl), by simp⟩
  | @own here frames pre ls f p file unbound address position passes stays _ ih =>
    rw [List.append_cons] at hans
    have hpasses : ∀ b ∈ pre ++ [f], ScopeStack.Passes es returnSource b := by
      intro b hb
      rcases List.mem_append.1 hb with hb | hb
      · exact unbound b hb _ (.inr rfl)
      · obtain rfl := List.mem_singleton.1 hb
        exact passes
    rcases ih (hans.past hpasses) with ⟨rfl, hall⟩ | ⟨⟨g, hg, hmain⟩, hfile⟩
    · refine .inl ⟨rfl, fun g hg => ?_⟩
      rcases List.mem_cons.1 hg with rfl | hg
      · rfl
      · exact hall g hg
    · exact .inr ⟨⟨g, List.mem_cons_of_mem _ hg, hmain⟩, hfile⟩
  | main unbound address position source opened own _ _ =>
    have hx := hans.of_binds (fun b hb => unbound b hb _ (.inr rfl)) source
    exact .inr ⟨⟨_, List.mem_cons_self, rfl⟩, _, _, hx, opened, fun h hh => (own h hh).2⟩

/-- The file that a return reads on is the one the component is in, or the one that it finds. -/
theorem returnFile_cases {g : File} (hs : ScopesAre (w.component this).scopeStack levels es)
    (hfile : w.returnFile this = some g) :
    ∃ x, ScopeStack.Answers es returnSource levels x ∧ ((x = none ∧ g = w.source this) ∨
      ∃ q handle, x = some q ∧ w.cell q = some (.file (some handle)) ∧ g = w.file handle) := by
  unfold World.returnFile at hfile
  cases hscope : (w.component this).scopeStack with
  | none =>
    rw [hscope] at hfile
    cases hfile
  | some s =>
    rw [hscope] at hs
    obtain ⟨x₁, s₁, hload₁, hsame₁, -⟩ := ScopeStack.Holds.load hs returnAddress
    obtain ⟨x, s₂, hload₂, -, hans⟩ := hsame₁.holds.load returnSource
    simp only [hscope, Option.bind_eq_bind, Option.bind_some, hload₁, hload₂] at hfile
    refine ⟨x, hans, ?_⟩
    cases x with
    | none => exact .inl ⟨rfl, (Option.some.inj hfile).symm⟩
    | some q =>
      simp only at hfile
      split at hfile
      · rename_i handle hq
        exact .inr ⟨q, handle, rfl, hq, (Option.some.inj hfile).symm⟩
      · cases hfile

/-- What holds in a run whose returns have all resumed. -/
structure ChainOpen (this : ℕ) (frames : List ChainFrame) (w : World) : Prop where
  settled : Settled this w
  scopes : ∃ levels es, ScopesAre (w.component this).scopeStack levels es ∧
    Chain this w es (w.source this).contents frames levels

theorem ChainOpen.body (h : ChainOpen this frames w) (hwithin : Within this (floor frames) w w') :
    ChainOpen this frames w' := by
  obtain ⟨levels, es, hs, hchain⟩ := h.scopes
  have hleaves := hwithin h.settled
  obtain ⟨pre, rfl, hunbound, hany⟩ := hchain.split
  obtain ⟨pre', es', hs', hunbound', hsame⟩ := hleaves.scopes pre es hs hunbound
  have hbase : Chain this w' es' (w.source this).contents frames (floor frames) :=
    (hany [] (by simp)).keep hsame hleaves.cells hleaves.kept
  obtain ⟨pre₀, heq, -, hany'⟩ := hbase.split
  refine ⟨hleaves.settled, _, es', hs', ?_⟩
  rw [hleaves.contents]
  exact hany' pre' hunbound'

/-- The round of a local call opens it. -/
theorem ChainOpen.callOwn {name : Name} {r : List UInt8} (h : ChainOpen this frames w)
    (hcall : LocalCall this w name r) (hrun : Runs doubles channelInstruction this 1 w w') :
    ∃ ls es, ScopesAre (w'.component this).scopeStack ls es ∧ ChainOpen this (⟨false, ls,
      (w.source this).advance (Instruction.procCall name).encode.length⟩ :: frames) w' := by
  obtain ⟨levels, es, hs, hchain⟩ := h.scopes
  obtain ⟨proc, u, hproc, hreached, hcallOwn⟩ := hcall.enters hrun
  obtain ⟨hu, hsame⟩ := hreached.undisturbed h.settled
  have hs₁ : ScopesAre (u.component this).scopeStack levels es := by
    rw [hreached.scopeStack]
    exact hs
  obtain ⟨hw', hcells, hcontents, f, p, es', hs', hbinds, hpasses, hposition, hsame'⟩ :=
    returns_callOwn hproc hu hs₁ hcallOwn
  have hfiles : KeepsFiles this w w' :=
    footprint_keepsFiles.round (opcodeAt_of_rest hcall.instruction) id hrun
  refine ⟨f :: levels, es', hs', hw', f :: levels, es', hs', ?_⟩
  have hstays : (w.source this).contents = (w'.source this).contents := by
    rw [hcontents, hreached.source]
    rfl
  have houter : Chain this w' es' (w.source this).contents frames levels := by
    refine hchain.keep hsame' (fun q c hc hfixed => ?_) (hfiles h.settled.component)
    exact hcells q c (hsame.cells q c hc hfixed) hfixed
  rw [hreached.source] at hposition
  have hnone : ∀ b ∈ ([] : List ℕ), Unbound es' b := by simp
  exact Chain.own hnone hbinds hposition hpasses hstays houter

/-- The round of a call of a procedure of the main component opens it. -/
theorem ChainOpen.callMain {name : Name} {r : List UInt8} (h : ChainOpen this frames w)
    (hcall : MainCall this w name r) (hrun : Runs doubles channelInstruction this 1 w w') :
    ∃ ls es, ScopesAre (w'.component this).scopeStack ls es ∧ ChainOpen this (⟨true, ls,
      (w.source this).advance (Instruction.procCall name).encode.length⟩ :: frames) w' := by
  obtain ⟨levels, es, hs, hchain⟩ := h.scopes
  obtain ⟨proc, u, hproc, hreached, hcallGlobal⟩ := hcall.enters hrun
  obtain ⟨hu, hsame⟩ := hreached.undisturbed h.settled
  have hs₁ : ScopesAre (u.component this).scopeStack levels es := by
    rw [hreached.scopeStack]
    exact hs
  obtain ⟨hw', hcells, f, p, q, handle, es', hs', hbinds, hposition, hsource, hopened, hown, hsame'⟩ :=
    returns_callGlobal hproc hu hs₁ hcallGlobal
  have hfiles : KeepsFiles this w w' :=
    footprint_keepsFiles.round (opcodeAt_of_rest hcall.instruction) id hrun
  have hfiles' : KeepsFiles this u w' := footprint_keepsFiles.callGlobal _ _ _ hcallGlobal
  refine ⟨f :: levels, es', hs', hw', f :: levels, es', hs', ?_⟩
  have houter : Chain this w' es' (w.source this).contents frames levels := by
    refine hchain.keep hsame' (fun q c hc hfixed => ?_) (hfiles h.settled.component)
    exact hcells q c (hsame.cells q c hc hfixed) hfixed
  rw [hreached.source] at hposition
  rw [← (hfiles' hu.component).ownFile] at hown
  have hnone : ∀ b ∈ ([] : List ℕ), Unbound es' b := by simp
  exact Chain.main hnone hbinds hposition hsource hopened hown houter

/-- A return resumes exactly when it is homeward, and then, if no scope of the body is open, the
other calls stay open. -/
theorem ChainOpen.ret (h : ChainOpen this (frame :: frames) v)
    (hrun : Returns (Component.procReturn this) v () w) :
    (Resumes this ⟨frame, frames, v, w⟩ ↔ Homeward this ⟨frame, frames, v, w⟩) ∧
      (Closed this ⟨frame, frames, v, w⟩ → Resumes this ⟨frame, frames, v, w⟩ →
        ChainOpen this frames w) := by
  obtain ⟨levels, es, hs, hchain⟩ := h.scopes
  obtain ⟨hw, -⟩ := staysIn_procReturn _ _ _ hrun h.settled
  have hfiles : KeepsFiles this v w := footprint_keepsFiles.procReturn _ _ _ hrun
  obtain ⟨pre, f, ls, p, hlevels, rfl, hunbound, hbinds, hposition, houter, hlocal⟩ := hchain.head
  obtain ⟨⟨g, hfile, hsource⟩, hcell, hs'⟩ := returns_procReturn hs
    (fun b hb => hunbound b hb _ (.inl rfl)) hbinds hposition hrun
  have hresumes : Resumes this ⟨frame, frames, v, w⟩ ↔ g.contents = frame.file.contents := by
    unfold Resumes
    simp only
    rw [hsource]
    constructor
    · intro heq
      rw [← heq]
    · intro hcontents
      rw [hcontents]
  refine ⟨hresumes.trans ?_, fun ⟨es', hclosed⟩ hthis => ?_⟩
  · obtain ⟨x, hans, hg⟩ := returnFile_cases hs hfile
    rcases hchain.answers hans with ⟨rfl, hall⟩ | ⟨hmain, q, handle, rfl, hq, hown⟩
    · -- no file is found, and the body is in the file of the call
      obtain rfl : g = v.source this := by
        rcases hg with ⟨-, hg⟩ | ⟨_, _, hx, -⟩
        · exact hg
        · cases hx
      refine iff_of_true (hlocal (hall _ List.mem_cons_self)).symm ?_
      rintro ⟨d, hd, hmain⟩
      rw [hall d hd] at hmain
      cases hmain
    · -- the component's own file is found
      obtain ⟨h', rfl, rfl⟩ : ∃ h', handle = some h' ∧ g = v.file h' := by
        rcases hg with ⟨hx, -⟩ | ⟨q', h', hx, hq', rfl⟩
        · cases hx
        · obtain rfl := Option.some.inj hx
          rw [hq] at hq'
          cases hq'
          exact ⟨h', rfl, rfl⟩
      unfold Homeward
      simp only
      rw [← hown h' rfl, Option.some_inj]
      exact ⟨fun heq _ => heq.symm, fun hhome => (hhome hmain).symm⟩
  -- with no scope of the body open the scope of the call is the innermost, and it is left
  · have heq := hclosed.unique hs
    rw [hlevels] at heq
    obtain rfl : pre = [] := by
      have hlength := congrArg List.length heq
      simp only [List.length_append, List.length_cons] at hlength
      exact List.length_eq_zero_iff.1 (by omega)
    refine ⟨hw, ls, es, by simpa using hs', ?_⟩
    have hthis : w.source this = frame.file := hthis
    rw [hthis]
    exact houter.keep .refl (fun q c hc _ => by rw [hcell]; exact hc) (hfiles h.settled.component)

/-- Up to where a return begins, the body goes on. -/
theorem EntersReturn.within (h : EntersReturn this u v) : Within this base u v := by
  have hfoot : ScopeFootprint this (KeepsFiles this) := footprint_keepsFiles
  refine h.undisturbed.within ?_
  cases h with
  | procReturn _ reads =>
    rw [reads]
    exact hfoot.source u _ rfl
  | blockEnd _ _ found =>
    have hopcode : KeepsFiles this u (u.setSource this ((u.source this).advance 1)) :=
      hfoot.source u _ rfl
    exact trans_of (KeepsFiles this) hopcode (hfoot.lookUp _ _ _ _ found)

/-- **Runs.** While every return begins with no scope of the body open, and is homeward or resumes,
it is and does both. -/
theorem ChainRun.resumes_iff (hrun : ChainRun doubles channelInstruction this w₀ frames returns w)
    (hw : Settled this w₀) (hs : ∃ levels es, ScopesAre (w₀.component this).scopeStack levels es ∧
      ∀ b ∈ levels, Unbound es b)
    (hclosed : ∀ r ∈ returns, Closed this r)
    (heither : ∀ r ∈ returns, Homeward this r ∨ Resumes this r) :
    ChainOpen this frames w ∧ ∀ r ∈ returns, Resumes this r ↔ Homeward this r := by
  induction hrun with
  | start =>
    obtain ⟨levels, es, hs, hunbound⟩ := hs
    exact ⟨⟨hw, levels, es, hs, .nil hunbound⟩, by simp⟩
  | body _ _ within ih =>
    obtain ⟨hopen, hiff⟩ := ih hclosed heither
    exact ⟨hopen.body within, hiff⟩
  | callOwn _ calls run levels ih =>
    obtain ⟨hopen, hiff⟩ := ih hclosed heither
    obtain ⟨ls, es, hls, hopen'⟩ := hopen.callOwn calls run
    obtain rfl := levels.unique hls
    exact ⟨hopen', hiff⟩
  | callMain _ calls run levels ih =>
    obtain ⟨hopen, hiff⟩ := ih hclosed heither
    obtain ⟨ls, es, hls, hopen'⟩ := hopen.callMain calls run
    obtain rfl := levels.unique hls
    exact ⟨hopen', hiff⟩
  | @ret frame frames returns u v w _ enters run ih =>
    obtain ⟨hopen, hiff⟩ := ih (fun r hr => hclosed r (List.mem_cons_of_mem _ hr))
      fun r hr => heither r (List.mem_cons_of_mem _ hr)
    obtain ⟨hthis, hnext⟩ := (hopen.body enters.within).ret (enters.runs run)
    have hresumes : Resumes this ⟨frame, frames, v, w⟩ := by
      rcases heither _ List.mem_cons_self with hhome | hresumes
      · exact hthis.2 hhome
      · exact hresumes
    refine ⟨hnext (hclosed _ List.mem_cons_self) hresumes, fun r hr => ?_⟩
    rcases List.mem_cons.1 hr with rfl | hr
    · exact hthis
    · exact hiff r hr

/-- **When every return of a run begins with no scope of the body open, all of them go on in the file
of the call at the byte behind it if and only if each one, while a procedure of the main component is
open, is from a call in the component's own file.** -/
theorem procReturn_resumes_iff
    (hrun : ChainRun doubles channelInstruction this w₀ frames returns w) (hw : Settled this w₀)
    (hs : ∃ levels es, ScopesAre (w₀.component this).scopeStack levels es ∧
      ∀ b ∈ levels, Unbound es b) (hclosed : ∀ r ∈ returns, Closed this r) :
    (∀ r ∈ returns, Resumes this r) ↔ ∀ r ∈ returns, Homeward this r := by
  constructor
  · intro h
    obtain ⟨-, hiff⟩ := hrun.resumes_iff hw hs hclosed fun r hr => .inr (h r hr)
    exact fun r hr => (hiff r hr).1 (h r hr)
  · intro h
    obtain ⟨-, hiff⟩ := hrun.resumes_iff hw hs hclosed fun r hr => .inl (h r hr)
    exact fun r hr => (hiff r hr).2 (h r hr)

/-! ### Two procedures of the main component -/

def procedureQ : Name := ⟨[113], by decide⟩

/-- The procedures of the main component, without parameters: `p` at the start of its file, and `q` at
the byte behind a call. -/
def twoProcedures : Option (ListMap Procedure) := do
  let procs ← ListMap.constructor.declare (literal procedureP.bytes)
  let (_, procs) ← procs.put (literal procedureP.bytes)
    (some ⟨literal procedureP.bytes, 0, IteratedList.constructList⟩)
  let procs ← procs.declare (literal procedureQ.bytes)
  let (_, procs) ← procs.put (literal procedureQ.bytes)
    (some ⟨literal procedureQ.bytes, 4, IteratedList.constructList⟩)
  return procs

/-- The file of the main component: `p` calls `q`, and `q` returns. -/
def mainFile : List UInt8 := (Instruction.procCall procedureQ).encode ++ [Opcode.procReturn.byte]

/-- The component numbered `1`, which has declared no procedure, in front of the call of `called`,
which the main component has declared. -/
def besideMain (called : Name) : World :=
  let code := (Instruction.procCall called).encode ++ [Opcode.exitScope.byte]
  let w := World.atCode code (some (ScopeStack.enterScope none)) Stack.constructor []
  { w with
    component := Function.update w.component 0
      { w.component 0 with sourceFile := 1, procs := twoProcedures }
    components := 2
    file := Function.update w.file 1 ⟨mainFile, 0⟩
    handles := 2
    disk := fun path => if path = getFilePath [] (getSourceFile (ascii ['A'])) then some code else none }

theorem besideMain_settled (called : Name) : Settled 1 (besideMain called) where
  component := Nat.one_lt_two
  sourceFile c := by
    by_cases h : c = 0
    · subst h
      exact Nat.one_lt_two
    · unfold besideMain
      simp only
      rw [Function.update_of_ne h]
      exact Nat.zero_lt_two
  files _ _ h := by cases h
  cells _ _ := rfl

theorem besideMain_scopes (called : Name) :
    ∃ levels es, ScopesAre ((besideMain called).component 1).scopeStack levels es ∧
      ∀ b ∈ levels, Unbound es b := by
  refine ⟨_, _, ScopeStack.enterScope_null, fun b _ name _ e he => ?_⟩
  cases he

theorem besideMain_mainCall {called : Name} (hcalled : called = procedureP ∨ called = procedureQ) :
    MainCall 1 (besideMain called) called [Opcode.exitScope.byte] where
  instruction := rfl
  notOwn procs h := by
    cases h
  found := by
    obtain ⟨procs, procs', proc, hprocs, hproc, hempty⟩ : ∃ procs procs' proc,
        twoProcedures = some procs ∧
        procs.get (literal called.bytes) = some (some proc, procs') ∧
        proc.parameterNames.first = none := by
      rcases hcalled with rfl | rfl
      · exact ⟨_, _, _, rfl, rfl, rfl⟩
      · exact ⟨_, _, _, rfl, rfl, rfl⟩
    exact ⟨procs, procs', proc, hprocs, hproc, Procedure.unreserved_of_isEmpty hempty⟩

/-- A call from the component's own file is returned from. -/
theorem procReturn_resumes_iff_one :
    ∃ r w, ChainRun binary64 (fun _ _ => pure ()) 1 (besideMain procedureQ) [] [r] w ∧
      Resumes 1 r := by
  have hcalls : (afterRounds binary64 (fun _ _ => pure ()) 1 1 (besideMain procedureQ)).map (fun u =>
      (u.opcodeAt 1, u.ownFile 1)) =
        some (some .procReturn, some ((besideMain procedureQ).source 1).contents) := by
    decide +kernel
  obtain ⟨u, hu, hstate⟩ := Option.map_eq_some_iff.1 hcalls
  obtain ⟨hop, hown⟩ := Prod.mk.inj hstate
  have hreturns : (afterRounds binary64 (fun _ _ => pure ()) 1 2 (besideMain procedureQ)).isSome := by
    decide +kernel
  obtain ⟨w, hw⟩ := Option.isSome_iff_exists.1 hreturns
  obtain ⟨v, hcall, hreturn⟩ := (runs_of_afterRounds hw).split (m := 1) (n := 1)
  obtain rfl := hcall.unique (runs_of_afterRounds hu)
  have hsettled := besideMain_settled procedureQ
  obtain ⟨levels, es, hs, hunbound⟩ := besideMain_scopes procedureQ
  have hstart : ChainOpen 1 [] (besideMain procedureQ) :=
    ⟨hsettled, levels, es, hs, .nil hunbound⟩
  obtain ⟨ls, es', hls, -⟩ := hstart.callMain (besideMain_mainCall (.inr rfl)) hcall
  have hopen := ChainRun.callMain .start (besideMain_mainCall (.inr rfl)) hcall hls
  have hrun := ChainRun.ret hopen (.procReturn hop rfl) hreturn
  refine ⟨_, w, hrun, (procReturn_resumes_iff hrun hsettled ⟨levels, es, hs, hunbound⟩ ?_).2 ?_ _
    (List.mem_singleton_self _)⟩
  · intro r hr
    obtain rfl := List.mem_singleton.1 hr
    exact ⟨es', hls⟩
  · intro r hr _
    obtain rfl := List.mem_singleton.1 hr
    exact hown.symm

/-- When a procedure of the main component calls another, the return from it goes on in the file of
the component on whose behalf they run. -/
theorem main_procedure_not_resumed :
    ∃ frame r w, ChainRun binary64 (fun _ _ => pure ()) 1 (besideMain procedureP) [frame] [r] w ∧
      ¬ Resumes 1 r := by
  have hfirst : (afterRounds binary64 (fun _ _ => pure ()) 1 1 (besideMain procedureP)).map (fun u =>
      ((u.source 1).rest, (u.component 1).procs.isNone,
        (u.component u.mainComponent).procs.bind fun procs =>
          (procs.get (literal procedureQ.bytes)).bind fun found =>
            found.1.map fun proc => proc.parameterNames.first)) = some (mainFile, true, some none) := by
    decide +kernel
  obtain ⟨u, hu, hstate⟩ := Option.map_eq_some_iff.1 hfirst
  obtain ⟨hrest, hstate⟩ := Prod.mk.inj hstate
  obtain ⟨hnone, hstate⟩ := Prod.mk.inj hstate
  obtain ⟨procs, hprocs, hfound⟩ := Option.bind_eq_some_iff.1 hstate
  obtain ⟨⟨found, procs'⟩, hget, hproc⟩ := Option.bind_eq_some_iff.1 hfound
  obtain ⟨proc, rfl, hempty⟩ := Option.map_eq_some_iff.1 hproc
  have hsecond : MainCall 1 u procedureQ [Opcode.procReturn.byte] := by
    refine ⟨hrest, fun procs h => ?_, procs, procs', proc, hprocs, hget,
      Procedure.unreserved_of_isEmpty hempty⟩
    rw [Option.isNone_iff_eq_none.1 hnone] at h
    cases h
  have hcalls : (afterRounds binary64 (fun _ _ => pure ()) 1 2 (besideMain procedureP)).map
      (·.opcodeAt 1) = some (some .procReturn) := by
    decide +kernel
  obtain ⟨v, hv, hop⟩ := Option.map_eq_some_iff.1 hcalls
  have hreturns : (afterRounds binary64 (fun _ _ => pure ()) 1 3 (besideMain procedureP)).map
      (fun w => (w.source 1).rest) = some [Opcode.exitScope.byte] := by
    decide +kernel
  obtain ⟨w, hw, hend⟩ := Option.map_eq_some_iff.1 hreturns
  obtain ⟨v', hboth, hreturn⟩ := (runs_of_afterRounds hw).split (m := 2) (n := 1)
  obtain ⟨u', hone, htwo⟩ := hboth.split (m := 1) (n := 1)
  obtain rfl := hboth.unique (runs_of_afterRounds hv)
  obtain rfl := hone.unique (runs_of_afterRounds hu)
  obtain ⟨levels, es, hs, hunbound⟩ := besideMain_scopes procedureP
  have hstart : ChainOpen 1 [] (besideMain procedureP) :=
    ⟨besideMain_settled procedureP, levels, es, hs, .nil hunbound⟩
  obtain ⟨ls, es₁, hls, hopen⟩ := hstart.callMain (besideMain_mainCall (.inl rfl)) hone
  obtain ⟨ls', es₂, hls', -⟩ := hopen.callMain hsecond htwo
  have hrun := ChainRun.callMain (.callMain .start (besideMain_mainCall (.inl rfl)) hone hls) hsecond
    htwo hls'
  refine ⟨_, _, w, hrun.ret (.procReturn hop rfl) hreturn, fun hresumes => ?_⟩
  -- the byte behind the call is not the one that the component comes to
  have hfile : w.source 1 = (u'.source 1).advance (Instruction.procCall procedureQ).encode.length :=
    hresumes
  rw [hfile, File.rest_advance hrest] at hend
  exact absurd hend (by decide)

end InsenseCVM
