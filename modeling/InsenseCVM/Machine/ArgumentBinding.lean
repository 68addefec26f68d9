import InsenseCVM.Collections.Environments
import InsenseCVM.Machine.BlockSkipping
import InsenseCVM.Machine.ProcedureReturn

/-!
# Binding the arguments of a call

`component_proc` puts the names of the parameters at the head of a list one after the other, and a
call goes through that list while it takes the values from the top of the data stack. The last
parameter is the first in the list and the last argument is the first on the stack, so every
parameter gets its own argument.
-/

namespace InsenseCVM
open Execution ByteStream

variable {this f : ℕ} {w w' u v : World} {levels : List ℕ} {es : ℕ → List (ListMap.Located ℕ)}
  {env : CString → Option ℕ} {s : List (Option ℕ)} {r : List UInt8}

/-! ### Declarations -/

/-- The names of the parameters of a procedure, in the order of the declaration. -/
def Procedure.Takes (proc : Procedure) (parameters : List CString) : Prop :=
  ∃ cells, proc.parameterNames.Represents cells ∧ cells.map Prod.snd = parameters.reverse

theorem declaredProcedure_takes (name : Name) (parameters : Counted Field) (position : ℕ) :
    (declaredProcedure name parameters position).Takes (parameters.items.map Field.key) := by
  obtain ⟨cells, hcells, hnames⟩ := IteratedList.constructList_represents.insertElements
    (parameters.items.map Field.key).reverse
  rw [List.append_nil] at hcells
  exact ⟨cells, hcells, hnames⟩

/-- The map of procedures of a component that has made the declarations, each of a name with the
names of the parameters, and has looked for procedures in between. -/
inductive DeclaredProcs : Option (ListMap Procedure) → List (CString × List CString) → Prop
  | null : DeclaredProcs none []
  | proc {this : ℕ} {w w' : World} {declarations : List (CString × List CString)} {name : Name}
      {parameters : Counted Field} {r : List UInt8}
      (before : DeclaredProcs (w.component this).procs declarations)
      (operands : (w.source this).rest = (Instruction.proc name parameters).operands ++ r)
      (run : Returns (Component.proc this) w () w') :
      DeclaredProcs (w'.component this).procs
        (declarations ++ [(literal name.bytes, parameters.items.map Field.key)])
  | get {procs procs' : ListMap Procedure} {declarations : List (CString × List CString)}
      {name : CString} {found : Option Procedure} (before : DeclaredProcs (some procs) declarations)
      (run : procs.get name = some (found, procs')) : DeclaredProcs (some procs') declarations

/-- The parameters that the name was last declared with. -/
def parametersOf (declarations : List (CString × List CString)) (name : CString) :
    Option (List CString) :=
  bindAll (fun _ => none) declarations name

/-- The map holds a procedure under each name that was declared, the one that was declared last. -/
theorem DeclaredProcs.means {procs : Option (ListMap Procedure)}
    {declarations : List (CString × List CString)} (h : DeclaredProcs procs declarations) :
    ∃ env, (procs.getD ListMap.constructor).Means env ∧
      ∀ name, Option.Rel Procedure.Takes (env name) (parametersOf declarations name) := by
  induction h with
  | null => exact ⟨_, ListMap.constructor_means, fun _ => .none⟩
  | @proc this w w' declarations name parameters r before operands run ih =>
    obtain ⟨env, hmeans, htakes⟩ := ih
    let proc := declaredProcedure name parameters
      ((w.source this).advance (Instruction.proc name parameters).operands.length).pos
    obtain ⟨procs₁, procs₂, hdeclare, hput, hmeans'⟩ := hmeans.bind (literal name.bytes) proc
    obtain ⟨v, -, hprocs, hruns⟩ := returns_proc operands hdeclare hput
    obtain ⟨found, hskip⟩ := (hruns w').1 run
    obtain ⟨g, -, rfl⟩ := returns_onSource.1 hskip
    rw [World.setSource_component, hprocs]
    refine ⟨_, hmeans', fun k => ?_⟩
    unfold parametersOf
    rw [bindAll_concat]
    by_cases hk : k = literal name.bytes
    · subst hk
      rw [Function.update_self, Function.update_self]
      exact .some (declaredProcedure_takes name parameters _)
    · rw [Function.update_of_ne hk, Function.update_of_ne hk]
      exact htakes k
  | get before run ih =>
    obtain ⟨env, hmeans, htakes⟩ := ih
    obtain ⟨m, hget, hmeans'⟩ := hmeans.get _
    rw [Option.getD_some, run] at hget
    obtain ⟨-, rfl⟩ := Prod.mk.inj (Option.some.inj hget)
    exact ⟨env, hmeans', htakes⟩

/-- The map of procedures of a component is replaced. -/
def World.setProcs (w : World) (owner : ℕ) (procs : Option (ListMap Procedure)) : World :=
  w.setComponent owner { w.component owner with procs := procs }

theorem World.setProcs_stacks (owner : ℕ) (procs : Option (ListMap Procedure)) :
    ((w.setProcs owner procs).component this).scopeStack = (w.component this).scopeStack ∧
      ((w.setProcs owner procs).component this).dataStack = (w.component this).dataStack := by
  unfold World.setProcs
  by_cases h : this = owner
  · subst h
    rw [World.setComponent_component]
    exact ⟨rfl, rfl⟩
  · have hsame : (w.setComponent owner { w.component owner with procs := procs }).component this =
        w.component this := Function.update_of_ne h ..
    rw [hsame]
    exact ⟨rfl, rfl⟩

/-- A look for a procedure finds the one that was declared last under the name, and moves nothing but
the cursor of the map. -/
theorem DeclaredProcs.findProc {owner : ℕ} {declarations : List (CString × List CString)}
    (h : DeclaredProcs (w.component owner).procs declarations) (name : CString) :
    ∃ found procs, Returns (Component.findProc owner name) w found (w.setProcs owner procs) ∧
      Option.Rel Procedure.Takes found (parametersOf declarations name) ∧
      ∀ other others, DeclaredProcs (w.component other).procs others →
        DeclaredProcs ((w.setProcs owner procs).component other).procs others := by
  have hkeep : ∀ procs : Option (ListMap Procedure),
      (∀ others, DeclaredProcs (w.component owner).procs others → DeclaredProcs procs others) →
      ∀ other others, DeclaredProcs (w.component other).procs others →
        DeclaredProcs ((w.setProcs owner procs).component other).procs others := by
    intro procs hprocs other others hothers
    unfold World.setProcs
    by_cases h : other = owner
    · subst h
      rw [World.setComponent_component]
      exact hprocs others hothers
    · have hsame : (w.setComponent owner { w.component owner with procs := procs }).component
          other = w.component other := Function.update_of_ne h ..
      rw [hsame]
      exact hothers
  obtain ⟨env, hmeans, htakes⟩ := h.means
  unfold Component.findProc
  cases hprocs : (w.component owner).procs with
  | none =>
    rw [hprocs] at hmeans
    refine ⟨none, none, ?_, ?_, hkeep none fun _ hothers => hprocs ▸ hothers⟩
    · have hsame : ({ w.component owner with procs := none } : Component) = w.component owner := by
        rw [← hprocs]
      rw [returns_self.bind_iff, hprocs, returns_pure, World.setProcs, hsame]
      exact ⟨rfl, World.setComponent_self⟩
    · have hempty := ListMap.constructor_means.unique hmeans name
      rw [hempty]
      exact htakes name
  | some procs =>
    rw [hprocs] at hmeans
    obtain ⟨procs', hget, -⟩ := hmeans.get name
    refine ⟨env name, some procs', ?_, htakes name, hkeep _ fun _ hothers => ?_⟩
    swap
    · rw [hprocs] at hothers
      exact hothers.get hget
    rw [returns_self.bind_iff, hprocs]
    exact (returns_follow.2 ⟨hget, rfl⟩).bind
      (returns_modifySelf.bind (returns_pure.2 ⟨rfl, rfl⟩))

/-! ### The scope of a call -/

/-- A declaration and a store in the innermost scope, with an argument taken from the data stack in
between when there is one to take. -/
theorem bindVariable_binds (hs : ScopesAre (w.component this).scopeStack (f :: levels) es)
    (henv : ListMap.Denotes (es f) env) (name : CString) (value : ℕ) :
    ∃ s₁ s₂ es', Returns (Component.declareVariable this name) w () (w.setScopes this s₁) ∧
      (∀ v, (v.component this).scopeStack = some s₁ →
        Returns (onScopes this (·.store name (some value))) v true (v.setScopes this s₂)) ∧
      ScopesAre (some s₂) (f :: levels) es' ∧
      ListMap.Denotes (es' f) (Function.update env name (some value)) ∧ ∀ b ≠ f, es' b = es b := by
  cases hscope : (w.component this).scopeStack with
  | none =>
    rw [hscope] at hs
    cases hs
  | some s =>
    rw [hscope] at hs
    obtain ⟨s₁, s₂, es', hdeclare, hstore, hholds, hdenotes, hother⟩ :=
      ScopeStack.Holds.bind_denotes hs henv name value
    refine ⟨s₁, s₂, es', returns_onScopes.2 ⟨s, s₁, hscope, ?_, rfl⟩, fun v hv =>
      returns_onScopes.2 ⟨s₁, s₂, hv, hstore, rfl⟩, hholds, hdenotes, hother⟩
    rw [hdeclare]
    rfl

/-- The loop over the parameters, from number `i` on: each takes what is on the top of the data
stack. -/
theorem returns_bindArguments {names : IteratedList CString} {cells : List (ℕ × CString)}
    (hnames : names.Represents cells) (bs : List (CString × ℕ)) (i : ℕ)
    (hbs : (cells.map Prod.snd).drop i = bs.map Prod.fst)
    (hs : ScopesAre (w.component this).scopeStack (f :: levels) es)
    (henv : ListMap.Denotes (es f) env)
    (hdata : (w.component this).dataStack.Holds (bs.map (fun b => some b.2) ++ s)) :
    ∃ c es', Returns (Component.bindArguments this names bs.length i) w () (w.setComponent this c) ∧
      ScopesAre c.scopeStack (f :: levels) es' ∧ ListMap.Denotes (es' f) (bindAll env bs) ∧
      (∀ b ≠ f, es' b = es b) ∧ c.dataStack.Holds s := by
  -- on the bindings that are left; the names are those from number `i` on
  induction bs generalizing w i es env with
  | nil =>
    refine ⟨w.component this, es, ?_, hs, henv, fun _ _ => rfl, hdata⟩
    rw [World.setComponent_self]
    exact returns_pure.2 ⟨rfl, rfl⟩
  | cons b bs ih =>
    have hname : names.getElementN i = some (some b.1) := by
      rw [hnames.getElementN_eq, ← List.head?_drop, hbs]
      rfl
    have hrest : (cells.map Prod.snd).drop (i + 1) = bs.map Prod.fst := by
      rw [← List.tail_drop, hbs]
      rfl
    obtain ⟨s₁, s₂, es₁, hdeclare, hstore, hs₁, henv₁, hother⟩ :=
      bindVariable_binds hs henv b.1 b.2
    obtain ⟨data, hpop, hdata₁⟩ := Stack.Holds.pop_cons hdata
    let u := w.setScopes this s₁
    let v := u.setComponent this { u.component this with dataStack := data }
    have hpops : Returns (popData this) u (some b.2) v := by
      refine returns_popData.2 ⟨data, ?_, rfl⟩
      show ((w.setScopes this s₁).component this).dataStack.pop = _
      rw [World.setScopes, World.setComponent_component]
      exact hpop
    have hv : (v.component this).scopeStack = some s₁ := by
      rw [World.setComponent_component]
      exact World.setScopes_scopeStack s₁
    have hs₂ : ScopesAre ((v.setScopes this s₂).component this).scopeStack (f :: levels) es₁ := by
      rw [World.setScopes_scopeStack]
      exact hs₁
    have hdata₂ : ((v.setScopes this s₂).component this).dataStack.Holds
        (bs.map (fun b => some b.2) ++ s) := by
      rw [World.setScopes, World.setComponent_component, World.setComponent_component]
      exact hdata₁
    obtain ⟨c, es', hruns, hs', henv', hother', hdata'⟩ := ih (i + 1) hrest hs₂ henv₁ hdata₂
    refine ⟨c, es', ?_, hs', henv', fun d hd => ?_, hdata'⟩
    · have hsame : (v.setScopes this s₂).setComponent this c = w.setComponent this c := by
        simp [v, u, World.setScopes]
      rw [hsame] at hruns
      refine (returns_follow.2 ⟨hname, rfl⟩).bind ((returns_follow.2 ⟨rfl, rfl⟩).bind ?_)
      exact hdeclare.bind (hpops.bind ((hstore v hv).bind hruns))
    · rw [hother' d hd, hother d hd]

/-- Inside the call that was made at `w`: the scope `f` is new and binds what `env` says, the outer
ones are as they were, and so is the heap. -/
structure InCall (this : ℕ) (w : World) (levels : List ℕ) (es : ℕ → List (ListMap.Located ℕ))
    (f : ℕ) (env : CString → Option ℕ) (s : List (Option ℕ)) (u : World) : Prop where
  scopes : ∃ es', ScopesAre (u.component this).scopeStack (f :: levels) es' ∧
    ListMap.Denotes (es' f) env ∧ ∀ b ∈ levels, es' b = es b
  data : (u.component this).dataStack.Holds s
  fresh : w.fresh ≤ u.fresh
  cells : ∀ q < w.fresh, u.cell q = w.cell q

theorem inCall_enterScope (hs : ScopesAre (w.component this).scopeStack levels es)
    (hdata : (w.component this).dataStack.Holds s) :
    ∃ f u, Returns (Component.enterScope this) w () u ∧
      InCall this w levels es f (fun _ => none) s u := by
  obtain ⟨f, es', hs', hempty, hsame⟩ := scopesAre_enterScope hs
  refine ⟨f, _, returns_enterScope.2 rfl, ⟨es', ?_, ?_, hsame⟩, ?_, Nat.le_refl _, fun _ _ => rfl⟩
  · rw [World.setComponent_component]
    exact hs'
  · rw [hempty]
    exact ListMap.denotes_nil
  · rw [World.setComponent_component]
    exact hdata

theorem InCall.alloc (h : InCall this w levels es f env s u) (c : Cell) :
    ∃ p v, Returns (InsenseCVM.alloc c) u p v ∧ InCall this w levels es f env s v := by
  refine ⟨_, _, returns_alloc, h.scopes, h.data, h.fresh.trans (Nat.le_succ _), fun q hq => ?_⟩
  have hne : q ≠ u.fresh := Nat.ne_of_lt (Nat.lt_of_lt_of_le hq h.fresh)
  exact (Function.update_of_ne hne ..).trans (h.cells q hq)

theorem InCall.fopen (h : InCall this w levels es f env s u) (path : CString) :
    ∃ handle v, Returns (InsenseCVM.fopen path) u handle v ∧
      InCall this w levels es f env s v := by
  unfold InsenseCVM.fopen
  simp only [returns_get_bind]
  cases u.disk path with
  | none => exact ⟨_, _, returns_pure.2 ⟨rfl, rfl⟩, h⟩
  | some contents =>
    exact ⟨_, _, returns_set_bind.2 (returns_pure.2 ⟨rfl, rfl⟩), h.scopes, h.data, h.fresh, h.cells⟩

theorem returns_position : Returns (onSource this ftell) u (u.source this).pos u :=
  returns_onSource.2 ⟨_, returns_ftell.2 ⟨rfl, rfl⟩, World.setSource_source.symm⟩

theorem InCall.seekSet (h : InCall this w levels es f env s u) (position : ℕ) :
    ∃ v, Returns (onSource this (ByteStream.seekSet position)) u () v ∧
      InCall this w levels es f env s v :=
  ⟨_, returns_onSource.2 ⟨_, returns_seekSet, rfl⟩, h.scopes, h.data, h.fresh, h.cells⟩

/-- The component goes on in another file. -/
theorem InCall.setSourceFile (h : InCall this w levels es f env s u) (handle : ℕ) :
    InCall this w levels es f env s
      (u.setComponent this { u.component this with sourceFile := handle }) := by
  obtain ⟨hscopes, hdata, hfresh, hcells⟩ := h
  refine ⟨?_, ?_, hfresh, hcells⟩
  · rw [World.setComponent_component]
    exact hscopes
  · rw [World.setComponent_component]
    exact hdata

/-- The scope of the call is the innermost one. -/
theorem ScopesAre.ne_innermost {o : Option (ScopeStack ℕ)} {b : ℕ}
    (h : ScopesAre o (f :: levels) es) (hb : b ∈ levels) : b ≠ f := by
  rintro rfl
  cases o with
  | none => cases h
  | some s => exact (List.nodup_cons.1 (ScopeStack.Holds.distinct h)).1 hb

theorem InCall.bindVariable (h : InCall this w levels es f env s u) (name : CString) (value : ℕ) :
    ∃ v, Returns (Component.bindVariable this name (some value)) u () v ∧
      InCall this w levels es f (Function.update env name (some value)) s v := by
  obtain ⟨es₁, hs, henv, hsame⟩ := h.scopes
  obtain ⟨s₁, s₂, es₂, hdeclare, hstore, hs₂, henv₂, hother⟩ :=
    bindVariable_binds hs henv name value
  have hstored := hstore (u.setScopes this s₁) (World.setScopes_scopeStack s₁)
  refine ⟨_, hdeclare.bind (hstored.bind (returns_pure.2 ⟨rfl, rfl⟩)),
    ⟨es₂, ?_, henv₂, fun b hb => ?_⟩, ?_, h.fresh, h.cells⟩
  · rw [World.setScopes_scopeStack]
    exact hs₂
  · rw [hother b (hs.ne_innermost hb), hsame b hb]
  · rw [World.setScopes, World.setComponent_component, World.setScopes,
      World.setComponent_component]
    exact h.data

/-- The parameters are bound to the values that are taken from the data stack. -/
theorem InCall.bindArguments {names : IteratedList CString} {cells : List (ℕ × CString)}
    (hnames : names.Represents cells) (bs : List (CString × ℕ))
    (hbs : cells.map Prod.snd = bs.map Prod.fst)
    (h : InCall this w levels es f env (bs.map (fun b => some b.2) ++ s) u) :
    ∃ v, Returns (Component.bindArguments this names bs.length 0) u () v ∧
      InCall this w levels es f (bindAll env bs) s v := by
  obtain ⟨es₁, hs, henv, hsame⟩ := h.scopes
  obtain ⟨c, es₂, hruns, hs₂, henv₂, hother, hdata⟩ :=
    returns_bindArguments hnames bs 0 hbs hs henv h.data
  refine ⟨_, hruns, ⟨es₂, ?_, henv₂, fun b hb => ?_⟩, ?_, h.fresh, h.cells⟩
  · rw [World.setComponent_component]
    exact hs₂
  · rw [hother b (hs.ne_innermost hb), hsame b hb]
  · rw [World.setComponent_component]
    exact hdata

/-- The parameters with the arguments, in the order in which a call goes through them. -/
def pairs (parameters : List CString) (arguments : List ℕ) : List (CString × ℕ) :=
  (parameters.zip arguments).reverse

section

variable {parameters : List CString} {arguments : List ℕ}

theorem pairs_names (h : arguments.length = parameters.length) :
    (pairs parameters arguments).map Prod.fst = parameters.reverse := by
  unfold pairs
  rw [List.map_reverse, List.map_fst_zip h.ge]

theorem pairs_values (h : arguments.length = parameters.length) :
    (pairs parameters arguments).map (fun b => some b.2) = (arguments.map some).reverse := by
  unfold pairs
  rw [List.map_reverse]
  congr 1
  calc (parameters.zip arguments).map (fun b => some b.2)
      = ((parameters.zip arguments).map Prod.snd).map some := (List.map_map ..).symm
    _ = arguments.map some := by rw [List.map_snd_zip h.le]

/-- Distinct parameters are bound to their own arguments. -/
theorem InCall.binds (h : InCall this w levels es f (bindAll env (pairs parameters arguments)) s u)
    (hlength : arguments.length = parameters.length) (hdistinct : parameters.Nodup) :
    ∃ es', ScopesAre (u.component this).scopeStack (f :: levels) es' ∧
      (∀ b ∈ parameters.zip arguments, ScopeStack.Binds es' b.1 f b.2) ∧
      ∀ b ∈ levels, es' b = es b := by
  obtain ⟨es', hs, henv, hsame⟩ := h.scopes
  refine ⟨es', hs, fun b hb => ScopeStack.binds_of_denotes henv (bindAll_of_mem ?_ ?_), hsame⟩
  · rw [pairs_names hlength]
    exact List.nodup_reverse.2 hdistinct
  · exact List.mem_reverse.2 hb

/-! ### Calls -/

theorem callOwn_enters {proc : Procedure} (hproc : proc.Takes parameters)
    (hlength : arguments.length = parameters.length)
    (hs : ScopesAre (w.component this).scopeStack levels es)
    (hdata : (w.component this).dataStack.Holds ((arguments.map some).reverse ++ s)) :
    ∃ f env w', Returns (Component.callOwn this proc) w () w' ∧
      InCall this w levels es f (bindAll env (pairs parameters arguments)) s w' := by
  obtain ⟨cells, hcells, hnames⟩ := hproc
  rw [← pairs_names hlength] at hnames
  rw [← pairs_values hlength] at hdata
  obtain ⟨f, u₁, henter, h₁⟩ := inCall_enterScope hs hdata
  obtain ⟨p, u₂, halloc, h₂⟩ := h₁.alloc (.long (u₁.source this).pos)
  obtain ⟨u₃, haddress, h₃⟩ := h₂.bindVariable returnAddress p
  obtain ⟨u₄, harguments, h₄⟩ := h₃.bindArguments hcells _ hnames
  obtain ⟨u₅, hseek, h₅⟩ := h₄.seekSet proc.position
  have hcount : cells.length = (pairs parameters arguments).length := by
    simpa using congrArg List.length hnames
  refine ⟨f, _, u₅, ?_, h₅⟩
  unfold Component.callOwn
  refine henter.bind (returns_position.bind (halloc.bind (haddress.bind ?_)))
  refine (returns_follow.2 ⟨hcells.getListLength_eq, rfl⟩).bind ?_
  rw [hcount]
  exact harguments.bind hseek

theorem callGlobal_enters {proc : Procedure} (hproc : proc.Takes parameters)
    (hlength : arguments.length = parameters.length)
    (hs : ScopesAre (w.component this).scopeStack levels es)
    (hdata : (w.component this).dataStack.Holds ((arguments.map some).reverse ++ s)) :
    ∃ f env w', Returns (Component.callGlobal this proc) w () w' ∧
      InCall this w levels es f (bindAll env (pairs parameters arguments)) s w' := by
  obtain ⟨cells, hcells, hnames⟩ := hproc
  rw [← pairs_names hlength] at hnames
  rw [← pairs_values hlength] at hdata
  obtain ⟨f, u₁, henter, h₁⟩ := inCall_enterScope hs hdata
  obtain ⟨p, u₂, halloc, h₂⟩ := h₁.alloc (.long (u₁.source this).pos)
  obtain ⟨handle, u₃, hopen, h₃⟩ :=
    h₂.fopen (getFilePath u₂.directory (getSourceFile (u₂.component this).name))
  obtain ⟨q, u₄, hfile, h₄⟩ := h₃.alloc (.file handle)
  obtain ⟨u₅, haddress, h₅⟩ := h₄.bindVariable returnAddress p
  obtain ⟨u₆, hsource, h₆⟩ := h₅.bindVariable returnSource q
  obtain ⟨u₇, harguments, h₇⟩ := h₆.bindArguments hcells _ hnames
  have h₈ := h₇.setSourceFile (u₇.component u₂.mainComponent).sourceFile
  obtain ⟨u₉, hseek, h₉⟩ := h₈.seekSet proc.position
  have hcount : cells.length = (pairs parameters arguments).length := by
    simpa using congrArg List.length hnames
  refine ⟨f, _, u₉, ?_, h₉⟩
  unfold Component.callGlobal
  refine henter.bind (returns_position.bind (halloc.bind ?_))
  rw [returns_self.bind_iff, returns_get_bind]
  refine hopen.bind (hfile.bind (haddress.bind (hsource.bind ?_)))
  refine (returns_follow.2 ⟨hcells.getListLength_eq, rfl⟩).bind ?_
  rw [hcount]
  refine harguments.bind ?_
  rw [returns_self.bind_iff, returns_modifySelf.bind_iff]
  exact hseek

/-- The name of the procedure is looked up in the component and then in the main component. -/
theorem procCall_enters {own ofMain : List (CString × List CString)} {name : Name}
    (hown : DeclaredProcs (w.component this).procs own)
    (hmain : DeclaredProcs (w.component w.mainComponent).procs ofMain)
    (hparameters : (parametersOf own (literal name.bytes)).or
      (parametersOf ofMain (literal name.bytes)) = some parameters)
    (hlength : arguments.length = parameters.length)
    (hs : ScopesAre (w.component this).scopeStack levels es)
    (hdata : (w.component this).dataStack.Holds ((arguments.map some).reverse ++ s))
    (hcall : (w.source this).rest = name.encode ++ r) :
    ∃ f env w', Returns (Component.procCall this) w () w' ∧
      InCall this w levels es f (bindAll env (pairs parameters arguments)) s w' := by
  have hread := returns_onSource.2 ⟨_, reads_name name (w.source this) r hcall, rfl⟩
  obtain ⟨found, procs, hfind, htakes, hkeep⟩ := DeclaredProcs.findProc
    (w := w.setSource this ((w.source this).advance name.encode.length)) hown (literal name.bytes)
  obtain ⟨hscopes, hstack⟩ := @World.setProcs_stacks this
    (w.setSource this ((w.source this).advance name.encode.length)) this procs
  generalize parametersOf own (literal name.bytes) = declared at htakes hparameters
  cases htakes with
  | @some proc _ htakes =>
    obtain rfl := Option.some.inj hparameters
    rw [← World.setSource_component, ← hscopes] at hs
    rw [← World.setSource_component, ← hstack] at hdata
    obtain ⟨f, env, w', hcalls, hcalled⟩ := callOwn_enters htakes hlength hs hdata
    exact ⟨f, env, w', hread.bind (hfind.bind hcalls), hcalled.scopes, hcalled.data, hcalled.fresh,
      hcalled.cells⟩
  | none =>
    -- the procedures of the main component, the cursor of whose map may have been moved
    obtain ⟨foundMain, procsMain, hfindMain, htakesMain, -⟩ := (hkeep _ _ hmain).findProc
      (literal name.bytes)
    rw [Option.none_or] at hparameters
    rw [hparameters] at htakesMain
    cases htakesMain with
    | @some proc _ htakes =>
      obtain ⟨hscopesMain, hstackMain⟩ := @World.setProcs_stacks this
        ((w.setSource this ((w.source this).advance name.encode.length)).setProcs this procs)
        w.mainComponent procsMain
      rw [← World.setSource_component, ← hscopes, ← hscopesMain] at hs
      rw [← World.setSource_component, ← hstack, ← hstackMain] at hdata
      obtain ⟨f, env, w', hcalls, hcalled⟩ := callGlobal_enters htakes hlength hs hdata
      refine ⟨f, env, w', hread.bind (hfind.bind ?_), hcalled.scopes, hcalled.data, hcalled.fresh,
        hcalled.cells⟩
      simp only [returns_get_bind]
      exact hfindMain.bind hcalls

end

/-- A call of a procedure that the component declared, or else the main component, enters one new
scope and binds each parameter in it to its own argument. The data stack is left with what was below
the arguments, and the variables of the outer scopes as they were. -/
theorem procCall_binds_arguments {own ofMain : List (CString × List CString)}
    {parameters : List CString} {arguments : List ℕ} {name : Name}
    (hown : DeclaredProcs (w.component this).procs own)
    (hmain : DeclaredProcs (w.component w.mainComponent).procs ofMain)
    (hparameters : (parametersOf own (literal name.bytes)).or
      (parametersOf ofMain (literal name.bytes)) = some parameters)
    (hdistinct : parameters.Nodup) (hlength : arguments.length = parameters.length)
    (hs : ScopesAre (w.component this).scopeStack levels es)
    (hdata : (w.component this).dataStack.Holds ((arguments.map some).reverse ++ s))
    (hcall : (w.source this).rest = name.encode ++ r) :
    ∃ w', Returns (Component.procCall this) w () w' ∧
      (∃ f es', ScopesAre (w'.component this).scopeStack (f :: levels) es' ∧
        (∀ b ∈ parameters.zip arguments, ScopeStack.Binds es' b.1 f b.2) ∧
        ∀ b ∈ levels, es' b = es b) ∧
      (w'.component this).dataStack.Holds s ∧ ∀ q < w.fresh, w'.cell q = w.cell q := by
  obtain ⟨f, env, w', hcalls, hcalled⟩ :=
    procCall_enters hown hmain hparameters hlength hs hdata hcall
  exact ⟨w', hcalls, ⟨f, hcalled.binds hlength hdistinct⟩, hcalled.data, hcalled.cells⟩

/-- Parameters `a` and `b`. -/
def twoParameters : Counted Field := ⟨[⟨1, ⟨[97], by decide⟩⟩, ⟨1, ⟨[98], by decide⟩⟩], by decide⟩

/-- A machine behind the opcode of the declaration of a procedure with an empty body. -/
def inFrontOfDeclaration : World :=
  World.atCode ((Instruction.proc procedureP twoParameters).operands ++ [Opcode.blockEnd.byte]) none
    Stack.constructor []

/-- A call with 5 and 6 as its arguments. -/
theorem procCall_binds_arguments_two :
    ∃ w w', Returns (Component.procCall 0) w () w' ∧
      (∃ f es', ScopesAre (w'.component 0).scopeStack [f] es' ∧
        (∀ b ∈ [([97], 5), ([98], 6)], ScopeStack.Binds es' b.1 f b.2) ∧
        ∀ b ∈ ([] : List ℕ), es' b = []) ∧
      (w'.component 0).dataStack.Holds [some 7] ∧ ∀ q < w.fresh, w'.cell q = w.cell q := by
  obtain ⟨v, hproc⟩ : ∃ v, Returns (Component.proc 0) inFrontOfDeclaration () v := by
    have hnoProcs : HasProcedures 0 inFrontOfDeclaration := fun _ h => by cases h
    have hstep : InStep (skipInstruction false Opcode.blockEnd.byte)
        ((inFrontOfDeclaration.source 0).advance
          (Instruction.proc procedureP twoParameters).operands.length) [] := by
      intro before i behind h _
      cases before with
      | nil => exact ⟨0, .start⟩
      | cons item before => simp at h
    have hnoBlock : ¬ HasBlock [] := by simp [HasBlock]
    obtain ⟨v, hrun, -⟩ := (proc_closing_iff (r := []) .nil hnoProcs rfl hstep).2 hnoBlock
    exact ⟨v, hrun⟩
  have hoperands : (inFrontOfDeclaration.source 0).rest =
      (Instruction.proc procedureP twoParameters).operands ++ [Opcode.blockEnd.byte] := rfl
  have hdeclared : DeclaredProcs (v.component 0).procs [(literal procedureP.bytes, [[97], [98]])] :=
    DeclaredProcs.proc .null hoperands hproc
  have hdata : (((Stack.constructor.push (some 7)).push (some 5)).push (some 6)).Holds
      [some 6, some 5, some 7] :=
    ((Stack.constructor_holds.push _).push _).push _
  let w := (World.atCode procedureP.encode none
    (((Stack.constructor.push (some 7)).push (some 5)).push (some 6)) []).setProcs 0
      (v.component 0).procs
  have hprocs : DeclaredProcs (w.component 0).procs [(literal procedureP.bytes, [[97], [98]])] :=
    hdeclared
  have hcalls := @procCall_binds_arguments 0 w [] (fun _ => []) [some 7] [] _ _ [[97], [98]] [5, 6]
    procedureP hprocs hprocs rfl (by decide) rfl rfl hdata rfl
  exact ⟨w, hcalls⟩

end InsenseCVM
