import InsenseCVM.Machine.ProcedureReturn
import InsenseCVM.Machine.ScopeEffects

/-!
# The scopes that the body of a procedure sees

A call puts the scope of the procedure on top of the scopes of its caller, and names are searched
through all of them. So the body sees the variables of the component behind those that are local
to the caller: a name resolves to the same variable of the component from two calls exactly when
neither caller has a local variable of that name.
-/

namespace InsenseCVM
open Execution ByteStream

variable {D : Type} {doubles : Doubles D} {this : ℕ} {name : Name} {w w' v : World}
  {levels : List ℕ} {es : ℕ → List (ListMap.Located ℕ)} {k : CString}

/-! ### Calls -/

/-- The component calls a procedure that it declared itself in the state `before`, and the body
begins in `entry`. Of the scopes that are open at the call, `locals` are the caller's and `globals`
those of the component. -/
structure CallSite (doubles : Doubles D) (this : ℕ) (name : Name) where
  before : World
  entry : World
  scopes : ScopeStack ℕ
  locals : List ℕ
  globals : List ℕ
  settled : Settled this before
  scopeStack : (before.component this).scopeStack = some scopes
  holds : ∃ es, scopes.Holds (locals ++ globals) es
  instruction : ∃ r, (before.source this).rest = (Instruction.procCall name).encode ++ r
  found : ∃ procs procs' proc, (before.component this).procs = some procs ∧
    procs.get (literal name.bytes) = some (some proc, procs')
  enters : ∃ wires received, Runs doubles (channelHandler wires received) this 1 before entry

/-- While the call is open: a state of the body, and the scopes that are open in it. -/
structure BodyPoint (c : CallSite doubles this name) where
  state : World
  scopes : ScopeStack ℕ
  levels : List ℕ
  runs : RunsAmong doubles this c.entry state
  scopeStack : (state.component this).scopeStack = some scopes
  holds : ∃ es, scopes.Holds levels es
  isOpen : c.scopes.fresh ∈ levels

namespace BodyPoint

variable {c c₁ c₂ : CallSite doubles this name}

end BodyPoint

/-! ### The start of the body -/

/-- A call binds in the scope that it has entered. -/
theorem respects_bindsCall {R : World → World → Prop} [IsPreorder World R] {proc : Procedure}
    (hR : Footprint this R)
    (hvariable : ∀ name value, Respects R (Component.bindVariable this name value))
    (harguments : ∀ parameters i,
      Respects R (Component.bindArguments this proc.parameterNames parameters i)) :
    Respects R (do
      let fPos ← onSource this ftell
      let fPos ← alloc (.long fPos)
      Component.bindVariable this returnAddress (some fPos)
      let parameters ← follow proc.parameterNames.getListLength
      Component.bindArguments this proc.parameterNames parameters 0
      onSource this (seekSet proc.position)) := by
  refine hR.ftell.bind fun _ => (hR.allocate (by simp)).bind fun _ => ?_
  refine (hvariable _ _).bind fun _ => keeps_follow.respects.bind fun _ => ?_
  exact (harguments _ _).bind fun _ => hR.seekSet

/-- The scope of the call is the innermost when the body begins, and the ones outside have the names
that they had. -/
theorem callOwn_outside {proc : Procedure} {s : ScopeStack ℕ} (hw : Settled this w)
    (hscope : (w.component this).scopeStack = some s) (hs : s.Holds levels es)
    (hrun : Returns (Component.callOwn this proc) w () w') :
    ∃ s', (w'.component this).scopeStack = some s' ∧
      s'.Outside s.fresh levels (fun b j => (s.level b).has j = true) ∧
      ∃ es', s'.Holds (s.fresh :: levels) es' := by
  unfold Component.callOwn at hrun
  obtain ⟨_, u, henter, hrest⟩ := returns_bind.1 hrun
  have hscopes : ScopesAre (w.component this).scopeStack levels es := by
    rw [hscope]
    exact hs
  have hu : Settled this u := (enterScope_enters hw hscopes henter).1
  have hentered : (u.component this).scopeStack = some (ScopeStack.enterScope (some s)) := by
    rw [returns_enterScope.1 henter, World.setComponent_component, hscope]
  have hcalls : ScopeCalls this u w' :=
    respects_bindsCall footprint_scopeCalls (fun _ _ => scopeFootprint_scopeCalls.bindVariable)
      (fun _ _ => scopeFootprint_scopeCalls.bindArguments _ _ _) _ _ _ hrest
  have hkept : Undisturbed this noName u w' :=
    respects_bindsCall footprint_undisturbed (fun _ _ => undisturbed_bindVariable (not_noName _))
      (undisturbed_bindArguments fun _ _ _ => not_noName _) _ _ _ hrest
  obtain ⟨-, calls, hcalls⟩ := hcalls hu.component
  rw [hentered] at hcalls
  obtain ⟨s', hs', houtside⟩ := hs.outside.run hcalls
  have hscopes' : ScopesAre (u.component this).scopeStack (s.fresh :: levels)
      (Function.update es s.fresh []) := by
    rw [hentered]
    exact hs.enterScope
  obtain ⟨es', hholds, -⟩ := (hkept hu).2.scopes _ _ hscopes'
  rw [hs'] at hholds
  exact ⟨s', hs', houtside, es', hholds⟩

theorem CallSite.outside (c : CallSite doubles this name) :
    ∃ s, (c.entry.component this).scopeStack = some s ∧
      s.Outside c.scopes.fresh (c.locals ++ c.globals)
        (fun b j => (c.scopes.level b).has j = true) ∧
      ∃ es, s.Holds (c.scopes.fresh :: (c.locals ++ c.globals)) es := by
  obtain ⟨es, hs⟩ := c.holds
  obtain ⟨r, hinstruction⟩ := c.instruction
  obtain ⟨procs, procs', proc, hprocs, hget⟩ := c.found
  obtain ⟨wires, received, hrun⟩ := c.enters
  obtain ⟨v, hreached, hcall⟩ := hrun.callsOwn hinstruction hprocs hget
  have hv := (hreached.undisturbed c.settled).1
  exact callOwn_outside hv (hreached.scopeStack.trans c.scopeStack) hs hcall

namespace BodyPoint

variable {c c₁ c₂ : CallSite doubles this name}

/-- The body begins in the scope of the call. -/
theorem exists_entry (c : CallSite doubles this name) :
    ∃ p : BodyPoint c, p.state = c.entry ∧ p.levels = c.scopes.fresh :: (c.locals ++ c.globals) := by
  obtain ⟨s, hscope, -, hs⟩ := c.outside
  exact ⟨⟨c.entry, s, _, .refl _, hscope, hs, List.mem_cons_self⟩, rfl, rfl⟩

/-- The scopes outside are the same in the body, with the same names. -/
theorem outside (p : BodyPoint c) :
    (∃ inner, p.levels = inner ++ c.scopes.fresh :: (c.locals ++ c.globals)) ∧
      ∀ b ∈ c.locals ++ c.globals, ∀ j, (p.scopes.level b).has j = (c.scopes.level b).has j := by
  obtain ⟨s, hscope, houtside, -⟩ := c.outside
  obtain ⟨es, hs⟩ := p.holds
  have hcomponent : this < c.entry.components := by
    obtain ⟨wires, received, hrun⟩ := c.enters
    exact (hrun.scopeCalls c.settled.component).1
  obtain ⟨-, calls, hcalls⟩ := p.runs.scopeCalls hcomponent
  rw [hscope, p.scopeStack] at hcalls
  obtain ⟨s', hs', houtside'⟩ := houtside.run hcalls
  obtain rfl := Option.some.inj hs'
  obtain ⟨-, levels, es', hholds, hopen⟩ := houtside'
  obtain rfl := hs.order.unique hholds.order
  obtain ⟨⟨inner, hinner⟩, hnames⟩ := hopen p.isOpen
  refine ⟨⟨inner, hinner⟩, fun b hb j => ?_⟩
  have hmem : b ∈ p.levels := by
    rw [hinner]
    exact List.mem_append_right _ (List.mem_cons_of_mem _ hb)
  rw [Bool.eq_iff_iff, hholds.has_iff hmem, hnames b hb j]

/-! ### Names -/

end BodyPoint

open BodyPoint

end InsenseCVM
