import InsenseCVM.Machine.Scoping

/-!
# Returning from procedures

A call of a procedure that the component declared enters a scope and binds `_returnAddress` in it.
`component_procReturn` searches the scopes for that variable, seeks to the position it holds, leaves
the scopes above it with `ScopeStack_exitTo`, and then one more. `ScopeStack_exitTo` leaves one scope
fewer than there are above, so with a scope of the body still open the scope of the call stays.

`CallRun` is a run of the machine with the calls that are open; each open call is a `Frame`, which
records what the return has to restore.
-/

namespace InsenseCVM
open Execution ByteStream

variable {D : Type} {doubles : Doubles D} {channelInstruction : Opcode → ℕ → Exec Unit} {this : ℕ}
  {w w' u v : World} {levels : List ℕ} {es : ℕ → List (ListMap.Located ℕ)} {a f p : ℕ}
  {k : CString}

/-- The names that calls bind. -/
def Reserved (name : CString) : Prop := name = returnAddress ∨ name = returnSource

/-! ### Operations of the scope stack -/

/-- The scope stack of the component is replaced. -/
def World.setScopes (w : World) (this : ℕ) (s : ScopeStack ℕ) : World :=
  w.setComponent this { w.component this with scopeStack := some s }

@[simp] theorem World.setScopes_scopeStack (s : ScopeStack ℕ) :
    ((w.setScopes this s).component this).scopeStack = some s := by
  unfold World.setScopes
  rw [World.setComponent_component]

@[simp] theorem World.setScopes_source (s : ScopeStack ℕ) :
    (w.setScopes this s).source this = w.source this :=
  World.source_setComponent (by rfl)

theorem ScopesAre.loads {x : Option ℕ} (hs : ScopesAre (w.component this).scopeStack levels es)
    (hrun : Returns (onScopes this (·.load k)) w x w') :
    ∃ s s', (w.component this).scopeStack = some s ∧ s.load k = some (x, s') ∧
      w' = w.setScopes this s' ∧ s'.Holds levels es ∧ ScopeStack.Answers es k levels x := by
  obtain ⟨s, s', hscope, hload, rfl⟩ := returns_onScopes.1 hrun
  rw [hscope] at hs
  obtain ⟨y, t, hload', hsame, hans⟩ := ScopeStack.Holds.load hs k
  rw [hload] at hload'
  obtain ⟨rfl, rfl⟩ := Prod.mk.inj (Option.some.inj hload')
  exact ⟨s, s', hscope, hload, rfl, hsame.holds, hans⟩

theorem ScopesAre.exits (hs : ScopesAre (w.component this).scopeStack (a :: levels) es)
    (hrun : Returns (Component.exitScope this) w () w') :
    ∃ s', w' = w.setScopes this s' ∧ s'.Holds levels es := by
  obtain ⟨s, s', hscope, hexit, rfl⟩ := returns_onScopes.1 hrun
  rw [hscope] at hs
  obtain ⟨t, hexit', hholds, -⟩ := ScopeStack.Holds.exitScope hs
  rw [hexit'] at hexit
  cases hexit
  exact ⟨_, rfl, hholds⟩

theorem ScopesAre.exitsTo {pre post : List ℕ}
    (hs : ScopesAre (w.component this).scopeStack (pre ++ f :: post) es)
    (hpre : ∀ b ∈ pre, ScopeStack.Passes es k b) (hbind : ScopeStack.Binds es k f p)
    (hrun : Returns (onScopes this fun s => do return ((), ← s.exitTo k)) w () w') :
    ∃ s', w' = w.setScopes this s' ∧ s'.Holds ((pre ++ f :: post).drop (pre.length - 1)) es := by
  obtain ⟨s, s', hscope, hexit, rfl⟩ := returns_onScopes.1 hrun
  rw [hscope] at hs
  obtain ⟨t, hexit', hholds, -⟩ := ScopeStack.Holds.exitTo hs hpre hbind
  rw [hexit'] at hexit
  cases hexit
  exact ⟨_, rfl, hholds⟩

/-- A name that is new in the innermost scope is bound there. -/
theorem ScopesAre.binds (hs : ScopesAre (w.component this).scopeStack (a :: levels) es)
    (hnew : ∀ e ∈ es a, e.2.key ≠ k)
    (hrun : Returns (Component.bindVariable this k (some p)) w () w') :
    ∃ s' es', w' = w.setScopes this s' ∧ s'.Holds (a :: levels) es' ∧
      ScopeStack.Binds es' k a p ∧ ScopeStack.SameFor (· ≠ k) (a :: levels) es es' ∧
      ∀ b ≠ a, es' b = es b := by
  unfold Component.bindVariable at hrun
  obtain ⟨_, u, hdeclare, hrest⟩ := returns_bind.1 hrun
  obtain ⟨stored, v, hstore, hlast⟩ := returns_bind.1 hrest
  obtain ⟨-, rfl⟩ := returns_pure.1 hlast
  obtain ⟨s, s₁, hscope, hs₁, rfl⟩ := returns_onScopes.1 hdeclare
  obtain ⟨s₁', s₂, hscope₁, hs₂, rfl⟩ := returns_onScopes.1 hstore
  rw [World.setComponent_component] at hscope₁
  obtain rfl := Option.some.inj hscope₁
  rw [hscope] at hs
  obtain ⟨t₁, t₂, es', hdeclare', hstore', hholds, hbinds, hsame, hother⟩ :=
    ScopeStack.Holds.bind hs k p
  rw [hdeclare'] at hs₁
  cases hs₁
  rw [hstore'] at hs₂
  cases hs₂
  refine ⟨_, es', ?_, hholds, hbinds hnew, hsame, hother⟩
  simp [World.setScopes]

/-! ### A return -/

/-- The file that a return reads on, when it comes to seek in it. -/
def World.returnFile (w : World) (this : ℕ) : Option File := do
  let s ← (w.component this).scopeStack
  let (_, s) ← s.load returnAddress
  let (newFile, _) ← s.load returnSource
  match newFile with
  | none => return w.source this
  | some newFile =>
    match w.cell newFile with
    | some (.file (some handle)) => return w.file handle
    | _ => none

theorem drop_pred_tail {α : Type} (xs : List α) (n : ℕ) :
    (xs.drop (n - 1)).tail = xs.drop (max 1 n) := by
  rw [List.tail_drop]
  congr 1
  omega

/-- A return seeks to the position it finds, and leaves the scopes of the body but for the innermost
one, or the scope of the call when there are none. -/
theorem returns_procReturn {pre post : List ℕ} {position : ℕ}
    (hs : ScopesAre (w.component this).scopeStack (pre ++ f :: post) es)
    (hpre : ∀ b ∈ pre, ScopeStack.Passes es returnAddress b)
    (hbind : ScopeStack.Binds es returnAddress f p) (hcell : w.cell p = some (.long position))
    (hrun : Returns (Component.procReturn this) w () w') :
    (∃ g, w.returnFile this = some g ∧ w'.source this = { g with pos := position }) ∧
      w'.cell = w.cell ∧
      ScopesAre (w'.component this).scopeStack ((pre ++ f :: post).drop (max 1 pre.length)) es := by
  unfold Component.procReturn at hrun
  obtain ⟨newPos, u₁, hload₁, hrun₁⟩ := returns_bind.1 hrun
  obtain ⟨newFile, u₂, hload₂, hrun₂⟩ := returns_bind.1 hrun₁
  obtain ⟨_, u₃, hsource, hrun₃⟩ := returns_bind.1 hrun₂
  obtain ⟨_, u₄, hposition, hrun₄⟩ := returns_bind.1 hrun₃
  obtain ⟨_, u₅, hexitTo, hexit⟩ := returns_bind.1 hrun₄
  obtain ⟨s, s₁, hscope, hs₁, rfl, hholds₁, hans⟩ := hs.loads hload₁
  obtain rfl : newPos = some p := hans.of_binds hpre hbind
  have hs' : ScopesAre ((w.setScopes this s₁).component this).scopeStack (pre ++ f :: post) es := by
    rw [World.setScopes_scopeStack]
    exact hholds₁
  obtain ⟨s₁', s₂, hscope₁, hs₂, rfl, hholds₂, -⟩ := hs'.loads hload₂
  rw [World.setScopes_scopeStack] at hscope₁
  obtain rfl := Option.some.inj hscope₁
  -- the file
  obtain ⟨g, hfile, hsource₃, hcell₃, hscopes₃⟩ : ∃ g, w.returnFile this = some g ∧
      u₃.source this = g ∧ u₃.cell = w.cell ∧ (u₃.component this).scopeStack = some s₂ := by
    unfold World.returnFile
    simp only [hscope, Option.bind_eq_bind, Option.bind_some, hs₁, hs₂]
    unfold Component.returnToSource at hsource
    cases newFile with
    | none =>
      obtain ⟨-, rfl⟩ := returns_pure.1 hsource
      exact ⟨_, rfl, by simp, rfl, by simp⟩
    | some q =>
      simp only [returns_get_bind] at hsource
      split at hsource
      · rename_i handle hq
        obtain ⟨-, rfl⟩ := hsource.unique returns_modifySelf
        have hq' : w.cell q = some (.file (some handle)) := hq
        simp only [hq']
        refine ⟨_, rfl, ?_, rfl, ?_⟩
        · unfold World.source
          rw [World.setComponent_component]
          rfl
        · rw [World.setComponent_component]
          exact World.setScopes_scopeStack s₂
      · exact absurd hsource returns_throw
  -- the position
  obtain ⟨hsource₄, hcell₄, hscopes₄⟩ : u₄.source this = { g with pos := position } ∧
      u₄.cell = w.cell ∧ (u₄.component this).scopeStack = some s₂ := by
    unfold Component.returnToPosition at hposition
    obtain ⟨q, x, hfollow, hseek⟩ := returns_bind.1 hposition
    obtain ⟨hq, rfl⟩ := returns_follow.1 hfollow
    obtain rfl := Option.some.inj hq
    rw [returns_get_bind, hcell₃, hcell] at hseek
    obtain ⟨h, hset, rfl⟩ := returns_onSource.1 hseek
    obtain ⟨-, rfl⟩ := hset.unique returns_seekSet
    refine ⟨?_, hcell₃, hscopes₃⟩
    rw [World.source_setSource, hsource₃]
  -- the scopes
  have hs₄ : ScopesAre (u₄.component this).scopeStack (pre ++ f :: post) es := by
    rw [hscopes₄]
    exact hholds₂
  obtain ⟨s₅, rfl, hholds₅⟩ := hs₄.exitsTo hpre hbind hexitTo
  obtain ⟨b, ls, hls⟩ : ∃ b ls, (pre ++ f :: post).drop (pre.length - 1) = b :: ls := by
    refine List.exists_cons_of_ne_nil fun hnil => ?_
    have hlen := congrArg List.length hnil
    simp at hlen
    omega
  rw [hls] at hholds₅
  have hs₅ : ScopesAre ((u₄.setScopes this s₅).component this).scopeStack (b :: ls) es := by
    rw [World.setScopes_scopeStack]
    exact hholds₅
  obtain ⟨s₆, rfl, hholds₆⟩ := hs₅.exits hexit
  refine ⟨⟨g, hfile, by simp [hsource₄]⟩, hcell₄, ?_⟩
  rw [World.setScopes_scopeStack, ← drop_pred_tail, hls]
  exact hholds₆

/-! ### A call -/

/-- No parameter of the procedure has a reserved name. -/
def Procedure.Unreserved (proc : Procedure) : Prop :=
  ∀ i name, proc.parameterNames.getElementN i = some (some name) → ¬ Reserved name

theorem Procedure.unreserved_of_isEmpty {proc : Procedure}
    (h : proc.parameterNames.first = none) : proc.Unreserved := by
  intro i name hname
  unfold IteratedList.getElementN at hname
  rw [h] at hname
  cases i <;> simp [IteratedList.skipFrom] at hname

theorem undisturbed_bindArguments {reserved : CString → Prop} {proc : Procedure}
    (hproc : ∀ i name, proc.parameterNames.getElementN i = some (some name) → ¬ reserved name)
    (parameters i : ℕ) :
    Respects (Undisturbed this reserved)
      (Component.bindArguments this proc.parameterNames parameters i) := by
  induction parameters generalizing i with
  | zero => exact Respects.pure
  | succ parameters ih =>
    intro w a w' hrun
    unfold Component.bindArguments at hrun
    obtain ⟨element, u, helement, hrest⟩ := returns_bind.1 hrun
    obtain ⟨hget, rfl⟩ := returns_follow.1 helement
    obtain ⟨name, x, hname, hbind⟩ := returns_bind.1 hrest
    obtain ⟨rfl, rfl⟩ := returns_follow.1 hname
    have hunreserved := hproc i name hget
    have hall : Respects (Undisturbed this reserved) (do
        Component.declareVariable this name
        let value ← popData this
        let _ ← onScopes this (·.store name value)
        Component.bindArguments this proc.parameterNames parameters (i + 1)) :=
      (undisturbed_declareVariable hunreserved).bind fun _ =>
        footprint_undisturbed.popData.bind fun _ =>
          (undisturbed_storeVariable hunreserved).bind fun _ => ih _
    exact hall _ _ _ hbind

theorem enterScope_enters (hw : Settled this w)
    (hs : ScopesAre (w.component this).scopeStack levels es)
    (hrun : Returns (Component.enterScope this) w () w') :
    Settled this w' ∧ w'.cell = w.cell ∧ w'.source this = w.source this ∧
      ∃ a es', ScopesAre (w'.component this).scopeStack (a :: levels) es' ∧ es' a = [] ∧
        ∀ b ∈ levels, es' b = es b := by
  obtain rfl := returns_enterScope.1 hrun
  refine ⟨hw.setComponent (hw.sourceFile this), rfl, World.source_setComponent (by rfl), ?_⟩
  rw [World.setComponent_component]
  exact scopesAre_enterScope hs

/-- The position in the source is put on the heap. -/
theorem position_saved {fPos address : ℕ} (hftell : Returns (onSource this ftell) w fPos u)
    (halloc : Returns (alloc (.long fPos)) u address v) :
    Undisturbed this Reserved w v ∧ v.component = w.component ∧
      v.cell address = some (.long (w.source this).pos) := by
  have hread : Undisturbed this Reserved w u := footprint_undisturbed.ftell _ _ _ hftell
  have hnew : Undisturbed this Reserved u v := footprint_undisturbed.allocate (by simp) _ _ _ halloc
  refine ⟨trans_of (Undisturbed this Reserved) hread hnew, ?_⟩
  obtain ⟨g, hg, rfl⟩ := returns_onSource.1 hftell
  obtain ⟨rfl, rfl⟩ := returns_ftell.1 hg
  obtain ⟨rfl, rfl⟩ := halloc.unique returns_alloc
  exact ⟨rfl, Function.update_self ..⟩

/-- A call enters a scope and binds in it the position behind the call; what was there stays. -/
theorem returns_callOwn {proc : Procedure} (hproc : proc.Unreserved) (hw : Settled this w)
    (hs : ScopesAre (w.component this).scopeStack levels es)
    (hrun : Returns (Component.callOwn this proc) w () w') :
    Settled this w' ∧ (∀ q c, w.cell q = some c → c.Fixed → w'.cell q = some c) ∧
      (w'.source this).contents = (w.source this).contents ∧
      ∃ f p es', ScopesAre (w'.component this).scopeStack (f :: levels) es' ∧
        ScopeStack.Binds es' returnAddress f p ∧ ScopeStack.Passes es' returnSource f ∧
        w'.cell p = some (.long (w.source this).pos) ∧
        ScopeStack.SameFor Reserved levels es es' := by
  unfold Component.callOwn at hrun
  obtain ⟨_, u₁, henter, hrun₁⟩ := returns_bind.1 hrun
  obtain ⟨fPos, u₂, hftell, hrun₂⟩ := returns_bind.1 hrun₁
  obtain ⟨address, u₃, halloc, hrun₃⟩ := returns_bind.1 hrun₂
  obtain ⟨_, u₄, hbind, hrun₄⟩ := returns_bind.1 hrun₃
  obtain ⟨hu₁, hcell₁, hsource₁, f, es₁, hs₁, hempty, hsame₁⟩ := enterScope_enters hw hs henter
  obtain ⟨hsaved, hcomponent, haddress⟩ := position_saved hftell halloc
  obtain ⟨hu₃, hkept₃⟩ := hsaved hu₁
  -- the position is bound in the new scope, which is empty
  have hs₃ : ScopesAre (u₃.component this).scopeStack (f :: levels) es₁ := by
    rw [hcomponent]
    exact hs₁
  have hnew : ∀ e ∈ es₁ f, e.2.key ≠ returnAddress := by
    rw [hempty]
    simp
  obtain ⟨s, es₂, rfl, hholds, hbinds, hothers, hsame₂⟩ := hs₃.binds hnew hbind
  have hbound : Undisturbed this noName u₃ (u₃.setScopes this s) :=
    undisturbed_bindVariable (not_noName _) _ _ _ hbind
  obtain ⟨hu₄, hkept₄⟩ := hbound hu₃
  have hpasses : ScopeStack.Passes es₂ returnSource f := by
    refine hothers.passes (by decide) (by simp) fun e he _ => ?_
    rw [hempty] at he
    cases he
  -- the parameters are bound under names that are not reserved
  have hrest : Respects (Undisturbed this Reserved) (do
      let parameters ← follow proc.parameterNames.getListLength
      Component.bindArguments this proc.parameterNames parameters 0
      onSource this (seekSet proc.position)) :=
    keeps_follow.respects.bind fun _ => (undisturbed_bindArguments hproc _ _).bind fun _ =>
      footprint_undisturbed.seekSet
  obtain ⟨hw', hkept⟩ := hrest _ _ _ hrun₄ hu₄
  have hs₄ : ScopesAre ((u₃.setScopes this s).component this).scopeStack (f :: levels) es₂ := by
    rw [World.setScopes_scopeStack]
    exact hholds
  obtain ⟨es₃, hs', hsame₃⟩ := hkept.scopes (f :: levels) es₂ hs₄
  have hcells : ∀ q c, u₃.cell q = some c → c.Fixed → w'.cell q = some c :=
    fun q c hc hfixed => hkept.cells q c (hkept₄.cells q c hc hfixed) hfixed
  refine ⟨hw', fun q c hc hfixed => ?_, ?_, f, address, es₃, hs', hsame₃.binds (.inl rfl) (by simp)
    hbinds, hsame₃.passes (.inr rfl) (by simp) hpasses, ?_, ?_⟩
  · rw [← hcell₁] at hc
    exact hcells q c (hkept₃.cells q c hc hfixed) hfixed
  · rw [hkept.contents, hkept₄.contents, hkept₃.contents, hsource₁]
  · rw [hsource₁] at haddress
    exact hcells _ _ haddress trivial
  · have hdistinct := (List.nodup_cons.1 hholds.distinct).1
    have heq : ∀ b ∈ levels, es₂ b = es b := by
      intro b hb
      have hne : b ≠ f := by
        rintro rfl
        exact hdistinct hb
      rw [hsame₂ b hne, hsame₁ b hb]
    exact (ScopeStack.SameFor.of_eq heq).trans
      (hsame₃.mono fun b hb => List.mem_cons_of_mem f hb)

/-! ### Runs with open calls -/

/-- What a call finds, and its return is to restore: the levels of the scope stack, and the source
behind the call. -/
structure Frame where
  levels : List ℕ
  file : File

/-- A return from the call of `frame`: the states in which `component_procReturn` begins and in which
it is done. -/
structure Return where
  frame : Frame
  before : World
  after : World

/-- In the round at `u`, `component_procReturn` begins in the state `v`. -/
inductive EntersReturn (this : ℕ) (u v : World) : Prop
  | procReturn (op : u.opcodeAt this = some .procReturn)
      (reads : v = u.setSource this ((u.source this).advance 1))
  | blockEnd {p : ℕ} (op : u.opcodeAt this = some .blockEnd)
      (outside : (u.component this).inProject = false)
      (found : Returns (onScopes this (·.load returnAddress))
        (u.setSource this ((u.source this).advance 1)) (some p) v)

/-- The component is in front of the call of a procedure that it declared itself. -/
structure LocalCall (this : ℕ) (u : World) (name : Name) (r : List UInt8) : Prop where
  instruction : (u.source this).rest = (Instruction.procCall name).encode ++ r
  found : ∃ procs procs' proc, (u.component this).procs = some procs ∧
    procs.get (literal name.bytes) = some (some proc, procs') ∧ proc.Unreserved

/-- The component runs from `w₀` to `w`: the calls that are open in `w`, the innermost first, and the
returns that were made, the last first. Rounds that are none of the others leave the levels and
what calls have bound as they are. -/
inductive CallRun (doubles : Doubles D) (channelInstruction : Opcode → ℕ → Exec Unit) (this : ℕ)
    (w₀ : World) : List Frame → List Return → World → Prop
  | start : CallRun doubles channelInstruction this w₀ [] [] w₀
  | other {frames : List Frame} {returns : List Return} {u w : World} {n : ℕ}
      (before : CallRun doubles channelInstruction this w₀ frames returns u)
      (run : Runs doubles channelInstruction this n u w)
      (undisturbed : Undisturbed this Reserved u w) :
      CallRun doubles channelInstruction this w₀ frames returns w
  | enterScope {frames : List Frame} {returns : List Return} {u w : World}
      (before : CallRun doubles channelInstruction this w₀ frames returns u)
      (op : u.opcodeAt this = some .enterScope)
      (run : Runs doubles channelInstruction this 1 u w) :
      CallRun doubles channelInstruction this w₀ frames returns w
  | projectEntry {frames : List Frame} {returns : List Return} {u w : World} {name : Name}
      {r : List UInt8} (before : CallRun doubles channelInstruction this w₀ frames returns u)
      (instruction : (u.source this).rest = (Instruction.projectEntry name).encode ++ r)
      (unreserved : ¬ Reserved (literal name.bytes))
      (run : Runs doubles channelInstruction this 1 u w) :
      CallRun doubles channelInstruction this w₀ frames returns w
  /-- The body of a procedure leaves the scopes that it has entered. -/
  | exitScope {frames : List Frame} {returns : List Return} {u w : World} {a : ℕ} {ls : List ℕ}
      {es : ℕ → List (ListMap.Located ℕ)}
      (before : CallRun doubles channelInstruction this w₀ frames returns u)
      (op : u.opcodeAt this = some .exitScope ∨ u.opcodeAt this = some .projectExit)
      (levels : ScopesAre (u.component this).scopeStack (a :: ls) es)
      (own : ∀ frame ∈ frames.head?, frame.levels.length < ls.length)
      (run : Runs doubles channelInstruction this 1 u w) :
      CallRun doubles channelInstruction this w₀ frames returns w
  | call {frames : List Frame} {returns : List Return} {u w : World} {name : Name} {r : List UInt8}
      {ls : List ℕ} {es : ℕ → List (ListMap.Located ℕ)}
      (before : CallRun doubles channelInstruction this w₀ frames returns u)
      (calls : LocalCall this u name r) (levels : ScopesAre (u.component this).scopeStack ls es)
      (run : Runs doubles channelInstruction this 1 u w) :
      CallRun doubles channelInstruction this w₀
        (⟨ls, (u.source this).advance (Instruction.procCall name).encode.length⟩ :: frames) returns w
  | ret {frame : Frame} {frames : List Frame} {returns : List Return} {u v w : World}
      (before : CallRun doubles channelInstruction this w₀ (frame :: frames) returns u)
      (enters : EntersReturn this u v) (run : Runs doubles channelInstruction this 1 u w) :
      CallRun doubles channelInstruction this w₀ frames (⟨frame, v, w⟩ :: returns) w

/-- A round that leaves the levels and what calls have bound as they are. -/
theorem CallRun.plain {frames : List Frame} {returns : List Return} {w₀ : World} {op : Opcode}
    (before : CallRun doubles channelInstruction this w₀ frames returns u)
    (hop : u.opcodeAt this = some op) (hplain : op.Plain)
    (hrun : Runs doubles channelInstruction this 1 u w) :
    CallRun doubles channelInstruction this w₀ frames returns w :=
  .other before hrun (trans_of (Undisturbed this Reserved) undisturbed_opcode
    (footprint_undisturbed.plain hplain _ _ _ (hrun.handler hop)))

/-- So does a declaration of a name that is not reserved, and so does a store. -/
theorem CallRun.names {frames : List Frame} {returns : List Return} {w₀ : World} {i : Instruction}
    {name : Name} {r : List UInt8}
    (before : CallRun doubles channelInstruction this w₀ frames returns u)
    (hname : ¬ Reserved (literal name.bytes))
    (hi : i = .store name ∨ ∃ type, i = .declare name type)
    (hrest : (u.source this).rest = i.encode ++ r)
    (hrun : Runs doubles channelInstruction this 1 u w) :
    CallRun doubles channelInstruction this w₀ frames returns w := by
  refine .other before hrun (trans_of (Undisturbed this Reserved) undisturbed_opcode ?_)
  obtain ⟨hoperands, hexec⟩ := hrun.instruction hrest
  have hsource : (u.setSource this ((u.source this).advance 1)).source this =
      (u.source this).advance 1 := World.source_setSource _
  rw [← hsource] at hoperands
  rcases hi with rfl | ⟨type, rfl⟩
  · exact undisturbed_store hname hoperands hexec
  · exact undisturbed_declare hname hoperands hexec

/-- The return restores what the call found. -/
def Restores (this : ℕ) (r : Return) : Prop :=
  (∃ es, ScopesAre (r.after.component this).scopeStack r.frame.levels es) ∧
    r.after.source this = r.frame.file

/-- When the return begins, no scope of the body is open, and the file it will read is the one of
the call. -/
def Clean (this : ℕ) (r : Return) : Prop :=
  (∃ a es, ScopesAre (r.before.component this).scopeStack (a :: r.frame.levels) es) ∧
    ∃ g, r.before.returnFile this = some g ∧ g.contents = r.frame.file.contents

/-! ### The scopes of open calls -/

/-- The scopes of the open calls lie in the levels, each with the position that its return needs. -/
inductive Open (this : ℕ) (w : World) (es : ℕ → List (ListMap.Located ℕ)) :
    List Frame → List ℕ → Prop
  | nil (levels : List ℕ) : Open this w es [] levels
  | cons {frame : Frame} {frames : List Frame} {pre : List ℕ} {f p : ℕ}
      (passes : ∀ b ∈ pre, ScopeStack.Passes es returnAddress b)
      (binds : ScopeStack.Binds es returnAddress f p)
      (position : w.cell p = some (.long frame.file.pos))
      (contents : frame.file.contents = (w.source this).contents)
      (outer : Open this w es frames frame.levels) :
      Open this w es (frame :: frames) (pre ++ f :: frame.levels)

variable {frame : Frame} {frames : List Frame} {returns : List Return} {w₀ : World}
  {es' : ℕ → List (ListMap.Located ℕ)}

theorem Open.keep (h : Open this w es frames levels)
    (hsame : ScopeStack.SameFor Reserved levels es es')
    (hcells : ∀ q c, w.cell q = some c → c.Fixed → w'.cell q = some c)
    (hcontents : (w'.source this).contents = (w.source this).contents) :
    Open this w' es' frames levels := by
  induction h with
  | nil levels => exact .nil levels
  | cons passes binds position contents _ ih =>
    refine .cons (fun b hb => ?_) (hsame.binds (.inl rfl) (by simp) binds)
      (hcells _ _ position trivial) (contents.trans hcontents.symm) (ih ?_)
    · exact hsame.passes (.inl rfl) (List.mem_append_left _ hb) (passes b hb)
    · exact hsame.mono fun b hb => List.mem_append_right _ (List.mem_cons_of_mem _ hb)

theorem Open.enter (h : Open this w es frames levels) (hpass : ScopeStack.Passes es returnAddress a) :
    Open this w es frames (a :: levels) := by
  cases h with
  | nil => exact .nil _
  | @cons frame frames pre f p passes binds position contents outer =>
    have hpasses : ∀ b ∈ a :: pre, ScopeStack.Passes es returnAddress b := by
      intro b hb
      rcases List.mem_cons.1 hb with rfl | hb
      · exact hpass
      · exact passes b hb
    exact Open.cons hpasses binds position contents outer

theorem Open.exit (h : Open this w es frames (a :: levels))
    (hown : ∀ frame ∈ frames.head?, frame.levels.length < levels.length) :
    Open this w es frames levels := by
  generalize hls : a :: levels = ls at h
  cases h with
  | nil => exact .nil _
  | @cons frame _ pre f p passes binds position contents outer =>
    cases pre with
    | nil =>
      obtain ⟨-, rfl⟩ := List.cons.inj hls
      exact absurd (hown frame rfl) (Nat.lt_irrefl _)
    | cons b pre =>
      obtain ⟨-, rfl⟩ := List.cons.inj hls
      exact .cons (fun c hc => passes c (List.mem_cons_of_mem _ hc)) binds position contents outer

/-- What holds in a run as long as every return restores what it is to. -/
structure CallsOpen (this : ℕ) (frames : List Frame) (w : World) : Prop where
  settled : Settled this w
  scopes : ∃ levels es, ScopesAre (w.component this).scopeStack levels es ∧
    Open this w es frames levels

theorem CallsOpen.undisturbed (h : CallsOpen this frames w) (hrun : Undisturbed this Reserved w w') :
    CallsOpen this frames w' := by
  obtain ⟨hw', hkept⟩ := hrun h.settled
  obtain ⟨levels, es, hs, hopen⟩ := h.scopes
  obtain ⟨es', hs', hsame⟩ := hkept.scopes levels es hs
  exact ⟨hw', levels, es', hs', hopen.keep hsame hkept.cells hkept.contents⟩

theorem CallsOpen.enterScope (h : CallsOpen this frames w)
    (hrun : Returns (Component.enterScope this) w () w') : CallsOpen this frames w' := by
  obtain ⟨levels, es, hs, hopen⟩ := h.scopes
  obtain ⟨hw', hcell, hsource, a, es', hs', hempty, hsame⟩ := enterScope_enters h.settled hs hrun
  refine ⟨hw', a :: levels, es', hs', Open.enter (hopen.keep (.of_eq hsame) ?_ ?_) ?_⟩
  · intro q c hc _
    rw [hcell]
    exact hc
  · rw [hsource]
  · intro e he
    rw [hempty] at he
    cases he

theorem CallsOpen.exitScope {ls : List ℕ} (h : CallsOpen this frames w)
    (hs : ScopesAre (w.component this).scopeStack (a :: ls) es)
    (hown : ∀ frame ∈ frames.head?, frame.levels.length < ls.length)
    (hrun : Returns (Component.exitScope this) w () w') : CallsOpen this frames w' := by
  obtain ⟨levels, es', hs', hopen⟩ := h.scopes
  obtain rfl := hs.unique hs'
  obtain ⟨s, rfl, hholds⟩ := hs'.exits hrun
  refine ⟨h.settled.setComponent (h.settled.sourceFile this), ls, es', ?_, ?_⟩
  · rw [World.setScopes_scopeStack]
    exact hholds
  · refine (hopen.exit hown).keep .refl (fun _ _ hc _ => hc) ?_
    rw [World.setScopes_source]

theorem CallsOpen.projectExit {ls : List ℕ} (h : CallsOpen this frames w)
    (hs : ScopesAre (w.component this).scopeStack (a :: ls) es)
    (hown : ∀ frame ∈ frames.head?, frame.levels.length < ls.length)
    (hrun : Returns (Component.projectExit this) w () w') : CallsOpen this frames w' := by
  unfold Component.projectExit at hrun
  rw [returns_self.bind_iff] at hrun
  split_ifs at hrun with hproject
  · exact absurd hrun returns_fatal
  · obtain ⟨_, u, hexit, hlast⟩ := returns_bind.1 hrun
    obtain ⟨-, rfl⟩ := hlast.unique returns_modifySelf
    obtain ⟨hu, levels, es', hs', hopen⟩ := h.exitScope hs hown hexit
    refine ⟨hu.setComponent (hu.sourceFile this), levels, es', ?_, ?_⟩
    · rw [World.setComponent_component]
      exact hs'
    · refine hopen.keep .refl (fun _ _ hc _ => hc) ?_
      rw [World.source_setComponent (by rfl)]

/-- What `PROJECT_ENTRY` does behind the scope that it enters. -/
theorem undisturbed_projectEntry {name : Name} {r : List UInt8}
    (hname : ¬ Reserved (literal name.bytes)) (hrest : (w.source this).rest = name.encode ++ r)
    (hrun : Returns (do
      let anyObject ← popData this
      let (_, projectedObject) ← typedObject anyObject
      let asName ← onSource this readString
      Component.bindVariable this asName projectedObject
      let w ← get
      Component.tryBlocks this projectedObject (w.source this).rounds) w () w') :
    Undisturbed this Reserved w w' := by
  obtain ⟨anyObject, u, hpop, hrun₁⟩ := returns_bind.1 hrun
  obtain ⟨⟨type, projectedObject⟩, u', htyped, hrun₂⟩ := returns_bind.1 hrun₁
  obtain ⟨-, rfl⟩ := returns_typedObject.1 htyped
  have hpopped : Undisturbed this Reserved w u' := footprint_undisturbed.popData _ _ _ hpop
  obtain ⟨s, -, rfl⟩ := returns_popData.1 hpop
  have hsource : ((w.setComponent this { w.component this with dataStack := s }).source this).rest =
      name.encode ++ r := by
    rw [World.source_setComponent (by rfl)]
    exact hrest
  have hread : Returns (onSource this readString) _ (literal name.bytes) _ :=
    returns_onSource.2 ⟨_, reads_name name _ r hsource, rfl⟩
  rw [hread.bind_iff] at hrun₂
  have hlast : Respects (Undisturbed this Reserved) (do
      Component.bindVariable this (literal name.bytes) projectedObject
      let w ← get
      Component.tryBlocks this projectedObject (w.source this).rounds) :=
    (undisturbed_bindVariable hname).bind fun _ => Respects.bind Respects.get fun _ =>
      undisturbed_tryBlocks _
  exact trans_of (Undisturbed this Reserved) hpopped
    (trans_of (Undisturbed this Reserved) (footprint_undisturbed.readString _ _ _ hread)
      (hlast _ _ _ hrun₂))

theorem CallsOpen.projectEntry {name : Name} {r : List UInt8} (h : CallsOpen this frames w)
    (hname : ¬ Reserved (literal name.bytes)) (hrest : (w.source this).rest = name.encode ++ r)
    (hrun : Returns (Component.projectEntry this) w () w') : CallsOpen this frames w' := by
  unfold Component.projectEntry at hrun
  obtain ⟨_, u, henter, hrun₁⟩ := returns_bind.1 hrun
  refine (h.enterScope henter).undisturbed (undisturbed_projectEntry (r := r) hname ?_ hrun₁)
  obtain rfl := returns_enterScope.1 henter
  rw [World.source_setComponent (by rfl)]
  exact hrest

/-- A look for a procedure moves the cursor of the map that it looks in. -/
theorem returns_findProc {owner : ℕ} {procName : CString} {found : Option Procedure}
    (hrun : Returns (Component.findProc owner procName) w found w') :
    ((w.component owner).procs = none ∧ found = none ∧ w' = w) ∨
      ∃ procs procs', (w.component owner).procs = some procs ∧
        procs.get procName = some (found, procs') ∧
        w' = w.setComponent owner { w.component owner with procs := some procs' } := by
  unfold Component.findProc at hrun
  rw [returns_self.bind_iff] at hrun
  cases hprocs : (w.component owner).procs with
  | none =>
    rw [hprocs] at hrun
    obtain ⟨rfl, rfl⟩ := returns_pure.1 hrun
    exact .inl ⟨rfl, rfl, rfl⟩
  | some procs =>
    rw [hprocs] at hrun
    obtain ⟨⟨proc, procs'⟩, u, hfollow, hlast⟩ := returns_bind.1 hrun
    obtain ⟨hget, rfl⟩ := returns_follow.1 hfollow
    rw [returns_modifySelf.bind_iff, returns_pure] at hlast
    obtain ⟨rfl, rfl⟩ := hlast
    exact .inr ⟨procs, procs', rfl, hget, rfl⟩

/-- The round of a call reads the name of the procedure, and then looks for it. -/
theorem Runs.procCall {name : Name} {r : List UInt8}
    (hcall : (w.source this).rest = (Instruction.procCall name).encode ++ r)
    (hrun : Runs doubles channelInstruction this 1 w w') :
    Returns (do
      match ← Component.findProc this (literal name.bytes) with
      | some proc => Component.callOwn this proc
      | none =>
        let w ← get
        match ← Component.findProc w.mainComponent (literal name.bytes) with
        | some proc => Component.callGlobal this proc
        | none => Component.callStandard this (literal name.bytes))
      (w.setSource this ((w.source this).advance (Instruction.procCall name).encode.length)) () w' := by
  obtain ⟨hrest, hexec⟩ := hrun.instruction hcall
  have hrest₁ : ((w.setSource this ((w.source this).advance 1)).source this).rest =
      name.encode ++ r := by
    rw [World.source_setSource]
    exact hrest
  have hread : Returns (onSource this readString)
      (w.setSource this ((w.source this).advance 1)) (literal name.bytes) _ :=
    returns_onSource.2 ⟨_, reads_name name _ r hrest₁, rfl⟩
  have hexec : Returns (Component.procCall this) _ () w' := hexec
  unfold Component.procCall at hexec
  rw [hread.bind_iff, World.source_setSource, File.advance_advance, World.setSource_setSource] at hexec
  have hlength : 1 + name.encode.length = (Instruction.procCall name).encode.length := by
    show 1 + name.encode.length = (Opcode.procCall.byte :: name.encode).length
    rw [List.length_cons]
    omega
  rwa [hlength] at hexec

/-- The scopes and the source are as they were but for the instruction that was read. -/
structure Reached (this : ℕ) (w v : World) (length : ℕ) : Prop where
  undisturbed : Undisturbed this Reserved w v
  scopeStack : (v.component this).scopeStack = (w.component this).scopeStack
  source : v.source this = (w.source this).advance length

theorem reached_setSource (length : ℕ) :
    Reached this w (w.setSource this ((w.source this).advance length)) length :=
  ⟨undisturbed_setSource rfl, rfl, World.source_setSource _⟩

theorem Reached.findProc {owner length : ℕ} {procName : CString} {found : Option Procedure}
    (h : Reached this w u length) (hrun : Returns (Component.findProc owner procName) u found v) :
    Reached this w v length := by
  have hfinds : Undisturbed this Reserved u v := footprint_undisturbed.findProc _ _ _ hrun
  refine ⟨trans_of (Undisturbed this Reserved) h.undisturbed hfinds, ?_, ?_⟩
  · rw [← h.scopeStack]
    rcases returns_findProc hrun with ⟨-, -, rfl⟩ | ⟨procs, procs', -, -, rfl⟩
    · rfl
    · by_cases howner : this = owner
      · subst howner
        rw [World.setComponent_component]
      · exact congrArg Component.scopeStack (Function.update_of_ne howner ..)
  · rw [← h.source]
    rcases returns_findProc hrun with ⟨-, -, rfl⟩ | ⟨procs, procs', -, -, rfl⟩
    · rfl
    · by_cases howner : this = owner
      · subst howner
        exact World.source_setComponent (by rfl)
      · exact congrArg (fun c : Component => u.file c.sourceFile) (Function.update_of_ne howner ..)

/-- The round of a call of a procedure that the component declared comes to `callOwn`. -/
theorem Runs.callsOwn {name : Name} {r : List UInt8} {procs procs' : ListMap Procedure}
    {proc : Procedure} (hcall : (w.source this).rest = (Instruction.procCall name).encode ++ r)
    (hprocs : (w.component this).procs = some procs)
    (hget : procs.get (literal name.bytes) = some (some proc, procs'))
    (hrun : Runs doubles channelInstruction this 1 w w') :
    ∃ v, Reached this w v (Instruction.procCall name).encode.length ∧
      Returns (Component.callOwn this proc) v () w' := by
  obtain ⟨found, v, hfind, hcall⟩ := returns_bind.1 (hrun.procCall hcall)
  obtain rfl : found = some proc := by
    rcases returns_findProc hfind with ⟨hnone, -, -⟩ | ⟨procs₁, procs₂, hprocs₁, hget₁, -⟩
    · rw [World.setSource_component, hprocs] at hnone
      cases hnone
    · rw [World.setSource_component, hprocs] at hprocs₁
      obtain rfl := Option.some.inj hprocs₁
      rw [hget] at hget₁
      exact (Prod.mk.inj (Option.some.inj hget₁)).1.symm
  exact ⟨v, (reached_setSource _).findProc hfind, hcall⟩

/-- The round of a local call comes to `callOwn`. -/
theorem LocalCall.enters {name : Name} {r : List UInt8} (h : LocalCall this w name r)
    (hrun : Runs doubles channelInstruction this 1 w w') :
    ∃ proc v, proc.Unreserved ∧ Reached this w v (Instruction.procCall name).encode.length ∧
      Returns (Component.callOwn this proc) v () w' := by
  obtain ⟨procs, procs', proc, hprocs, hget, hproc⟩ := h.found
  obtain ⟨v, hreached, hcall⟩ := hrun.callsOwn h.instruction hprocs hget
  exact ⟨proc, v, hproc, hreached, hcall⟩

/-- The round of a call opens it. -/
theorem CallsOpen.call {name : Name} {r : List UInt8} (h : CallsOpen this frames w)
    (hcall : LocalCall this w name r) (hs : ScopesAre (w.component this).scopeStack levels es)
    (hrun : Runs doubles channelInstruction this 1 w w') :
    CallsOpen this
      (⟨levels, (w.source this).advance (Instruction.procCall name).encode.length⟩ :: frames) w' := by
  obtain ⟨levels', es', hs', hopen⟩ := h.scopes
  obtain rfl := hs.unique hs'
  obtain ⟨proc, u, hproc, hreached, hcallOwn⟩ := hcall.enters hrun
  obtain ⟨hu, hsame⟩ := hreached.undisturbed h.settled
  have hs₁ : ScopesAre (u.component this).scopeStack levels es' := by
    rw [hreached.scopeStack]
    exact hs'
  obtain ⟨hw', hcells, hcontents, f, p, es₂, hs₂, hbinds, -, hposition, hsame₂⟩ :=
    returns_callOwn hproc hu hs₁ hcallOwn
  have hopen' : Open this w' es₂ frames levels := by
    refine hopen.keep hsame₂ (fun q c hc hfixed => ?_) ?_
    · exact hcells q c (hsame.cells q c hc hfixed) hfixed
    · rw [hcontents, hsame.contents]
  have hnone : ∀ b ∈ ([] : List ℕ), ScopeStack.Passes es₂ returnAddress b := by simp
  refine ⟨hw', f :: levels, es₂, hs₂, Open.cons hnone hbinds ?_ ?_ hopen'⟩
  · rw [hposition, hreached.source]
  · rw [hcontents, hreached.source]

/-- The state in which a return begins is like the one at the opcode. -/
theorem EntersReturn.undisturbed (h : EntersReturn this u v) : Undisturbed this Reserved u v := by
  cases h with
  | procReturn _ reads =>
    rw [reads]
    exact undisturbed_opcode
  | blockEnd _ _ found =>
    exact trans_of (Undisturbed this Reserved) undisturbed_opcode (undisturbed_load _ _ _ found)

theorem EntersReturn.runs (h : EntersReturn this u v)
    (hrun : Runs doubles channelInstruction this 1 u w) :
    Returns (Component.procReturn this) v () w := by
  cases h with
  | procReturn op reads =>
    rw [reads]
    exact hrun.handler op
  | blockEnd op outside found =>
    have hexec : Returns (Component.blockEnd this) _ () w := hrun.handler op
    unfold Component.blockEnd at hexec
    rw [returns_self.bind_iff, World.setSource_component, outside, if_neg (by simp),
      found.bind_iff] at hexec
    exact hexec

/-- A return restores what it is to exactly when it is clean, and then the other calls stay open. -/
theorem CallsOpen.ret (h : CallsOpen this (frame :: frames) v)
    (hrun : Returns (Component.procReturn this) v () w) :
    (Restores this ⟨frame, v, w⟩ ↔ Clean this ⟨frame, v, w⟩) ∧
      (Clean this ⟨frame, v, w⟩ → CallsOpen this frames w) := by
  obtain ⟨levels, es, hs, hopen⟩ := h.scopes
  obtain ⟨hw, -⟩ := staysIn_procReturn _ _ _ hrun h.settled
  cases hopen with
  | @cons _ _ pre f p passes binds position contents outer =>
    obtain ⟨⟨g, hfile, hsource⟩, hcell, hs'⟩ := returns_procReturn hs passes binds position hrun
    have hclean : Clean this ⟨frame, v, w⟩ ↔ pre = [] ∧ g.contents = frame.file.contents := by
      constructor
      · rintro ⟨⟨a, es', ha⟩, g', hg', hcontents⟩
        have hlen := congrArg List.length (ha.unique hs)
        rw [hfile] at hg'
        obtain rfl := Option.some.inj hg'
        refine ⟨List.length_eq_zero_iff.1 ?_, hcontents⟩
        simp only [List.length_cons, List.length_append] at hlen
        omega
      · rintro ⟨rfl, hcontents⟩
        exact ⟨⟨f, es, hs⟩, g, hfile, hcontents⟩
    have hrestores : Restores this ⟨frame, v, w⟩ ↔
        pre = [] ∧ g.contents = frame.file.contents := by
      constructor
      · rintro ⟨⟨es', ha⟩, hfrom⟩
        have hlen := congrArg List.length (ha.unique hs')
        refine ⟨List.length_eq_zero_iff.1 ?_, ?_⟩
        · simp only [List.length_drop, List.length_cons, List.length_append] at hlen
          omega
        · have heq : w.source this = frame.file := hfrom
          rw [hsource] at heq
          rw [← heq]
      · rintro ⟨rfl, hcontents⟩
        refine ⟨⟨es, by simpa using hs'⟩, ?_⟩
        show w.source this = frame.file
        rw [hsource, hcontents]
    refine ⟨hrestores.trans hclean.symm, fun hc => ?_⟩
    obtain ⟨rfl, hcontents⟩ := hclean.1 hc
    refine ⟨hw, frame.levels, es, by simpa using hs', ?_⟩
    refine outer.keep .refl (fun q c hc _ => by rw [hcell]; exact hc) ?_
    rw [hsource, ← contents]
    exact hcontents

/-- **Runs.** While each return is clean or restores what it is to, it does both. -/
theorem CallRun.restores_iff (hrun : CallRun doubles channelInstruction this w₀ frames returns w)
    (hw : Settled this w₀) (hs : ∃ levels es, ScopesAre (w₀.component this).scopeStack levels es)
    (heither : ∀ r ∈ returns, Clean this r ∨ Restores this r) :
    CallsOpen this frames w ∧ ∀ r ∈ returns, Restores this r ↔ Clean this r := by
  induction hrun with
  | start =>
    obtain ⟨levels, es, hs⟩ := hs
    exact ⟨⟨hw, levels, es, hs, .nil levels⟩, by simp⟩
  | other _ _ undisturbed ih =>
    obtain ⟨hopen, hiff⟩ := ih heither
    exact ⟨hopen.undisturbed undisturbed, hiff⟩
  | enterScope _ op run ih =>
    obtain ⟨hopen, hiff⟩ := ih heither
    exact ⟨(hopen.undisturbed undisturbed_opcode).enterScope (run.handler op), hiff⟩
  | @projectEntry _ _ u _ _ _ _ instruction unreserved run ih =>
    obtain ⟨hopen, hiff⟩ := ih heither
    obtain ⟨hrest, hexec⟩ := run.instruction instruction
    have hsource : (u.setSource this ((u.source this).advance 1)).source this =
        (u.source this).advance 1 := World.source_setSource _
    rw [← hsource] at hrest
    exact ⟨(hopen.undisturbed undisturbed_opcode).projectEntry unreserved hrest hexec, hiff⟩
  | @exitScope _ _ u w _ _ _ _ op levels own run ih =>
    obtain ⟨hopen, hiff⟩ := ih heither
    have hopcode := hopen.undisturbed undisturbed_opcode
    refine ⟨?_, hiff⟩
    rcases op with op | op
    · exact hopcode.exitScope levels own (run.handler op)
    · exact hopcode.projectExit levels own (run.handler op)
  | call _ calls levels run ih =>
    obtain ⟨hopen, hiff⟩ := ih heither
    exact ⟨hopen.call calls levels run, hiff⟩
  | @ret frame frames returns u v w _ enters run ih =>
    obtain ⟨hopen, hiff⟩ := ih fun r hr => heither r (List.mem_cons_of_mem _ hr)
    obtain ⟨hthis, hnext⟩ := (hopen.undisturbed enters.undisturbed).ret (enters.runs run)
    have hclean : Clean this ⟨frame, v, w⟩ := by
      rcases heither _ List.mem_cons_self with hclean | hrestores
      · exact hclean
      · exact hthis.1 hrestores
    refine ⟨hnext hclean, fun r hr => ?_⟩
    rcases List.mem_cons.1 hr with rfl | hr
    · exact hthis
    · exact hiff r hr

/-- **Every return of a run restores the levels and the position of its call if and only if every
return begins with no scope of the body open and goes on in the file of the call.** -/
theorem procReturn_restores_iff
    (hrun : CallRun doubles channelInstruction this w₀ frames returns w) (hw : Settled this w₀)
    (hs : ∃ levels es, ScopesAre (w₀.component this).scopeStack levels es) :
    (∀ r ∈ returns, Restores this r) ↔ ∀ r ∈ returns, Clean this r := by
  constructor
  · intro h
    obtain ⟨-, hiff⟩ := hrun.restores_iff hw hs fun r hr => .inr (h r hr)
    exact fun r hr => (hiff r hr).1 (h r hr)
  · intro h
    obtain ⟨-, hiff⟩ := hrun.restores_iff hw hs fun r hr => .inl (h r hr)
    exact fun r hr => (hiff r hr).2 (h r hr)

/-! ### One procedure -/

theorem ScopesAre.length_eq (hs : ScopesAre (w.component this).scopeStack levels es) {n : ℕ}
    (hn : (w.component this).scopeStack.bind ScopeStack.size = some n) : levels.length = n := by
  cases hscope : (w.component this).scopeStack with
  | none =>
    rw [hscope] at hn
    cases hn
  | some s =>
    rw [hscope] at hs hn
    exact Option.some.inj ((ScopeStack.Holds.size_eq hs).symm.trans hn)

def procedureP : Name := ⟨[112], by decide⟩

/-- The procedures when there is one, without parameters. -/
def oneProcedure (position : ℕ) : Option (ListMap Procedure) := do
  let procs ← ListMap.constructor.declare (literal procedureP.bytes)
  let (_, procs) ← procs.put (literal procedureP.bytes)
    (some ⟨literal procedureP.bytes, position, IteratedList.constructList⟩)
  return procs

/-- A machine in front of a call; the body of the procedure stands behind it and an `EXITSCOPE`. -/
def inFrontOfCall (body : List UInt8) : World :=
  let w := World.atCode ((Instruction.procCall procedureP).encode ++ Opcode.exitScope.byte :: body)
    (some (ScopeStack.enterScope none)) Stack.constructor []
  w.setComponent 0 { w.component 0 with procs := oneProcedure 5 }

theorem inFrontOfCall_settled (body : List UInt8) : Settled 0 (inFrontOfCall body) :=
  Settled.setComponent (settled_atCode (by simp)) Nat.zero_lt_one

theorem inFrontOfCall_localCall (body : List UInt8) :
    LocalCall 0 (inFrontOfCall body) procedureP (Opcode.exitScope.byte :: body) where
  instruction := rfl
  found := by
    obtain ⟨procs, procs', hprocs, hget⟩ : ∃ procs procs', oneProcedure 5 = some procs ∧
        procs.get (literal procedureP.bytes) =
          some (some ⟨literal procedureP.bytes, 5, IteratedList.constructList⟩, procs') :=
      ⟨_, _, rfl, rfl⟩
    exact ⟨procs, procs', _, hprocs, hget, Procedure.unreserved_of_isEmpty rfl⟩

/-- The call is left without a scope of its own. -/
theorem procReturn_restores_iff_empty :
    ∃ r w, CallRun binary64 (fun _ _ => pure ()) 0 (inFrontOfCall [Opcode.procReturn.byte]) [] [r] w ∧
      Restores 0 r := by
  have hcalls : (afterRounds binary64 (fun _ _ => pure ()) 0 1
      (inFrontOfCall [Opcode.procReturn.byte])).map (fun u => (u.opcodeAt 0,
        (u.component 0).scopeStack.bind ScopeStack.size,
        ((u.setSource 0 ((u.source 0).advance 1)).returnFile 0).map (·.contents))) =
      some (some .procReturn, some 2,
        some ((inFrontOfCall [Opcode.procReturn.byte]).source 0).contents) := by
    decide +kernel
  obtain ⟨u, hu, hstate⟩ := Option.map_eq_some_iff.1 hcalls
  obtain ⟨hop, hstate⟩ := Prod.mk.inj hstate
  obtain ⟨hsize, hfile⟩ := Prod.mk.inj hstate
  obtain ⟨g, hg, hcontents⟩ := Option.map_eq_some_iff.1 hfile
  have hreturns : (afterRounds binary64 (fun _ _ => pure ()) 0 2
      (inFrontOfCall [Opcode.procReturn.byte])).isSome := by
    decide +kernel
  obtain ⟨w, hw⟩ := Option.isSome_iff_exists.1 hreturns
  obtain ⟨v, hcall, hreturn⟩ := (runs_of_afterRounds hw).split (m := 1) (n := 1)
  obtain rfl := hcall.unique (runs_of_afterRounds hu)
  have hsettled := inFrontOfCall_settled [Opcode.procReturn.byte]
  have hscopes : ScopesAre ((inFrontOfCall [Opcode.procReturn.byte]).component 0).scopeStack [0] _ :=
    ScopeStack.enterScope_null
  have hopen := CallRun.call .start (inFrontOfCall_localCall _) hscopes hcall
  have hrun := CallRun.ret hopen (.procReturn hop rfl) hreturn
  refine ⟨_, w, hrun, (procReturn_restores_iff hrun hsettled ⟨_, _, hscopes⟩).2 ?_ _
    (List.mem_singleton_self _)⟩
  intro r hr
  obtain rfl := List.mem_singleton.1 hr
  refine ⟨?_, g, hg, hcontents⟩
  -- the scope of the call is the only one above
  obtain ⟨⟨-, levels, es, hs, hframe⟩, -⟩ := hopen.restores_iff hsettled ⟨_, _, hscopes⟩ (by simp)
  have hlen := hs.length_eq hsize
  cases hframe with
  | @cons _ _ pre f p passes binds position contents outer =>
    simp only [List.length_append, List.length_cons, List.length_nil] at hlen
    obtain rfl : pre = [] := List.length_eq_zero_iff.1 (by omega)
    exact ⟨f, es, hs⟩

/-- A scope that the body has entered is left, but the one of the call is not. -/
theorem procReturn_leaves_scope :
    ∃ r w, CallRun binary64 (fun _ _ => pure ()) 0
      (inFrontOfCall [Opcode.enterScope.byte, Opcode.procReturn.byte]) [] [r] w ∧
      ¬ Restores 0 r := by
  have hcalls : (afterRounds binary64 (fun _ _ => pure ()) 0 1
      (inFrontOfCall [Opcode.enterScope.byte, Opcode.procReturn.byte])).map (·.opcodeAt 0) =
        some (some .enterScope) := by
    decide +kernel
  obtain ⟨u, hu, hop⟩ := Option.map_eq_some_iff.1 hcalls
  have henters : (afterRounds binary64 (fun _ _ => pure ()) 0 2
      (inFrontOfCall [Opcode.enterScope.byte, Opcode.procReturn.byte])).map (·.opcodeAt 0) =
        some (some .procReturn) := by
    decide +kernel
  obtain ⟨v, hv, hop'⟩ := Option.map_eq_some_iff.1 henters
  have hreturns : (afterRounds binary64 (fun _ _ => pure ()) 0 3
      (inFrontOfCall [Opcode.enterScope.byte, Opcode.procReturn.byte])).map
        (fun w => (w.component 0).scopeStack.bind ScopeStack.size) = some (some 2) := by
    decide +kernel
  obtain ⟨w, hw, hsize⟩ := Option.map_eq_some_iff.1 hreturns
  obtain ⟨v', hfirst, hreturn⟩ := (runs_of_afterRounds hw).split (m := 2) (n := 1)
  obtain ⟨u', hcall, henter⟩ := hfirst.split (m := 1) (n := 1)
  obtain rfl := hfirst.unique (runs_of_afterRounds hv)
  obtain rfl := hcall.unique (runs_of_afterRounds hu)
  have hscopes : ScopesAre ((inFrontOfCall
      [Opcode.enterScope.byte, Opcode.procReturn.byte]).component 0).scopeStack [0] _ :=
    ScopeStack.enterScope_null
  have hopen := CallRun.call .start (inFrontOfCall_localCall _) hscopes hcall
  refine ⟨_, w, .ret (.enterScope hopen hop henter) (.procReturn hop' rfl) hreturn, ?_⟩
  rintro ⟨⟨es, hs⟩, -⟩
  have hlen : [0].length = 2 := ScopesAre.length_eq hs hsize
  cases hlen

end InsenseCVM
