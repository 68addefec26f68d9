import InsenseCVM.Lib.Commands
import InsenseCVM.Machine.ConditionalRuns
import InsenseCVM.Machine.Values

/-!
# Structured programs

Statements as the commands of a language: a statement enters or leaves a scope, declares a variable or
assigns to one, and a test is an expression. A loop is an `IF` whose branch ends with a `JUMP` back to
the test, and the behaviour of a component is a body with a `BEHAVIOUR_JUMP` back to its start. The
distance of a jump back is that from behind the jump, and one more.

`Command.before` gives the code of a command in front of other code. What a command does to frames,
the component does to its variables when it runs through the code.
-/

namespace InsenseCVM
open Execution ByteStream Structured Commands

variable {D : Type} {doubles : Doubles D} {channelInstruction : Opcode → ℕ → Exec Unit} {this : ℕ}
  {w w' u v : World} {d : Datum} {σ σ' τ : Frames Datum} {p n m : ℕ} {xs : List (Option ℕ)}
  {r : List UInt8} {stopped : Bool}

/-! ### Statements -/

inductive Statement
  | enterScope
  | exitScope
  | declare (name : Name) (type : UInt8) (value : Expr)
  | assign (name : Name) (value : Expr)

/-- The variable of a name. -/
def Name.key (name : Name) : CString := literal name.bytes

section Meaning

variable (doubles)

/-- What a statement makes of the frames. -/
def Statement.does : Statement → Frames Datum → Option (Frames Datum)
  | enterScope, σ => some σ.enter
  | exitScope, σ => σ.exit
  | declare name _ value, σ => (value.eval doubles σ).bind fun d => σ.bind name.key d
  | assign name value, σ => (value.eval doubles σ).bind fun d => σ.assign name.key d

/-- What a test finds in the frames. -/
def Expr.finds (test : Expr) (σ : Frames Datum) : Option Bool := (test.eval doubles σ).bind Datum.truth

end Meaning

/-! ### Code -/

/-- A name of no bytes, which is the component itself in a `STOP`. -/
def noBytes : Name := ⟨[], List.not_mem_nil⟩

/-- A jump back over `length` bytes, those of the jump included. -/
def backOver (length : ℕ) : Distance := .ofLength (length + 1)

/-- The bytes of a jump. -/
def jumpLength : ℕ := 6

theorem plain {i : Instruction}
    (h : decide (i.opcode = .ifClause ∨ i.opcode = .elseClause) = false) :
    i.opcode ≠ .ifClause ∧ i.opcode ≠ .elseClause := by
  simpa only [decide_eq_false_iff_not, not_or] using h

theorem plain_not : Instruction.not.opcode ≠ .ifClause ∧ Instruction.not.opcode ≠ .elseClause :=
  plain rfl

/-- The code of an expression in front of other code. -/
def Expr.before : Expr → Structured → Structured
  | literal value, next => .instruction ⟨.push value, plain rfl⟩ next
  | load name, next => .instruction ⟨.load name, plain rfl⟩ next
  | binary op first second, next =>
    first.before (second.before (.instruction ⟨.expression op, plain rfl⟩ next))
  | not operand, next => operand.before (.instruction ⟨.not, plain_not⟩ next)

def Statement.before : Statement → Structured → Structured
  | enterScope, next => .instruction ⟨.enterScope, plain rfl⟩ next
  | exitScope, next => .instruction ⟨.exitScope, plain rfl⟩ next
  | declare name type value, next =>
    value.before (.instruction ⟨.declare name type, plain rfl⟩
      (.instruction ⟨.store name, plain rfl⟩ next))
  | assign name value, next => value.before (.instruction ⟨.store name, plain rfl⟩ next)

/-- The code of a command in front of other code. -/
def before : Command Statement Expr → Structured → Structured
  | .skip, next => next
  | .stop, next => .instruction ⟨.stop noBytes, plain rfl⟩ next
  | .act statement, next => statement.before next
  | .seq first second, next => before first (before second next)
  | .ifThen test branch, next => test.before (.ifThen (before branch .done) next)
  | .ifThenElse test branch elseBranch, next =>
    test.before (.ifThenElse (before branch .done) (before elseBranch .done) next)
  | .loop test body, next =>
    let length := (test.before .done).code.length + 6 + (before body .done).code.length + jumpLength
    test.before
      (.ifThen (before body (.instruction ⟨.jump (backOver length), plain rfl⟩ .done)) next)
  | .forever body, next =>
    let length := (before body .done).code.length + jumpLength
    before body (.instruction ⟨.behaviourJump (backOver length), plain rfl⟩ next)

/-! ### What lies where -/

theorem code_instruction {i : PlainInstruction} {next : Structured} :
    (Structured.instruction i next).code = i.instruction.encode ++ next.code := rfl

theorem code_ifThen {branch next : Structured} :
    (Structured.ifThen branch next).code = branch.ifPart ++ next.code := rfl

theorem code_ifThenElse {branch elseBranch next : Structured} :
    (Structured.ifThenElse branch elseBranch next).code =
      branch.ifPart ++ (elseBranch.elsePart ++ next.code) := rfl

theorem length_ifPart (branch : Structured) : branch.ifPart.length = 6 + branch.code.length := by
  simp [ifPart, Instruction.encode, Instruction.operands]
  omega

theorem length_elsePart (branch : Structured) : branch.elsePart.length = 6 + branch.code.length := by
  simp [elsePart, Instruction.encode, Instruction.operands]
  omega

/-- A jump is as long as its opcode and its distance. -/
theorem length_jump {length : ℕ} :
    (Instruction.jump (backOver length)).encode.length = jumpLength ∧
      (Instruction.behaviourJump (backOver length)).encode.length = jumpLength := by
  simp [Instruction.encode, Instruction.operands, jumpLength]

theorem Expr.code_before (e : Expr) (next : Structured) :
    (e.before next).code = encodeAll e.compile ++ next.code := by
  induction e generalizing next with
  | literal value => rw [before, code_instruction, compile, encodeAll_singleton]
  | load name => rw [before, code_instruction, compile, encodeAll_singleton]
  | binary op first second ihfirst ihsecond =>
    rw [before, ihfirst, ihsecond, code_instruction, compile, encodeAll_append, encodeAll_append,
      encodeAll_singleton, List.append_assoc, List.append_assoc]
  | not operand ih =>
    rw [before, ih, code_instruction, compile, encodeAll_append, encodeAll_singleton,
      List.append_assoc]

theorem Statement.code_before (a : Statement) (next : Structured) :
    (a.before next).code = (a.before .done).code ++ next.code := by
  cases a with
  | enterScope | exitScope => simp only [before, code_instruction, Structured.code, List.append_nil]
  | declare name type value =>
    simp only [before, Expr.code_before, Structured.code, List.append_nil, List.append_assoc]
  | assign name value =>
    simp only [before, Expr.code_before, Structured.code, List.append_nil, List.append_assoc]

theorem code_before (c : Command Statement Expr) (next : Structured) :
    (before c next).code = (before c .done).code ++ next.code := by
  induction c generalizing next with
  | skip => rfl
  | stop => simp only [before, code_instruction, Structured.code, List.append_nil]
  | act a => exact a.code_before next
  | seq first second ihfirst ihsecond =>
    rw [before, before, ihfirst, ihsecond, ihfirst (before second .done), List.append_assoc]
  | ifThen test branch ih =>
    simp only [before, Expr.code_before, Structured.code, List.append_nil, List.append_assoc]
  | ifThenElse test branch elseBranch ih ih' =>
    simp only [before, Expr.code_before, Structured.code, List.append_nil, List.append_assoc]
  | loop test body ih =>
    simp only [before, Expr.code_before, Structured.code, List.append_nil, List.append_assoc]
  | «forever» body ih =>
    rw [before, before, ih, ih (.instruction _ .done), code_instruction, code_instruction,
      List.append_assoc, Structured.code, List.append_nil]

theorem Expr.followed_before {e : Expr} {next : Structured} :
    (e.before next).Followed ↔ next.Followed := by
  induction e generalizing next with
  | literal value => exact Iff.rfl
  | load name => exact Iff.rfl
  | binary op first second ihfirst ihsecond => rw [before, ihfirst, ihsecond, Structured.Followed]
  | not operand ih => rw [before, ih, Structured.Followed]

theorem Statement.followed_before {a : Statement} {next : Structured} :
    (a.before next).Followed ↔ next.Followed := by
  cases a with
  | enterScope | exitScope => exact Iff.rfl
  | declare name type value => rw [before, Expr.followed_before, Structured.Followed,
      Structured.Followed]
  | assign name value => rw [before, Expr.followed_before, Structured.Followed]

theorem followed_of_before {c : Command Statement Expr} {next : Structured}
    (h : (before c next).Followed) : next.Followed := by
  induction c generalizing next with
  | skip => exact h
  | stop => exact h
  | act a => exact Statement.followed_before.1 h
  | seq first second ihfirst ihsecond => exact ihsecond (ihfirst h)
  | ifThen test branch _ => exact (Expr.followed_before.1 h).2.2
  | ifThenElse test branch elseBranch _ _ => exact (Expr.followed_before.1 h).2.2
  | loop test body _ => exact (Expr.followed_before.1 h).2.2
  | «forever» body ih => exact @ih (.instruction _ next) h

/-! ### Statements in the machine -/

namespace Component

theorem stores {R : ℕ → Datum → Prop} {name : Name} {s s' : ScopeStack ℕ}
    (hrest : (w.source this).rest = name.encode ++ r) (hstop : (w.component this).stop = false)
    (hs : (w.component this).scopeStack = some s)
    (hstore : s.store name.key (some p) = some (true, s')) (hshows : s'.Shows R σ)
    (hdata : (w.component this).dataStack.Holds (some p :: xs)) :
    ∃ w', Returns (store this) w () w' ∧ World.Onward this name.encode.length w w' ∧
      w'.Shows this R false σ xs := by
  obtain ⟨d, hpop, hd⟩ := hdata.pop_cons
  have hread : Returns (onSource this readString) w name.key
      (w.setSource this ((w.source this).advance name.encode.length)) :=
    returns_onSource.2 ⟨_, reads_name name _ r hrest, rfl⟩
  refine ⟨_, ?_, World.Onward.trans (m := 0) World.onward_setSource
    (World.onward_setComponent (c := { w.component this with dataStack := d, scopeStack := some s' })
      ⟨_, _, _, rfl⟩), ?_⟩
  · have hvalue : Returns (popData this)
        (w.setSource this ((w.source this).advance name.encode.length)) (some p) _ :=
      returns_popData.2 ⟨d, hpop, rfl⟩
    have hscopes : Returns (onScopes this (·.store name.key (some p)))
        ((w.setSource this ((w.source this).advance name.encode.length)).setComponent this
          { w.component this with dataStack := d }) true _ :=
      returns_onScopes.2 ⟨s, s', by rw [World.setComponent_component]; exact hs, hstore, rfl⟩
    unfold store
    refine hread.bind (hvalue.bind (hscopes.bind ?_))
    rw [if_pos rfl, World.setComponent_setComponent, World.setComponent_component]
    exact returns_pure.2 ⟨rfl, rfl⟩
  · refine ⟨?_, ?_, ?_⟩ <;> rw [World.setComponent_component]
    · exact hstop
    · exact hshows
    · exact hd

/-- A frame is entered. -/
theorem enters {R : ℕ → Datum → Prop} (h : w.Shows this R false σ xs) :
    ∃ w', Returns (enterScope this) w () w' ∧ World.Onward this 0 w w' ∧
      w'.Shows this R false σ.enter xs := by
  refine ⟨_, returns_modifySelf, World.onward_setComponent ⟨_, _, _, rfl⟩, ?_, ?_, ?_⟩ <;>
    rw [World.setComponent_component]
  · exact h.stop
  · have hscopes := h.scopes
    cases hs : (w.component this).scopeStack with
    | none =>
      rw [hs] at hscopes
      obtain rfl : σ = [] := hscopes
      exact ScopeStack.shows_enterScope
    | some s =>
      rw [hs] at hscopes
      exact ScopeStack.Shows.enter hscopes
  · exact h.data

theorem declares {name : Name} {type : UInt8} {s s' : ScopeStack ℕ}
    (hrest : (w.source this).rest = name.encode ++ [type] ++ r)
    (hs : (w.component this).scopeStack = some s)
    (hdeclare : s.declare name.key = some s') :
    ∃ w', Returns (declare this) w () w' ∧ World.Onward this (name.encode ++ [type]).length w w' ∧
      w'.component this = { w.component this with scopeStack := some s' } := by
  have hread : Returns (onSource this readString) w name.key
      (w.setSource this ((w.source this).advance name.encode.length)) := by
    rw [List.append_assoc] at hrest
    exact returns_onSource.2 ⟨_, reads_name name _ _ hrest, rfl⟩
  have hbyte : Returns (onSource this fgetc)
      (w.setSource this ((w.source this).advance name.encode.length)) (some type)
      (w.setSource this ((w.source this).advance (name.encode ++ [type]).length)) := by
    refine returns_onSource.2 ⟨(w.source this).advance (name.encode ++ [type]).length, ?_, ?_⟩
    · rw [World.source_setSource, List.length_append, ← File.advance_advance]
      rw [List.append_assoc] at hrest
      exact returns_fgetc_cons (File.rest_advance hrest)
    · rw [World.setSource_setSource]
  refine ⟨_, ?_, World.Onward.trans (m := 0) World.onward_setSource
    (World.onward_setComponent (c := { w.component this with scopeStack := some s' })
      ⟨_, _, _, rfl⟩),
    World.setComponent_component _⟩
  unfold declare declareVariable
  refine hread.bind (hbyte.bind ?_)
  exact returns_onScopes.2 ⟨s, s', hs, by simp [hdeclare], rfl⟩

end Component

/-- The variables where the values of the heap count as they are. -/
abbrev World.Stands (w : World) (this : ℕ) (stopped : Bool) (σ : Frames Datum)
    (xs : List (Option ℕ)) : Prop :=
  w.Shows this w.Denotes stopped σ xs

theorem World.Shows.stands (h : w'.Shows this w.Denotes stopped σ xs) (hgrows : w.Grows w') :
    w'.Stands this stopped σ xs :=
  h.mono fun _ _ hp => hp.grows hgrows

/-- A round at an instruction in front of other code. -/
theorem Reaches.before {property : World → Prop} {i : PlainInstruction} {next : Structured}
    (hstop : (w.component this).stop = false)
    (hrest : (w.source this).rest = (Structured.instruction i next).code ++ r)
    (hexec : ∀ u, u = w.setSource this ((w.source this).advance 1) →
      (u.source this).rest = i.instruction.operands ++ (next.code ++ r) →
      ∃ w', Returns (execute doubles channelInstruction this i.instruction.opcode) u () w' ∧
        World.Onward this i.instruction.operands.length u w' ∧ property w') :
    ∃ w', Reaches doubles channelInstruction this w w' ∧
      World.Onward this i.instruction.encode.length w w' ∧
      (w'.source this).rest = next.code ++ r ∧ property w' := by
  rw [code_instruction, List.append_assoc] at hrest
  obtain ⟨w', hreturns, honward, hw'⟩ := hexec _ rfl
    (by rw [World.source_setSource]; exact File.rest_advance_one hrest)
  have hlength : i.instruction.encode.length = 1 + i.instruction.operands.length := by
    rw [Nat.add_comm]
    rfl
  have honward' : World.Onward this i.instruction.encode.length w w' := by
    rw [hlength]
    exact World.onward_setSource.trans honward
  refine ⟨w', .instruction hstop hrest hreturns, honward', ?_, hw'⟩
  rw [honward'.source]
  exact File.rest_advance hrest

/-- Only new objects are negated. -/
def Statement.negatesNew : Statement → Bool
  | enterScope | exitScope => true
  | declare _ _ value | assign _ value => value.negatesNew

theorem Statement.performs_enterScope {next : Structured}
    (hrest : (w.source this).rest = (Statement.enterScope.before next).code ++ r)
    (h : w.Stands this false σ xs) :
    ∃ w', Reaches doubles channelInstruction this w w' ∧ World.Onward this 1 w w' ∧
      (w'.source this).rest = next.code ++ r ∧ w'.Stands this false σ.enter xs := by
  refine Reaches.before h.stop hrest fun u hu _ => ?_
  obtain rfl := hu
  obtain ⟨w', hrun, honward, hw'⟩ := Component.enters (h.setSource ((w.source this).advance 1))
  exact ⟨w', hrun, honward, hw'.mono fun _ _ hp => hp.grows ⟨honward.grows.fresh, honward.grows.cells⟩⟩

theorem Statement.performs_exitScope {next : Structured} (hexit : σ.exit = some σ')
    (hrest : (w.source this).rest = (Statement.exitScope.before next).code ++ r)
    (h : w.Stands this false σ xs) :
    ∃ w', Reaches doubles channelInstruction this w w' ∧ World.Onward this 1 w w' ∧
      (w'.source this).rest = next.code ++ r ∧ w'.Stands this false σ' xs := by
  refine Reaches.before h.stop hrest fun u hu _ => ?_
  obtain rfl := hu
  have hscopes := h.scopes
  cases hs : (w.component this).scopeStack with
  | none =>
    rw [hs] at hscopes
    obtain rfl : σ = [] := hscopes
    cases hexit
  | some s =>
    rw [hs] at hscopes
    obtain ⟨s', hexits, hs'⟩ := ScopeStack.Shows.exit hscopes hexit
    have hrun : Returns (Component.exitScope this) (w.setSource this ((w.source this).advance 1)) ()
        _ := returns_onScopes.2 ⟨s, s', hs, by simp [hexits], rfl⟩
    refine ⟨_, hrun, World.onward_setComponent ⟨_, _, _, rfl⟩, ?_, ?_, ?_⟩ <;>
      rw [World.setComponent_component]
    · exact h.stop
    · exact hs'
    · exact h.data

theorem Expr.performs {e : Expr} {next : Structured} (hnew : e.negatesNew = true)
    (heval : e.eval doubles σ = some d) (hrest : (w.source this).rest = (e.before next).code ++ r)
    (h : w.Stands this false σ xs) :
    ∃ w' p, Reaches doubles channelInstruction this w w' ∧
      World.Onward this (encodeAll e.compile).length w w' ∧
      (w'.source this).rest = next.code ++ r ∧ w'.Stands this false σ (some p :: xs) ∧
      w'.Denotes p d := by
  rw [e.code_before, List.append_assoc] at hrest
  obtain ⟨w', p, hreach, hpushed⟩ := Expr.pushes hnew heval hrest h fun _ _ h => h
  refine ⟨w', p, hreach, hpushed.onward, ?_, hpushed.shows.stands hpushed.onward.grows,
    hpushed.denotes⟩
  rw [hpushed.onward.source]
  exact File.rest_advance hrest

/-- The value on top of the stack is assigned. -/
theorem Statement.performs_store {name : Name} {next : Structured}
    {i : PlainInstruction} (hi : i.instruction = .store name)
    (hassign : σ.assign name.key d = some σ')
    (hrest : (w.source this).rest = (Structured.instruction i next).code ++ r)
    (h : w.Stands this false σ (some p :: xs)) (hp : w.Denotes p d) :
    ∃ w', Reaches doubles channelInstruction this w w' ∧
      World.Onward this (Instruction.store name).encode.length w w' ∧
      (w'.source this).rest = next.code ++ r ∧ w'.Stands this false σ' xs := by
  obtain ⟨_, hplain⟩ := i
  obtain rfl := hi
  have hround : ∃ w', Reaches doubles channelInstruction this w w' ∧
      World.Onward this (Instruction.store name).encode.length w w' ∧
      (w'.source this).rest = next.code ++ r ∧ w'.Shows this w.Denotes false σ' xs := by
    refine Reaches.before h.stop hrest fun u hu hrest' => ?_
    obtain rfl := hu
    have hscopes := h.scopes
    cases hs : (w.component this).scopeStack with
    | none =>
      rw [hs] at hscopes
      obtain rfl : σ = [] := hscopes
      cases hassign
    | some s =>
      rw [hs] at hscopes
      obtain ⟨s', hstore, hs'⟩ := ScopeStack.Shows.assign hscopes hassign hp
      exact Component.stores hrest' h.stop hs hstore hs' h.data
  obtain ⟨w', hreach, honward, hrest', hw'⟩ := hround
  exact ⟨w', hreach, honward, hrest', hw'.stands honward.grows⟩

/-- The value on top of the stack is bound, by a declaration and a store. -/
theorem Statement.performs_bind {name : Name} {type : UInt8} {next : Structured}
    {i j : PlainInstruction} (hi : i.instruction = .declare name type)
    (hj : j.instruction = .store name) (hbind : σ.bind name.key d = some σ')
    (hrest : (w.source this).rest = (Structured.instruction i (.instruction j next)).code ++ r)
    (h : w.Stands this false σ (some p :: xs)) (hp : w.Denotes p d) :
    ∃ w', Reaches doubles channelInstruction this w w' ∧
      World.Onward this ((Instruction.declare name type).encode.length +
        (Instruction.store name).encode.length) w w' ∧
      (w'.source this).rest = next.code ++ r ∧ w'.Stands this false σ' xs := by
  obtain ⟨_, hplain⟩ := i
  obtain rfl := hi
  obtain ⟨_, hplain'⟩ := j
  obtain rfl := hj
  have hscopes := h.scopes
  cases hs : (w.component this).scopeStack with
  | none =>
    rw [hs] at hscopes
    obtain rfl : σ = [] := hscopes
    cases hbind
  | some s =>
    rw [hs] at hscopes
    obtain ⟨s₁, s₂, hdeclare, hstore, hs₂⟩ := ScopeStack.Shows.bind hscopes hbind hp
    have hdeclared : ∃ u, Reaches doubles channelInstruction this w u ∧
        World.Onward this (Instruction.declare name type).encode.length w u ∧
        (u.source this).rest = (Structured.instruction ⟨.store name, hplain'⟩ next).code ++ r ∧
        u.component this = { w.component this with scopeStack := some s₁ } := by
      refine Reaches.before h.stop hrest fun u hu hrest' => ?_
      obtain rfl := hu
      exact Component.declares hrest' hs hdeclare
    obtain ⟨u, hreach, honward, hrest₁, hcomponent⟩ := hdeclared
    have hstop : (u.component this).stop = false := by rw [hcomponent]; exact h.stop
    have hstored : ∃ w', Reaches doubles channelInstruction this u w' ∧
        World.Onward this (Instruction.store name).encode.length u w' ∧
        (w'.source this).rest = next.code ++ r ∧ w'.Shows this w.Denotes false σ' xs := by
      refine Reaches.before hstop hrest₁ fun v hv hrest' => ?_
      obtain rfl := hv
      refine Component.stores hrest' hstop ?_ hstore hs₂ ?_
      · rw [World.setSource_component, hcomponent]
      · rw [World.setSource_component, hcomponent]
        exact h.data
    obtain ⟨w', hreach', honward', hrest₂, hw'⟩ := hstored
    exact ⟨w', hreach.trans hreach', honward.trans honward', hrest₂,
      hw'.stands (honward.trans honward').grows⟩

/-- A statement is performed by its code. -/
theorem Statement.performs {a : Statement} {next : Structured} (hnew : a.negatesNew = true)
    (hdoes : a.does doubles σ = some σ') (hrest : (w.source this).rest = (a.before next).code ++ r)
    (h : w.Stands this false σ xs) :
    ∃ w', Reaches doubles channelInstruction this w w' ∧
      World.Onward this (a.before .done).code.length w w' ∧ w'.Stands this false σ' xs := by
  cases a with
  | enterScope =>
    obtain rfl := Option.some.inj hdoes
    obtain ⟨w', hreach, honward, -, hw'⟩ := performs_enterScope hrest h
    exact ⟨w', hreach, honward, hw'⟩
  | exitScope =>
    obtain ⟨w', hreach, honward, -, hw'⟩ := performs_exitScope hdoes hrest h
    exact ⟨w', hreach, honward, hw'⟩
  | declare name type value =>
    obtain ⟨d, hd, hbind⟩ := Option.bind_eq_some_iff.1 hdoes
    obtain ⟨u, p, hreach, honward, hrest₁, hu, hp⟩ := Expr.performs hnew hd hrest h
    obtain ⟨w', hreach', honward', -, hw'⟩ := performs_bind rfl rfl hbind hrest₁ hu hp
    refine ⟨w', hreach.trans hreach', ?_, hw'⟩
    rw [before, Expr.code_before, code_instruction, code_instruction, Structured.code,
      List.append_nil, List.length_append, List.length_append]
    exact honward.trans honward'
  | assign name value =>
    obtain ⟨d, hd, hassign⟩ := Option.bind_eq_some_iff.1 hdoes
    obtain ⟨u, p, hreach, honward, hrest₁, hu, hp⟩ := Expr.performs hnew hd hrest h
    obtain ⟨w', hreach', honward', -, hw'⟩ := performs_store rfl hassign hrest₁ hu hp
    refine ⟨w', hreach.trans hreach', ?_, hw'⟩
    rw [before, Expr.code_before, code_instruction, Structured.code, List.append_nil,
      List.length_append]
    exact honward.trans honward'

/-! ### Branches and jumps -/

theorem Reaches.round (h : Returns (runOne doubles channelInstruction this) w true w') :
    Reaches doubles channelInstruction this w w' := ⟨1, .step h (.refl w')⟩

/-- The truth value on top of the stack is tested. -/
theorem World.Stands.tests {b : Bool} (h : w.Stands this false σ (some p :: xs))
    (hp : w.Denotes p d) (hd : d.truth = some b) :
    ∃ s, w.Tests this b s ∧ ∀ n, World.Onward this n w (w.tested this s n) ∧
      (w.tested this s n).Stands this false σ xs := by
  obtain rfl := Datum.of_truth hd
  obtain ⟨o, -, -, htyped, hobject⟩ := hp
  obtain ⟨s, hpop, hs⟩ := h.data.pop_cons
  refine ⟨s, ⟨h.stop, p, o, hpop, htyped, hobject⟩,
    fun n => ⟨⟨World.tested_source, ?_, ?_, ?_⟩, ?_⟩⟩
  · rw [World.tested_component]
    exact ⟨_, _, _, rfl⟩
  · exact ⟨le_rfl, fun _ _ => rfl⟩
  · exact fun c hc => Function.update_of_ne hc ..
  · refine ⟨?_, ?_, ?_⟩ <;> rw [World.tested_component]
    · exact h.stop
    · exact h.scopes
    · exact hs

/-- A jump goes back to where the bytes up to its end begin. -/
theorem jumps_back {f : File} {i : PlainInstruction} {next : Structured}
    (hi : i.instruction = .jump (backOver (n + jumpLength)) ∨
      i.instruction = .behaviourJump (backOver (n + jumpLength)))
    (hn : n + jumpLength + 1 < 2 ^ 31) (hsource : w.source this = f.advance n)
    (hrest : (w.source this).rest = (Structured.instruction i next).code ++ r)
    (hstop : (w.component this).stop = false) :
    Returns (runOne doubles channelInstruction this) w true (w.setSource this f) := by
  rw [code_instruction, List.append_assoc] at hrest
  have hoperands : i.instruction.operands = (backOver (n + jumpLength)).encode := by
    rcases hi with hi | hi <;> rw [hi] <;> rfl
  have hoperand : ((w.source this).advance 1).rest =
      (backOver (n + jumpLength)).encode ++ (next.code ++ r) := by
    rw [← hoperands]
    exact File.rest_advance_one hrest
  have hjump : Returns (Component.jump this) (w.setSource this ((w.source this).advance 1)) ()
      (w.setSource this f) := by
    have hread := reads_distance (backOver (n + jumpLength)) jumpMessage _ _ hoperand
    rw [backOver, signedOf_ofLength hn, Distance.length_encode, File.advance_advance] at hread
    refine Returns.bind (returns_onSource.2 ⟨_, by rw [World.source_setSource]; exact hread, rfl⟩) ?_
    refine returns_onSource.2 ⟨f, ?_, by simp⟩
    have hoffset : ((n + jumpLength + 1 : ℕ) : ℤ) * -1 + 1 = -((n + jumpLength : ℕ) : ℤ) := by
      omega
    rw [World.setSource_setSource, World.source_setSource, hsource, File.advance_advance, hoffset]
    exact returns_seekCur_backward _
  refine (runOne_opcode hstop (opcodeAt_of_rest hrest)).2 ?_
  rcases hi with hi | hi
  · rw [hi]
    exact hjump
  · rw [hi]
    refine returns_self.bind ?_
    rw [World.setSource_component, if_neg (by simp [hstop])]
    exact hjump

/-! ### Commands -/

/-- Only new objects are negated. -/
def negatesNew : Command Statement Expr → Bool
  | .skip | .stop => true
  | .act a => a.negatesNew
  | .seq first second => negatesNew first && negatesNew second
  | .ifThen test branch => test.negatesNew && negatesNew branch
  | .ifThenElse test branch elseBranch =>
    test.negatesNew && negatesNew branch && negatesNew elseBranch
  | .loop test body => test.negatesNew && negatesNew body
  | .forever body => negatesNew body

/-- From `w` the component has come to the end of a command of `n` bytes, or to its own end. Nothing
happened to what was in the heap, nor to the other components. -/
structure World.Performed (this n : ℕ) (stopped : Bool) (τ : Frames Datum) (xs : List (Option ℕ))
    (w w' : World) : Prop where
  own : (w.component this).SameButStacks (w'.component this)
  grows : w.Grows w'
  others : ∀ c ≠ this, w'.component c = w.component c
  stands : w'.Stands this stopped τ xs
  source : stopped = false → w'.source this = (w.source this).advance n

theorem World.onward_refl : World.Onward this 0 w w := ⟨rfl, .refl, .refl, fun _ _ => rfl⟩

theorem World.Onward.performed (h : World.Onward this n w w') (hw' : w'.Stands this false τ xs) :
    World.Performed this n false τ xs w w' :=
  ⟨h.own, h.grows, h.others, hw', fun _ => h.source⟩

theorem World.Performed.onward (h : World.Performed this n false τ xs w w') :
    World.Onward this n w w' :=
  ⟨h.source rfl, h.own, h.grows, h.others⟩

theorem World.Performed.after (h : World.Onward this n w u)
    (h' : World.Performed this m stopped τ xs u w') :
    World.Performed this (n + m) stopped τ xs w w' where
  own := h.own.trans h'.own
  grows := h.grows.trans h'.grows
  others c hc := (h'.others c hc).trans (h.others c hc)
  stands := h'.stands
  source hstop := by rw [h'.source hstop, h.source, File.advance_advance]

/-- Where a component was stopped, there is no end that it comes to. -/
theorem World.Performed.any (h : World.Performed this n true τ xs w w') :
    World.Performed this m true τ xs w w' :=
  ⟨h.own, h.grows, h.others, h.stands, fun hstop => absurd hstop (by decide)⟩

section Lengths

variable {test : Expr} {c c' : Command Statement Expr}

theorem length_seq : (before (.seq c c') .done).code.length =
    (before c .done).code.length + (before c' .done).code.length := by
  rw [before, code_before, List.length_append]

theorem length_ifThen : (before (.ifThen test c) .done).code.length =
    (encodeAll test.compile).length + (6 + (before c .done).code.length) := by
  rw [before, Expr.code_before, code_ifThen, Structured.code, List.append_nil, List.length_append,
    length_ifPart]

theorem length_ifThenElse : (before (.ifThenElse test c c') .done).code.length =
    (encodeAll test.compile).length + (6 + (before c .done).code.length +
      (6 + (before c' .done).code.length)) := by
  rw [before, Expr.code_before, code_ifThenElse, Structured.code, List.append_nil,
    List.length_append, List.length_append, length_ifPart, length_elsePart]

/-- The jump at the end of the body of a loop. -/
def loopJump (test : Expr) (c : Command Statement Expr) : PlainInstruction :=
  ⟨.jump (backOver ((test.before .done).code.length + 6 + (before c .done).code.length +
    jumpLength)), plain rfl⟩

/-- The body of a loop with the jump behind it. -/
def loopBody (test : Expr) (c : Command Statement Expr) : Structured :=
  before c (.instruction (loopJump test c) .done)

theorem before_loop {next : Structured} :
    before (.loop test c) next = test.before (.ifThen (loopBody test c) next) := rfl

theorem length_loopBody (test : Expr) (c : Command Statement Expr) :
    (loopBody test c).code.length = (before c .done).code.length + jumpLength := by
  rw [loopBody, code_before, List.length_append, code_instruction, List.length_append, loopJump,
    length_jump.1]
  rfl

theorem length_loop : (before (.loop test c) .done).code.length =
    (encodeAll test.compile).length + (6 + ((before c .done).code.length + jumpLength)) := by
  rw [before_loop, Expr.code_before, code_ifThen, Structured.code, List.append_nil,
    List.length_append, length_ifPart, length_loopBody]

theorem length_forever : (before (.forever c) .done).code.length =
    (before c .done).code.length + jumpLength := by
  rw [before, code_before, List.length_append, code_instruction, List.length_append, length_jump.2]
  rfl

end Lengths

/-! ### Programs in the machine -/

section Parts

variable {test : Expr} {branch next : Structured} {s : Stack ℕ} {b : Bool}

/-- The component is in front of the code that follows a part. -/
theorem rest_of_onward {bs : List UInt8} (h : World.Onward this bs.length w u)
    (hrest : (w.source this).rest = bs ++ r) : (u.source this).rest = r := by
  rw [h.source]
  exact File.rest_advance hrest

theorem Expr.tested (hnew : test.negatesNew = true) (hfinds : test.finds doubles σ = some b)
    (hrest : (w.source this).rest = (test.before next).code ++ r) (hw : w.Stands this false σ xs) :
    ∃ u s, Reaches doubles channelInstruction this w u ∧
      World.Onward this (encodeAll test.compile).length w u ∧
      (u.source this).rest = next.code ++ r ∧ u.Tests this b s ∧
      ∀ n, World.Onward this n u (u.tested this s n) ∧ (u.tested this s n).Stands this false σ xs := by
  obtain ⟨d, hd, htruth⟩ := Option.bind_eq_some_iff.1 hfinds
  obtain ⟨u, p, hreach, honward, hrest', hu, hp⟩ := Expr.performs hnew hd hrest hw
  obtain ⟨s, htests, hafter⟩ := hu.tests hp htruth
  exact ⟨u, s, hreach, honward, hrest', htests, hafter⟩

/-- A branch without an else part is skipped where there is more code behind it. -/
theorem skips (hfits : branch.code.length < 2 ^ 31) (hnext : next ≠ .done)
    (hrest : (u.source this).rest = branch.ifPart ++ (next.code ++ r))
    (htests : u.Tests this false s) :
    Reaches doubles channelInstruction this u (u.tested this s branch.ifPart.length) := by
  obtain ⟨op, r', hcode, hop⟩ := exists_code hnext
  rw [hcode] at hrest
  exact .round (runOne_if_false_byte hfits hrest htests fun heq => hop (Opcode.byte_injective heq))

/-- From the end of a body the component comes back in front of it. -/
theorem World.Performed.jumps {i : PlainInstruction} (h : World.Performed this n false σ xs w u)
    (hi : i.instruction = .jump (backOver (n + jumpLength)) ∨
      i.instruction = .behaviourJump (backOver (n + jumpLength)))
    (hn : n + jumpLength + 1 < 2 ^ 31)
    (hrest : (u.source this).rest = (Structured.instruction i next).code ++ r) :
    ∃ v, Returns (runOne doubles channelInstruction this) u true v ∧ World.Onward this 0 w v ∧
      v.source this = w.source this ∧ v.Stands this false σ xs := by
  have hsource : (u.setSource this (w.source this)).source this = w.source this :=
    World.source_setSource _
  refine ⟨_, jumps_back hi hn h.onward.source hrest h.stands.stop,
    ⟨hsource, h.own, ?_, h.others⟩, hsource, h.stands.setSource _⟩
  exact ⟨h.grows.fresh, h.grows.cells⟩

/-- A branch is entered. -/
theorem enters (hfits : branch.code.length < 2 ^ 31)
    (hrest : (u.source this).rest = branch.ifPart ++ r) (htests : u.Tests this true s) :
    Reaches doubles channelInstruction this u (u.tested this s 6) :=
  .round (runOne_if_true hfits hrest htests)

/-- A component that comes to an else part goes on behind it. -/
theorem passes (hfits : branch.code.length < 2 ^ 31)
    (hrest : (u.source this).rest = branch.elsePart ++ r) (hu : u.Stands this false σ xs) :
    ∃ v, Reaches doubles channelInstruction this u v ∧
      World.Onward this (6 + branch.code.length) u v ∧ v.Stands this false σ xs := by
  refine ⟨_, .round (runOne_elsePart hfits hrest hu.stop), ?_, hu.setSource _⟩
  rw [← length_elsePart]
  exact World.onward_setSource

/-- A branch with an else part is skipped, and the else part entered. -/
theorem skips_else {elseBranch : Structured} (hfits : branch.code.length < 2 ^ 31)
    (hrest : (u.source this).rest = branch.ifPart ++ (elseBranch.elsePart ++ r))
    (htests : u.Tests this false s)
    (hafter : ∀ n, World.Onward this n u (u.tested this s n) ∧
      (u.tested this s n).Stands this false σ xs) :
    ∃ v, Reaches doubles channelInstruction this u v ∧
      World.Onward this (6 + branch.code.length + 6) u v ∧
      (v.source this).rest = elseBranch.code ++ r ∧ v.Stands this false σ xs := by
  obtain ⟨honward, hv⟩ := hafter (branch.ifPart.length + 6)
  refine ⟨_, .round (runOne_if_false_elsePart hfits hrest htests), ?_, ?_, ?_⟩
  · rw [← length_ifPart]
    exact honward.trans (m := 0) World.onward_boxed
  · rw [World.boxed_source]
    exact rest_in_elsePart hrest
  · exact World.Shows.stands ⟨hv.stop, hv.scopes, hv.data⟩ World.grows_boxed

end Parts

variable (doubles channelInstruction this xs) in
/-- The component performs a command that makes `τ` of the frames `σ`, whatever comes behind it. -/
def Performs (c : Command Statement Expr) (σ : Frames Datum) (stopped : Bool) (τ : Frames Datum) :
    Prop :=
  ∀ (w : World) (next : Structured) (r : List UInt8), negatesNew c = true →
    (before c .done).code.length + 1 < 2 ^ 31 → (before c next).Followed →
    (w.source this).rest = (before c next).code ++ r → w.Stands this false σ xs →
    ∃ w', Reaches doubles channelInstruction this w w' ∧
      World.Performed this (before c .done).code.length stopped τ xs w w'

section Cases

variable {test : Expr} {c c' : Command Statement Expr} {ρ : Frames Datum}

theorem Performs.stop : Performs doubles channelInstruction this xs .stop σ true σ := by
  intro w next r _ _ _ hrest hw
  have hbytes : (w.source this).rest = (Instruction.stop noBytes).encode ++ (next.code ++ r) := by
    rw [before, code_instruction, List.append_assoc] at hrest
    exact hrest
  have hread : Returns (onSource this readString) (w.setSource this ((w.source this).advance 1)) []
      (w.setSource this ((w.source this).advance (Instruction.stop noBytes).encode.length)) := by
    refine returns_onSource.2 ⟨_, reads_name noBytes _ (next.code ++ r) ?_, by simp; rfl⟩
    rw [World.source_setSource]
    exact File.rest_advance_one hbytes
  have hstop : Returns (Component.stopComponent this)
      (w.setSource this ((w.source this).advance 1)) ()
      ((w.setSource this ((w.source this).advance (Instruction.stop noBytes).encode.length)).setComponent
        this { w.component this with stop := true }) := by
    refine hread.bind (returns_self.bind ?_)
    rw [if_pos (.inl rfl)]
    exact returns_modifySelf
  refine ⟨_, .instruction hw.stop hbytes hstop, ?_, ⟨le_rfl, fun _ _ => rfl⟩,
    fun c hc => ?_, ?_, nofun⟩
  · rw [World.setComponent_component]
    exact ⟨_, _, _, rfl⟩
  · exact Function.update_of_ne hc ..
  · refine ⟨?_, ?_, ?_⟩ <;> rw [World.setComponent_component]
    · exact hw.scopes
    · exact hw.data

theorem Performs.seq (hc : Performs doubles channelInstruction this xs c σ false ρ)
    (hc' : Performs doubles channelInstruction this xs c' ρ stopped τ) :
    Performs doubles channelInstruction this xs (.seq c c') σ stopped τ := by
  intro w next r hnew hfits hfollowed hrest hw
  rw [negatesNew, Bool.and_eq_true] at hnew
  rw [length_seq] at hfits ⊢
  obtain ⟨u, hreach, hu⟩ := hc w _ r hnew.1 (by omega) hfollowed hrest hw
  have hrest₁ : (u.source this).rest = (before c' next).code ++ r := by
    rw [before, code_before, List.append_assoc] at hrest
    exact rest_of_onward hu.onward hrest
  obtain ⟨w', hreach', hw'⟩ := hc' u next r hnew.2 (by omega) (followed_of_before hfollowed) hrest₁
    hu.stands
  exact ⟨w', hreach.trans hreach', .after hu.onward hw'⟩

theorem Performs.seq_stopped (hc : Performs doubles channelInstruction this xs c σ true τ) :
    Performs doubles channelInstruction this xs (.seq c c') σ true τ := by
  intro w next r hnew hfits hfollowed hrest hw
  rw [negatesNew, Bool.and_eq_true] at hnew
  rw [length_seq] at hfits
  obtain ⟨u, hreach, hu⟩ := hc w _ r hnew.1 (by omega) hfollowed hrest hw
  exact ⟨u, hreach, hu.any⟩

theorem Performs.ifThen_true (h : test.finds doubles σ = some true)
    (hc : Performs doubles channelInstruction this xs c σ stopped τ) :
    Performs doubles channelInstruction this xs (.ifThen test c) σ stopped τ := by
  intro w next r hnew hfits hfollowed hrest hw
  rw [negatesNew, Bool.and_eq_true] at hnew
  rw [length_ifThen] at hfits ⊢
  obtain ⟨-, hbranch, -⟩ := Expr.followed_before.1 hfollowed
  obtain ⟨u, s, hreach, honward, hrest₁, htests, hafter⟩ := Expr.tested hnew.1 h hrest hw
  rw [code_ifThen, List.append_assoc] at hrest₁
  obtain ⟨honward₁, hv⟩ := hafter 6
  obtain ⟨w', hreach', hw'⟩ := hc _ _ _ hnew.2 (by omega) hbranch (rest_in_ifPart hrest₁) hv
  exact ⟨w', hreach.trans ((enters (by omega) hrest₁ htests).trans hreach'),
    .after honward (.after honward₁ hw')⟩

theorem Performs.ifThen_false (h : test.finds doubles σ = some false) :
    Performs doubles channelInstruction this xs (.ifThen test c) σ false σ := by
  intro w next r hnew hfits hfollowed hrest hw
  rw [negatesNew, Bool.and_eq_true] at hnew
  rw [length_ifThen, ← length_ifPart] at hfits ⊢
  obtain ⟨hnext, -, -⟩ := Expr.followed_before.1 hfollowed
  obtain ⟨u, s, hreach, honward, hrest₁, htests, hafter⟩ := Expr.tested hnew.1 h hrest hw
  rw [code_ifThen, List.append_assoc] at hrest₁
  rw [length_ifPart] at hfits
  obtain ⟨honward₁, hv⟩ := hafter (before c .done).ifPart.length
  exact ⟨_, hreach.trans (skips (by omega) hnext hrest₁ htests),
    (honward.trans honward₁).performed hv⟩

theorem Performs.ifThenElse_true (h : test.finds doubles σ = some true)
    (hc : Performs doubles channelInstruction this xs c σ stopped τ) :
    Performs doubles channelInstruction this xs (.ifThenElse test c c') σ stopped τ := by
  intro w next r hnew hfits hfollowed hrest hw
  simp only [negatesNew, Bool.and_eq_true] at hnew
  rw [length_ifThenElse] at hfits ⊢
  obtain ⟨hbranch, -, -⟩ := Expr.followed_before.1 hfollowed
  obtain ⟨u, s, hreach, honward, hrest₁, htests, hafter⟩ := Expr.tested hnew.1.1 h hrest hw
  rw [code_ifThenElse, List.append_assoc, List.append_assoc] at hrest₁
  obtain ⟨honward₁, hv⟩ := hafter 6
  have hrest₂ := rest_in_ifPart (s := s) hrest₁
  obtain ⟨v, hreach', hperformed⟩ := hc _ _ _ hnew.1.2 (by omega) hbranch hrest₂ hv
  have hreached := hreach.trans ((enters (by omega) hrest₁ htests).trans hreach')
  cases stopped with
  | true => exact ⟨v, hreached, .any (.after honward (.after honward₁ hperformed))⟩
  | false =>
    -- the else part behind the branch is jumped over
    have hrest₃ : (v.source this).rest = (before c' .done).elsePart ++ (next.code ++ r) :=
      rest_of_onward hperformed.onward hrest₂
    obtain ⟨w', hreach₂, hbehind, hw'⟩ := passes (by omega) hrest₃ hperformed.stands
    refine ⟨w', hreached.trans hreach₂, ?_⟩
    have hall := honward.trans ((honward₁.trans hperformed.onward).trans hbehind)
    exact hall.performed hw'

theorem Performs.ifThenElse_false (h : test.finds doubles σ = some false)
    (hc' : Performs doubles channelInstruction this xs c' σ stopped τ) :
    Performs doubles channelInstruction this xs (.ifThenElse test c c') σ stopped τ := by
  intro w next r hnew hfits hfollowed hrest hw
  simp only [negatesNew, Bool.and_eq_true] at hnew
  rw [length_ifThenElse] at hfits ⊢
  obtain ⟨-, hbranch, -⟩ := Expr.followed_before.1 hfollowed
  obtain ⟨u, s, hreach, honward, hrest₁, htests, hafter⟩ := Expr.tested hnew.1.1 h hrest hw
  rw [code_ifThenElse, List.append_assoc, List.append_assoc] at hrest₁
  obtain ⟨v, hreach₁, honward₁, hrest₂, hv⟩ := skips_else (by omega) hrest₁ htests hafter
  obtain ⟨w', hreach₂, hw'⟩ := hc' _ _ _ hnew.2 (by omega) hbranch hrest₂ hv
  refine ⟨w', hreach.trans (hreach₁.trans hreach₂), ?_⟩
  rw [← Nat.add_assoc (6 + _)]
  exact .after honward (.after honward₁ hw')

theorem Performs.loop_done (h : test.finds doubles σ = some false) :
    Performs doubles channelInstruction this xs (.loop test c) σ false σ := by
  intro w next r hnew hfits hfollowed hrest hw
  rw [negatesNew, Bool.and_eq_true] at hnew
  rw [length_loop, ← length_loopBody test c, ← length_ifPart] at hfits ⊢
  rw [before_loop] at hfollowed hrest
  obtain ⟨hnext, -, -⟩ := Expr.followed_before.1 hfollowed
  obtain ⟨u, s, hreach, honward, hrest₁, htests, hafter⟩ := Expr.tested hnew.1 h hrest hw
  rw [code_ifThen, List.append_assoc] at hrest₁
  rw [length_ifPart] at hfits
  obtain ⟨honward₁, hv⟩ := hafter (loopBody test c).ifPart.length
  exact ⟨_, hreach.trans (skips (by omega) hnext hrest₁ htests),
    (honward.trans honward₁).performed hv⟩

/-- One round of a loop, up to its jump. -/
theorem Performs.loop_round {next : Structured} (h : test.finds doubles σ = some true)
    (hc : Performs doubles channelInstruction this xs c σ stopped ρ)
    (hnew : negatesNew (.loop test c) = true)
    (hfits : (before (.loop test c) .done).code.length + 1 < 2 ^ 31)
    (hfollowed : (before (.loop test c) next).Followed)
    (hrest : (w.source this).rest = (before (.loop test c) next).code ++ r)
    (hw : w.Stands this false σ xs) :
    ∃ v, Reaches doubles channelInstruction this w v ∧
      World.Performed this ((test.before .done).code.length + 6 + (before c .done).code.length)
        stopped ρ xs w v ∧
      (stopped = false → (v.source this).rest =
        (Structured.instruction (loopJump test c) .done).code ++ (next.code ++ r)) := by
  rw [negatesNew, Bool.and_eq_true] at hnew
  rw [length_loop, ← length_loopBody test c] at hfits
  rw [before_loop] at hfollowed hrest
  obtain ⟨-, hbody, -⟩ := Expr.followed_before.1 hfollowed
  obtain ⟨u, s, hreach, honward, hrest₁, htests, hafter⟩ := Expr.tested hnew.1 h hrest hw
  rw [code_ifThen, List.append_assoc] at hrest₁
  obtain ⟨honward₁, hv⟩ := hafter 6
  have hrest₂ := rest_in_ifPart (s := s) hrest₁
  rw [length_loopBody] at hfits
  obtain ⟨v, hreach₁, hperformed⟩ := hc _ _ _ hnew.2 (by omega) hbody hrest₂ hv
  refine ⟨v, hreach.trans ((enters ?_ hrest₁ htests).trans hreach₁), ?_, fun hstop => ?_⟩
  · rw [length_loopBody]
    omega
  · rw [Expr.code_before, Structured.code, List.append_nil]
    exact .after (honward.trans honward₁) hperformed
  · rw [hstop] at hperformed
    rw [loopBody, code_before, List.append_assoc] at hrest₂
    exact rest_of_onward hperformed.onward hrest₂

theorem Performs.loop_stopped (h : test.finds doubles σ = some true)
    (hc : Performs doubles channelInstruction this xs c σ true τ) :
    Performs doubles channelInstruction this xs (.loop test c) σ true τ := by
  intro w next r hnew hfits hfollowed hrest hw
  obtain ⟨v, hreach, hv, -⟩ := hc.loop_round h hnew hfits hfollowed hrest hw
  exact ⟨v, hreach, hv.any⟩

theorem Performs.loop_again (h : test.finds doubles σ = some true)
    (hc : Performs doubles channelInstruction this xs c σ false ρ)
    (hagain : Performs doubles channelInstruction this xs (.loop test c) ρ stopped τ) :
    Performs doubles channelInstruction this xs (.loop test c) σ stopped τ := by
  intro w next r hnew hfits hfollowed hrest hw
  obtain ⟨v, hreach, hv, hjump⟩ := hc.loop_round h hnew hfits hfollowed hrest hw
  have hlength : (test.before .done).code.length + 6 + (before c .done).code.length + jumpLength +
      1 < 2 ^ 31 := by
    rw [length_loop] at hfits
    rw [Expr.code_before, Structured.code, List.append_nil]
    omega
  obtain ⟨u, hback, hu, hsource, hstands⟩ := hv.jumps (.inl rfl) hlength (hjump rfl)
  obtain ⟨w', hreach', hw'⟩ := hagain u next r hnew hfits hfollowed (hsource ▸ hrest) hstands
  refine ⟨w', hreach.trans ((Reaches.round hback).trans hreach'), ?_⟩
  rw [← Nat.zero_add (before (.loop test c) .done).code.length]
  exact .after hu hw'

theorem Performs.forever_stopped (hc : Performs doubles channelInstruction this xs c σ true τ) :
    Performs doubles channelInstruction this xs (.forever c) σ true τ := by
  intro w next r hnew hfits hfollowed hrest hw
  rw [length_forever] at hfits
  obtain ⟨v, hreach, hv⟩ := hc w _ r hnew (by omega) hfollowed hrest hw
  exact ⟨v, hreach, hv.any⟩

theorem Performs.forever_again (hc : Performs doubles channelInstruction this xs c σ false ρ)
    (hagain : Performs doubles channelInstruction this xs (.forever c) ρ stopped τ) :
    Performs doubles channelInstruction this xs (.forever c) σ stopped τ := by
  intro w next r hnew hfits hfollowed hrest hw
  have hlength := hfits
  rw [length_forever] at hlength
  obtain ⟨v, hreach, hv⟩ := hc w _ r hnew (by omega) hfollowed hrest hw
  have hjump := hrest
  rw [before, code_before, List.append_assoc] at hjump
  obtain ⟨u, hback, hu, hsource, hstands⟩ := hv.jumps (.inr rfl) hlength
    (rest_of_onward hv.onward hjump)
  obtain ⟨w', hreach', hw'⟩ := hagain u next r hnew hfits hfollowed (hsource ▸ hrest) hstands
  refine ⟨w', hreach.trans ((Reaches.round hback).trans hreach'), ?_⟩
  rw [← Nat.zero_add (before (.forever c) .done).code.length]
  exact .after hu hw'

end Cases

theorem performs {c : Command Statement Expr}
    (h : Commands.Ends (Statement.does doubles) (Expr.finds doubles) c σ stopped τ) :
    Performs doubles channelInstruction this xs c σ stopped τ := by
  induction h with
  | skip => exact fun w _ _ _ _ _ _ hw => ⟨w, .refl, World.onward_refl.performed hw⟩
  | stop => exact .stop
  | act hdoes =>
    intro w next r hnew _ _ hrest hw
    obtain ⟨w', hreach, honward, hw'⟩ := Statement.performs hnew hdoes hrest hw
    exact ⟨w', hreach, honward.performed hw'⟩
  | seq _ _ ihfirst ihsecond => exact ihfirst.seq ihsecond
  | seq_stopped _ ih => exact ih.seq_stopped
  | ifThen_true h _ ih => exact ih.ifThen_true h
  | ifThen_false h => exact .ifThen_false h
  | ifThenElse_true h _ ih => exact ih.ifThenElse_true h
  | ifThenElse_false h _ ih => exact ih.ifThenElse_false h
  | loop_done h => exact .loop_done h
  | loop_again h _ _ ihbody ihagain => exact ihbody.loop_again h ihagain
  | loop_stopped h _ ih => exact ih.loop_stopped h
  | forever_again _ _ ihbody ihagain => exact ihbody.forever_again ihagain
  | forever_stopped _ ih => exact ih.forever_stopped

end InsenseCVM
