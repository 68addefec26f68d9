import InsenseCVM.Bytecode.Instruction
import InsenseCVM.Machine.Run
import Mathlib.Algebra.Group.Nat.Even
import Mathlib.Logic.Function.Iterate

/-!
# What an expression does to the variables

An expression is compiled in postfix order. `LOAD` pushes the variable's own object and `NOT`
negates its operand where it lies, so the `NOT`s above a `LOAD` write to the variable.

`Expr.outcome` follows the loads of an expression and collects the values of variables that are
negated. The evaluation leaves the variables as they are exactly when every object is negated an
even number of times.
-/

namespace InsenseCVM
open Execution ByteStream

/-- The expressions of the language. -/
inductive Expr
  | literal (value : Literal)
  | load (name : Name)
  | binary (op : Operator) (first second : Expr)
  | not (operand : Expr)

namespace Expr

/-- Operands first, then the operator. -/
def compile : Expr → List Instruction
  | literal value => [.push value]
  | load name => [.load name]
  | binary op first second => first.compile ++ second.compile ++ [.expression op]
  | not operand => operand.compile ++ [.not]

/-- What becomes known about an evaluation by following its loads. -/
structure Outcome where
  /-- The values of variables that are negated, in turn. -/
  negated : List ℕ
  /-- The value of a variable that the expression evaluates to, if it does. -/
  value : Option ℕ
  scopes : ScopeStack ℕ

def outcome : Expr → ScopeStack ℕ → Outcome
  | literal _, s => ⟨[], none, s⟩
  | load name, s =>
    match s.load (InsenseCVM.literal name.bytes) with
    | some (value, s) => ⟨[], value, s⟩
    | none => ⟨[], none, s⟩
  | binary _ first second, s =>
    let left := first.outcome s
    let right := second.outcome left.scopes
    ⟨left.negated ++ right.negated, none, right.scopes⟩
  | not operand, s =>
    let inner := operand.outcome s
    ⟨inner.negated ++ inner.value.toList, inner.value, inner.scopes⟩

end Expr

/-- The object of the typed object at an address. -/
def World.objectOf (w : World) (p : ℕ) : Option ℕ :=
  match w.cell p with
  | some (.typed _ object) => object
  | _ => none

/-- The objects of variables that an evaluation negates, in turn. -/
def Expr.negations (e : Expr) (w : World) (s : ScopeStack ℕ) : List ℕ :=
  (e.outcome s).negated.filterMap w.objectOf

/-- Some variable of the levels has the value `p`. -/
def IsValue (levels : List ℕ) (es : ℕ → List (ListMap.Located ℕ)) (p : ℕ) : Prop :=
  ∃ a ∈ levels, ∃ x ∈ es a, x.2.value = some p

/-- The cells that make up the values of the variables. -/
inductive World.Reachable (w : World) (levels : List ℕ) (es : ℕ → List (ListMap.Located ℕ)) :
    ℕ → Prop
  | value {p : ℕ} (h : IsValue levels es p) : w.Reachable levels es p
  | object {p o : ℕ} {type : UInt8} (h : w.Reachable levels es p)
      (hcell : w.cell p = some (.typed type (some o))) : w.Reachable levels es o
  | field {p q : ℕ} {fields : ListMap ℕ} {xs : List (ListMap.Located ℕ)}
      {x : ListMap.Located ℕ} (h : w.Reachable levels es p) (hcell : w.cell p = some (.map fields))
      (hfields : fields.Represents xs) (hx : x ∈ xs) (hq : x.2.value = some q) :
      w.Reachable levels es q

variable {D : Type} {doubles : Doubles D} {channelInstruction : Opcode → ℕ → Exec Unit} {this : ℕ}
  {w w' : World} {s : ScopeStack ℕ} {levels : List ℕ} {es : ℕ → List (ListMap.Located ℕ)}
  {xs : List (Option ℕ)} {r : List UInt8} {p : ℕ}

/-! ### The four instructions -/

namespace Component

theorem returns_push {value : Literal} (hrest : (w.source this).rest = value.encode ++ r)
    (h : Returns (push this) w () w') :
    ∃ type object,
      w' = ((w.setSource this ((w.source this).advance value.encode.length)).boxed type
        object).setComponent this { w.component this with
          dataStack := (w.component this).dataStack.push (some (w.fresh + 1)) } := by
  have hread : Returns (onSource this InsenseCVM.readData) w (some value.datum)
      (w.setSource this ((w.source this).advance value.encode.length)) :=
    returns_onSource.2 ⟨_, reads_literal value _ r hrest, rfl⟩
  unfold push readData at h
  rw [returns_bind] at h
  obtain ⟨data, u, hdata, hpush⟩ := h
  rw [hread.bind_iff] at hdata
  cases value with
  | fixed type value known size =>
    simp only [Literal.datum] at hdata
    rw [returns_boxed, returns_pure] at hdata
    obtain ⟨rfl, rfl⟩ := hdata
    exact ⟨type, _, (hpush.unique returns_pushData).2⟩
  | string name =>
    simp only [Literal.datum] at hdata
    rw [returns_boxed, returns_pure] at hdata
    obtain ⟨rfl, rfl⟩ := hdata
    exact ⟨typeString, _, (hpush.unique returns_pushData).2⟩

theorem returns_load {name : Name} (hrest : (w.source this).rest = name.encode ++ r)
    (hs : (w.component this).scopeStack = some s) (h : Returns (load this) w () w') :
    ∃ v s', s.load (literal name.bytes) = some (some v, s') ∧
      w' = (w.setSource this ((w.source this).advance name.encode.length)).setComponent this
        { w.component this with
          scopeStack := some s'
          dataStack := (w.component this).dataStack.push (some v) } := by
  have hread : Returns (onSource this readString) w (literal name.bytes)
      (w.setSource this ((w.source this).advance name.encode.length)) :=
    returns_onSource.2 ⟨_, reads_name name _ r hrest, rfl⟩
  unfold load at h
  rw [hread.bind_iff, returns_bind] at h
  obtain ⟨data, u, hload, hpush⟩ := h
  obtain ⟨s₁, s', hs₁, hload, rfl⟩ := returns_onScopes.1 hload
  rw [World.setSource_component] at hs₁
  obtain rfl : s = s₁ := Option.some.inj (hs.symm.trans hs₁)
  cases data with
  | none => exact absurd hpush returns_fatal
  | some v =>
    refine ⟨v, s', hload, ?_⟩
    have hpush := (hpush.unique returns_pushData).2
    simpa using hpush

/-- The result of an operator is a new object. -/
theorem returns_expression {op : Operator} {first second : Option ℕ}
    (hd : (w.component this).dataStack.Holds (second :: first :: xs))
    (h : Returns (expression doubles this op) w () w') :
    ∃ type object d, d.Holds (some (w.fresh + 1) :: xs) ∧
      w' = (w.boxed type object).setComponent this { w.component this with dataStack := d } := by
  unfold expression at h
  rw [returns_self.bind_iff, hd.size_eq, if_neg (by simp)] at h
  obtain ⟨d₁, hpop₁, hd₁⟩ := hd.pop_cons
  obtain ⟨d₂, hpop₂, hd₂⟩ := hd₁.pop_cons
  have hsecond : Returns (popData this) w second
      (w.setComponent this { w.component this with dataStack := d₁ }) :=
    returns_popData.2 ⟨d₁, hpop₁, rfl⟩
  have hfirst : Returns (popData this) (w.setComponent this { w.component this with dataStack := d₁ })
      first (w.setComponent this { w.component this with dataStack := d₂ }) :=
    returns_popData.2 ⟨d₂, by simpa using hpop₂, by simp⟩
  rw [hsecond.bind_iff, hfirst.bind_iff] at h
  obtain ⟨firstOperand, u, hcast, h⟩ := returns_bind.1 h
  obtain rfl := keeps_castOperand doubles _ _ _ hcast
  obtain ⟨secondOperand, u, hcast₂, h⟩ := returns_bind.1 h
  obtain rfl := keeps_castOperand doubles _ _ _ hcast₂
  obtain ⟨⟨type, value⟩, u, hop, h⟩ := returns_bind.1 h
  obtain rfl := keeps_operate doubles op _ _ _ hop
  rw [returns_boxed] at h
  refine ⟨type, .bytes value, d₂.push (some (w.fresh + 1)), hd₂.push _, ?_⟩
  have hpush := (h.unique returns_pushData).2
  rw [hpush]
  simp [World.boxed, World.setComponent]

/-- The operand of `NOT` is negated where it lies, and stays on the stack. -/
theorem returns_not {operand : Option ℕ} (hd : (w.component this).dataStack.Holds (operand :: xs))
    (h : Returns (not this) w () w') :
    ∃ v o b d, operand = some v ∧ w.cell v = some (.typed typeBool (some o)) ∧
      w.cell o = some (boolCell b) ∧ d.Holds (operand :: xs) ∧
      w' = ({ w with cell := Function.update w.cell o (some (boolCell !b)) } : World).setComponent
        this { w.component this with dataStack := d } := by
  unfold not at h
  rw [returns_self.bind_iff, hd.size_eq, if_neg (by simp)] at h
  obtain ⟨d, hpop, hd'⟩ := hd.pop_cons
  have hoperand : Returns (popData this) w operand
      (w.setComponent this { w.component this with dataStack := d }) :=
    returns_popData.2 ⟨d, hpop, rfl⟩
  rw [hoperand.bind_iff] at h
  obtain ⟨⟨type, object⟩, u, htyped, h⟩ := returns_bind.1 h
  obtain ⟨⟨v, rfl, hv⟩, rfl⟩ := returns_typedObject.1 htyped
  by_cases htype : type = typeBool
  · simp only [htype, ne_eq, not_true_eq_false, if_false] at h
    obtain ⟨b, u, hb, h⟩ := returns_bind.1 h
    obtain ⟨⟨o, rfl, ho⟩, rfl⟩ := returns_boolAt.1 hb
    rw [(returns_follow.2 ⟨rfl, rfl⟩ : Returns (follow (some o) : Exec ℕ) _ o _).bind_iff,
      returns_modify.bind_iff] at h
    refine ⟨v, o, b, d.push (some v), rfl, by rw [← htype]; exact hv, ho, hd'.push _, ?_⟩
    rw [(h.unique returns_pushData).2]
    simp [World.setComponent]
  · simp only [ne_eq, htype, not_false_eq_true, if_true] at h
    exact absurd h returns_fatal

end Component

/-! ### Following the loads -/

theorem ScopeStack.Answers.exists_entry {k : CString} {levels : List ℕ} {v : Option ℕ}
    (h : Answers es k levels v) (hv : v = some p) : IsValue levels es p := by
  induction h with
  | nil => cases hv
  | found h =>
    rcases h with ⟨hnone, -⟩ | ⟨x, hx, -, hvalue⟩
    · cases hnone
    · exact ⟨_, List.mem_cons_self, x, hx, by rw [← hvalue, hv]⟩
  | next _ _ ih =>
    obtain ⟨a, ha, hx⟩ := ih hv
    exact ⟨a, List.mem_cons_of_mem _ ha, hx⟩

/-- The loads change nothing that is held, and what is negated are values of variables. -/
theorem Expr.outcome_spec (e : Expr) (hs : s.Holds levels es) :
    (e.outcome s).scopes.Holds levels es ∧ (∀ p ∈ (e.outcome s).negated, IsValue levels es p) ∧
      ∀ p ∈ (e.outcome s).value, IsValue levels es p := by
  induction e generalizing s with
  | literal value => exact ⟨hs, by simp [outcome], by simp [outcome]⟩
  | load name =>
    obtain ⟨v, s', hload, hsame, hans⟩ := hs.load (InsenseCVM.literal name.bytes)
    unfold outcome
    rw [hload]
    exact ⟨hsame.holds, by simp, fun p hp => hans.exists_entry hp⟩
  | binary op first second ihfirst ihsecond =>
    obtain ⟨hleft, hnegated, -⟩ := ihfirst hs
    obtain ⟨hright, hnegated', -⟩ := ihsecond hleft
    refine ⟨hright, fun p hp => ?_, by simp [outcome]⟩
    rcases List.mem_append.1 hp with hp | hp
    · exact hnegated p hp
    · exact hnegated' p hp
  | not operand ih =>
    obtain ⟨hinner, hnegated, hvalue⟩ := ih hs
    refine ⟨hinner, fun p hp => ?_, hvalue⟩
    rcases List.mem_append.1 hp with hp | hp
    · exact hnegated p hp
    · exact hvalue p (Option.mem_toList.1 hp)

/-! ### Negating a cell -/

/-- The negation of a truth value; other cells stay. -/
def negate : Option Cell → Option Cell
  | some (.bytes [0]) => some (boolCell true)
  | some (.bytes [1]) => some (boolCell false)
  | c => c

theorem boolCell_injective : Function.Injective boolCell := by
  intro b c h
  have hbyte : [if b then (1 : UInt8) else 0] = [if c then 1 else 0] := Cell.bytes.inj h
  cases b <;> cases c <;> first | rfl | exact absurd hbyte (by decide)

theorem negate_boolCell (b : Bool) : negate (some (boolCell b)) = some (boolCell !b) := by
  cases b <;> rfl

theorem iterate_negate_boolCell (n : ℕ) (b : Bool) :
    negate^[n] (some (boolCell b)) = some (boolCell (Bool.not^[n] b)) := by
  induction n generalizing b with
  | zero => rfl
  | succ n ih => rw [Function.iterate_succ_apply, Function.iterate_succ_apply, negate_boolCell, ih]

theorem iterate_not_eq_iff (n : ℕ) (b : Bool) : Bool.not^[n] b = b ↔ Even n := by
  induction n with
  | zero => simp
  | succ n ih =>
    rw [Function.iterate_succ_apply', Nat.even_add_one, ← ih]
    cases Bool.not^[n] b <;> cases b <;> decide

/-- A cell is a typed object before some negations exactly when it is one after them. -/
theorem iterate_negate_typed {n : ℕ} {c : Option Cell} {type : UInt8} {object : Option ℕ} :
    negate^[n] c = some (.typed type object) ↔ c = some (.typed type object) := by
  induction n generalizing c with
  | zero => exact Iff.rfl
  | succ n ih =>
    rw [Function.iterate_succ_apply, ih]
    unfold negate
    split
    · simp [boolCell]
    · simp [boolCell]
    · exact Iff.rfl

theorem World.objectOf_congr {q n : ℕ} (h : w'.cell q = negate^[n] (w.cell q)) :
    w'.objectOf q = w.objectOf q := by
  have hiff : ∀ type object, w'.cell q = some (.typed type object) ↔
      w.cell q = some (.typed type object) := by
    intro type object
    rw [h, iterate_negate_typed]
  unfold World.objectOf
  split
  · rename_i type object hcell
    rw [(hiff type object).1 hcell]
  · rename_i hne
    split
    · rename_i type object hcell
      exact absurd ((hiff type object).2 hcell) (hne type object)
    · rfl

theorem iterate_negate_truth {n : ℕ} {c : Option Cell} {b : Bool}
    (h : negate^[n] c = some (boolCell b)) : ∃ b', c = some (boolCell b') := by
  induction n generalizing c with
  | zero => exact ⟨b, h⟩
  | succ n ih =>
    rw [Function.iterate_succ_apply] at h
    obtain ⟨b', hb'⟩ := ih h
    unfold negate at hb'
    split at hb'
    · exact ⟨false, rfl⟩
    · exact ⟨true, rfl⟩
    · exact ⟨b', hb'⟩

/-! ### A whole evaluation -/

/-- The values of the variables and their objects are addresses that are in use. -/
structure Allocated (w : World) (levels : List ℕ) (es : ℕ → List (ListMap.Located ℕ)) : Prop where
  value : ∀ p, IsValue levels es p → p < w.fresh
  object : ∀ p o, IsValue levels es p → w.objectOf p = some o → o < w.fresh

/-- What an evaluation from `w` leaves on the stack: the value of a variable or a new object. -/
def IsResult (w w' : World) (value : Option ℕ) (v : ℕ) : Prop :=
  match value with
  | some p => v = p
  | none => w.fresh ≤ v ∧ ∃ type o, w'.cell v = some (.typed type (some o)) ∧ w.fresh ≤ o

/-- The evaluation of `e` went from `w` to `w'`. -/
structure Evaluated (this : ℕ) (e : Expr) (s : ScopeStack ℕ) (xs : List (Option ℕ)) (w w' : World) :
    Prop where
  scopes : (w'.component this).scopeStack = some (e.outcome s).scopes
  data : ∃ v, (w'.component this).dataStack.Holds (some v :: xs) ∧
    IsResult w w' (e.outcome s).value v
  fresh : w.fresh ≤ w'.fresh
  cells : ∀ q < w.fresh, w'.cell q = negate^[(e.negations w s).count q] (w.cell q)
  truth : ∀ o ∈ e.negations w s, ∃ b, w.cell o = some (boolCell b)

theorem Allocated.after {n : ℕ → ℕ} (h : Allocated w levels es) (hfresh : w.fresh ≤ w'.fresh)
    (hcells : ∀ q < w.fresh, w'.cell q = negate^[n q] (w.cell q)) : Allocated w' levels es where
  value := fun p hp => lt_of_lt_of_le (h.value p hp) hfresh
  object := fun p o hp ho => by
    rw [World.objectOf_congr (hcells p (h.value p hp))] at ho
    exact lt_of_lt_of_le (h.object p o hp ho) hfresh

/-- A new object on the stack, and nothing else that an old address leads to. -/
theorem isResult_boxed {type : UInt8} {object : Cell} {u : World} (hfresh : w.fresh ≤ u.fresh) :
    IsResult w (u.boxed type object) none (u.fresh + 1) :=
  ⟨by omega, type, u.fresh, World.boxed_typed, hfresh⟩

theorem Evaluated.literal {value : Literal} (hrest : (w.source this).rest = value.encode ++ r)
    (hs : (w.component this).scopeStack = some s) (hd : (w.component this).dataStack.Holds xs)
    (h : Returns (Component.push this) w () w') :
    Evaluated this (.literal value) s xs w w' ∧ (w'.source this).rest = r := by
  obtain ⟨type, object, rfl⟩ := Component.returns_push hrest h
  refine ⟨⟨?_, ⟨w.fresh + 1, ?_, ?_⟩, ?_, fun q hq => ?_, ?_⟩, ?_⟩
  · rw [World.setComponent_component]
    exact hs
  · rw [World.setComponent_component]
    exact hd.push _
  · exact @isResult_boxed w type object
      (w.setSource this ((w.source this).advance value.encode.length)) (Nat.le_refl _)
  · show w.fresh ≤ w.fresh + 2
    omega
  · exact World.boxed_old hq
  · intro o ho
    cases ho
  · refine (congrArg File.rest (World.source_setComponent (by rfl))).trans ?_
    rw [World.boxed_source, World.source_setSource]
    exact File.rest_advance hrest

theorem Evaluated.load {name : Name} (hrest : (w.source this).rest = name.encode ++ r)
    (hs : (w.component this).scopeStack = some s) (hd : (w.component this).dataStack.Holds xs)
    (h : Returns (Component.load this) w () w') :
    Evaluated this (.load name) s xs w w' ∧ (w'.source this).rest = r := by
  obtain ⟨v, s', hload, rfl⟩ := Component.returns_load hrest hs h
  have hout : (Expr.load name).outcome s = ⟨[], some v, s'⟩ := by
    unfold Expr.outcome
    rw [hload]
  have hnone : (Expr.load name).negations w s = [] := by
    unfold Expr.negations
    rw [hout]
    rfl
  refine ⟨⟨?_, ⟨v, ?_, ?_⟩, Nat.le_refl _, fun q _ => ?_, ?_⟩, ?_⟩
  · rw [World.setComponent_component, hout]
  · rw [World.setComponent_component]
    exact hd.push _
  · rw [hout]
    rfl
  · rw [hnone]
    rfl
  · rw [hnone]
    intro o ho
    cases ho
  · refine (congrArg File.rest (World.source_setComponent (by rfl))).trans ?_
    rw [World.source_setSource]
    exact File.rest_advance hrest

theorem Expr.negations_congr (e : Expr) (hs : s.Holds levels es) (h : Allocated w levels es)
    {n : ℕ → ℕ} (hcells : ∀ q < w.fresh, w'.cell q = negate^[n q] (w.cell q)) :
    e.negations w' s = e.negations w s :=
  List.filterMap_congr fun p hp =>
    World.objectOf_congr (hcells p (h.value p ((e.outcome_spec hs).2.1 p hp)))

theorem Evaluated.binary {op : Operator} {first second : Expr} {u v : World}
    (hs : s.Holds levels es) (halloc : Allocated w levels es)
    (hfirst : Evaluated this first s xs w u) {x : Option ℕ}
    (hsecond : Evaluated this second (first.outcome s).scopes (x :: xs) u v)
    (h : Returns (Component.expression doubles this op) v () w') :
    Evaluated this (.binary op first second) s xs w w' ∧ w'.source this = v.source this := by
  obtain ⟨y, hd, -⟩ := hsecond.data
  obtain ⟨type, object, d, hd', rfl⟩ := Component.returns_expression hd h
  have hfresh : w.fresh ≤ v.fresh := le_trans hfirst.fresh hsecond.fresh
  have hsame := second.negations_congr (first.outcome_spec hs).1 halloc hfirst.cells
  have hnegations : (Expr.binary op first second).negations w s =
      first.negations w s ++ second.negations w (first.outcome s).scopes :=
    List.filterMap_append
  refine ⟨⟨?_, ⟨v.fresh + 1, ?_, isResult_boxed hfresh⟩, ?_, fun q hq => ?_, ?_⟩, ?_⟩
  · rw [World.setComponent_component]
    exact hsecond.scopes
  · rw [World.setComponent_component]
    exact hd'
  · show w.fresh ≤ v.fresh + 2
    omega
  · have hq' : q < u.fresh := lt_of_lt_of_le hq hfirst.fresh
    have hold : (v.boxed type object).cell q = v.cell q := World.boxed_old (by omega)
    rw [World.setComponent_cell, hold, hsecond.cells q hq', hfirst.cells q hq, hsame, hnegations,
      List.count_append, Nat.add_comm, Function.iterate_add_apply]
  · rw [hnegations]
    intro o ho
    rcases List.mem_append.1 ho with ho | ho
    · exact hfirst.truth o ho
    · rw [← hsame] at ho
      obtain ⟨b, hb⟩ := hsecond.truth o ho
      have hlt : o < w.fresh := by
        rw [hsame] at ho
        obtain ⟨p, hp, hpo⟩ := List.mem_filterMap.1 ho
        exact halloc.object p o ((second.outcome_spec (first.outcome_spec hs).1).2.1 p hp) hpo
      rw [hfirst.cells o hlt] at hb
      exact iterate_negate_truth hb
  · exact World.source_setComponent (by rfl)

theorem IsResult.of_cell {u : World} {value : Option ℕ} {v : ℕ} (h : IsResult w u value v)
    (hcell : w'.cell v = u.cell v) : IsResult w w' value v := by
  unfold IsResult at h ⊢
  cases value with
  | some p => exact h
  | none =>
    rw [hcell]
    exact h

/-- What an evaluation leaves on the stack has the object of the variable whose value it is, which
was there before, or a new one. -/
theorem Evaluated.object {e : Expr} {u : World} {v o : ℕ} {type : UInt8} (hs : s.Holds levels es)
    (halloc : Allocated w levels es) (heval : Evaluated this e s xs w u)
    (hresult : IsResult w u (e.outcome s).value v)
    (hv : u.cell v = some (.typed type (some o))) :
    ((e.outcome s).value.toList.filterMap w.objectOf = [o] ∧ o < w.fresh) ∨
      ((e.outcome s).value.toList.filterMap w.objectOf = [] ∧ w.fresh ≤ o) := by
  unfold IsResult at hresult
  cases hcase : (e.outcome s).value with
  | some p =>
    rw [hcase] at hresult
    obtain rfl : v = p := hresult
    have hvalue := (e.outcome_spec hs).2.2 v hcase
    have hobject : w.objectOf v = some o := by
      rw [← World.objectOf_congr (heval.cells v (halloc.value v hvalue))]
      unfold World.objectOf
      rw [hv]
    exact .inl ⟨by simp [hobject], halloc.object v o hvalue hobject⟩
  | none =>
    rw [hcase] at hresult
    obtain ⟨-, type', o', htyped, hle⟩ := hresult
    rw [hv] at htyped
    cases htyped
    exact .inr ⟨rfl, hle⟩

theorem Evaluated.not {operand : Expr} {u : World} (hs : s.Holds levels es)
    (halloc : Allocated w levels es) (hoperand : Evaluated this operand s xs w u)
    (h : Returns (Component.not this) u () w') :
    Evaluated this (.not operand) s xs w w' ∧ w'.source this = u.source this := by
  obtain ⟨x, hd, hresult⟩ := hoperand.data
  obtain ⟨v, o, b, d, hxv, hv, ho, hd', rfl⟩ := Component.returns_not hd h
  obtain rfl := Option.some.inj hxv
  have hne : x ≠ o := by
    rintro rfl
    rw [hv] at ho
    cases ho
  have hcell : ∀ q ≠ o, Function.update u.cell o (some (boolCell !b)) q = u.cell q :=
    fun q hq => Function.update_of_ne hq ..
  have hscopes : (operand.not.outcome s).scopes = (operand.outcome s).scopes := rfl
  have hvalue : (operand.not.outcome s).value = (operand.outcome s).value := rfl
  have hnegations : operand.not.negations w s = operand.negations w s ++
      ((operand.outcome s).value.toList.filterMap w.objectOf) :=
    List.filterMap_append
  -- the object is one that there was before, or one that the operand has allocated
  have hobject := hoperand.object hs halloc hresult hv
  refine ⟨⟨?_, ⟨x, ?_, ?_⟩, hoperand.fresh, fun q hq => ?_, ?_⟩, ?_⟩
  · rw [World.setComponent_component, hscopes]
    exact hoperand.scopes
  · rw [World.setComponent_component]
    exact hd'
  · rw [hvalue]
    exact hresult.of_cell (hcell x hne)
  · show Function.update u.cell o _ q = _
    rw [hnegations, List.count_append]
    rcases hobject with ⟨hlist, -⟩ | ⟨hlist, hle⟩
    · rw [hlist]
      by_cases hqo : q = o
      · subst hqo
        rw [Function.update_self, List.count_singleton_self, Function.iterate_succ_apply',
          ← hoperand.cells q hq, ho, negate_boolCell]
      · rw [hcell q hqo, List.count_singleton, if_neg (by simpa using Ne.symm hqo), Nat.add_zero]
        exact hoperand.cells q hq
    · -- a new object is none of those that there were
      rw [hlist, hcell q (by omega), List.count_nil, Nat.add_zero]
      exact hoperand.cells q hq
  · rw [hnegations]
    intro q hq
    rcases List.mem_append.1 hq with hq | hq
    · exact hoperand.truth q hq
    · rcases hobject with ⟨hlist, hlt⟩ | ⟨hlist, -⟩
      · rw [hlist, List.mem_singleton] at hq
        subst hq
        rw [hoperand.cells q hlt] at ho
        exact iterate_negate_truth ho
      · rw [hlist] at hq
        cases hq
  · exact World.source_setComponent rfl

theorem Evaluated.of_setSource {e : Expr} {f : File}
    (h : Evaluated this e s xs (w.setSource this f) w') : Evaluated this e s xs w w' :=
  ⟨h.scopes, h.data, h.fresh, h.cells, h.truth⟩

theorem Evaluated.setSource {e : Expr} (f : File) (h : Evaluated this e s xs w w') :
    Evaluated this e s xs w (w'.setSource this f) :=
  ⟨h.scopes, h.data, h.fresh, h.cells, h.truth⟩

theorem encodeAll_append (code code' : List Instruction) :
    encodeAll (code ++ code') = encodeAll code ++ encodeAll code' :=
  List.flatMap_append

theorem encodeAll_singleton (i : Instruction) : encodeAll [i] = i.encode :=
  List.flatMap_singleton ..

/-- A run over the code of an expression evaluates it. -/
theorem Expr.evaluated (e : Expr) (hrest : (w.source this).rest = encodeAll e.compile ++ r)
    (hs : (w.component this).scopeStack = some s) (hholds : s.Holds levels es)
    (hd : (w.component this).dataStack.Holds xs) (halloc : Allocated w levels es)
    (hrun : Runs doubles channelInstruction this e.compile.length w w') :
    Evaluated this e s xs w w' ∧ (w'.source this).rest = r := by
  -- on the expression; each operand is evaluated where the one before has stopped
  induction e generalizing w w' s xs r with
  | literal value =>
    rw [compile, encodeAll_singleton] at hrest
    obtain ⟨hf, hexec⟩ := hrun.instruction hrest
    have hf' :
        ((w.setSource this ((w.source this).advance 1)).source this).rest = value.encode ++ r := by
      rw [World.source_setSource]
      exact hf
    obtain ⟨heval, hlast⟩ := Evaluated.literal hf' hs hd hexec
    exact ⟨heval.of_setSource, hlast⟩
  | load name =>
    rw [compile, encodeAll_singleton] at hrest
    obtain ⟨hf, hexec⟩ := hrun.instruction hrest
    have hf' :
        ((w.setSource this ((w.source this).advance 1)).source this).rest = name.encode ++ r := by
      rw [World.source_setSource]
      exact hf
    obtain ⟨heval, hlast⟩ := Evaluated.load hf' hs hd hexec
    exact ⟨heval.of_setSource, hlast⟩
  | binary op first second ihfirst ihsecond =>
    rw [compile, encodeAll_append, encodeAll_append, List.append_assoc, List.append_assoc,
      encodeAll_singleton] at hrest
    rw [compile, List.length_append, List.length_append] at hrun
    obtain ⟨v, hoperands, hlast⟩ := hrun.split
    obtain ⟨u, hrun₁, hrun₂⟩ := hoperands.split
    obtain ⟨heval₁, hrest₁⟩ := ihfirst hrest hs hholds hd halloc hrun₁
    obtain ⟨x, hd₁, -⟩ := heval₁.data
    have halloc₁ := halloc.after heval₁.fresh heval₁.cells
    obtain ⟨heval₂, hrest₂⟩ := ihsecond hrest₁ heval₁.scopes (first.outcome_spec hholds).1 hd₁
      halloc₁ hrun₂
    obtain ⟨hf, hexec⟩ := hlast.instruction hrest₂
    obtain ⟨heval, hsource⟩ :=
      Evaluated.binary hholds halloc heval₁ (heval₂.setSource _) hexec
    refine ⟨heval, ?_⟩
    rw [hsource, World.source_setSource]
    exact hf
  | not operand ih =>
    rw [compile, encodeAll_append, List.append_assoc, encodeAll_singleton] at hrest
    rw [compile, List.length_append] at hrun
    obtain ⟨u, hrun₁, hlast⟩ := hrun.split
    obtain ⟨heval₁, hrest₁⟩ := ih hrest hs hholds hd halloc hrun₁
    obtain ⟨hf, hexec⟩ := hlast.instruction hrest₁
    obtain ⟨heval, hsource⟩ := Evaluated.not hholds halloc (heval₁.setSource _) hexec
    refine ⟨heval, ?_⟩
    rw [hsource, World.source_setSource]
    exact hf

/-! ### The variables -/

/-- The scope stack holds the same variables with the same values, contents included. -/
structure VariablesUnchanged (this : ℕ) (levels : List ℕ) (es : ℕ → List (ListMap.Located ℕ))
    (w w' : World) : Prop where
  scopes : ∃ s', (w'.component this).scopeStack = some s' ∧ s'.Holds levels es
  contents : ∀ p, w.Reachable levels es p → w'.cell p = w.cell p

theorem Allocated.of_reachable (h : ∀ p, w.Reachable levels es p → p < w.fresh) :
    Allocated w levels es where
  value := fun p hp => h p (.value hp)
  object := fun p o hp ho => by
    unfold World.objectOf at ho
    split at ho
    · rename_i type object hcell
      exact h o (.object (.value hp) (by rw [hcell, ho]))
    · cases ho

/-- A negated object is part of the value of a variable. -/
theorem Expr.reachable_of_mem_negations {e : Expr} {o : ℕ} (hs : s.Holds levels es)
    (ho : o ∈ e.negations w s) : w.Reachable levels es o := by
  obtain ⟨p, hp, hpo⟩ := List.mem_filterMap.1 ho
  have hvalue := (e.outcome_spec hs).2.1 p hp
  unfold World.objectOf at hpo
  split at hpo
  · rename_i type object hcell
    exact .object (.value hvalue) (by rw [hcell, hpo])
  · cases hpo

/-- **An expression that evaluates pushes exactly one value and leaves the variables as they are if
and only if it negates every object of a variable an even number of times.** -/
theorem evaluation_keeps_variables_iff (e : Expr)
    (hrest : (w.source this).rest = encodeAll e.compile ++ r)
    (hs : (w.component this).scopeStack = some s) (hholds : s.Holds levels es)
    (hd : (w.component this).dataStack.Holds xs)
    (halloc : ∀ p, w.Reachable levels es p → p < w.fresh)
    (hrun : Runs doubles channelInstruction this e.compile.length w w') :
    ((∃ v, (w'.component this).dataStack.Holds (some v :: xs)) ∧
        VariablesUnchanged this levels es w w') ↔
      ∀ o, Even ((e.negations w s).count o) := by
  obtain ⟨heval, -⟩ := e.evaluated hrest hs hholds hd (.of_reachable halloc) hrun
  constructor
  · rintro ⟨-, hsame⟩ o
    by_cases ho : o ∈ e.negations w s
    · have hreach := e.reachable_of_mem_negations hholds ho
      obtain ⟨b, hb⟩ := heval.truth o ho
      have hcell := heval.cells o (halloc o hreach)
      rw [hsame.contents o hreach, hb, iterate_negate_boolCell] at hcell
      exact (iterate_not_eq_iff _ b).1 (boolCell_injective (Option.some.inj hcell)).symm
    · rw [List.count_eq_zero_of_not_mem ho]
      exact Even.zero
  · intro heven
    obtain ⟨v, hdata, -⟩ := heval.data
    refine ⟨⟨v, hdata⟩, ⟨_, heval.scopes, (e.outcome_spec hholds).1⟩, fun p hp => ?_⟩
    rw [heval.cells p (halloc p hp)]
    by_cases hmem : p ∈ e.negations w s
    · obtain ⟨b, hb⟩ := heval.truth p hmem
      rw [hb, iterate_negate_boolCell, (iterate_not_eq_iff _ b).2 (heven p)]
    · rw [List.count_eq_zero_of_not_mem hmem]
      rfl

/-! ### One variable -/

def variableX : Name := ⟨[120], nulFree_x⟩

/-- One level, in which `x` has the value at the address `1`. -/
def oneVariable : ScopeStack ℕ :=
  (do
    let s ← (ScopeStack.enterScope none).declare (literal variableX.bytes)
    let (_, s) ← s.store (literal variableX.bytes) (some 1)
    return s : Option (ScopeStack ℕ)).getD (ScopeStack.enterScope none)

theorem oneVariable_holds :
    ∃ es, oneVariable.Holds [0] es ∧ es 0 ≠ [] ∧ ∀ x ∈ es 0, x.2.value = some 1 := by
  obtain ⟨s, fs, hdeclare, hholds, -, hfs⟩ :=
    (ScopeStack.enterScope_null (V := ℕ)).declare (literal variableX.bytes)
  obtain ⟨n, rfl⟩ : ∃ n, fs = [(n, ⟨literal variableX.bytes, none⟩)] := by
    rcases hfs with ⟨-, x, hx, -⟩ | hfs
    · cases hx
    · exact hfs.1
  obtain ⟨s', es', hstore, hsame, x, rest, hperm, -, rfl⟩ := @ScopeStack.Holds.store ℕ s _ 0
    (literal variableX.bytes) [] [] hholds (by simp) (by simp) (some 1)
  have hs : oneVariable = s' := by
    unfold oneVariable
    simp only [hdeclare, Option.bind_eq_bind, Option.bind_some, hstore]
    rfl
  refine ⟨_, hs ▸ hsame.holds, by simp, fun y hy => ?_⟩
  rw [Function.update_self] at hperm hy
  have hlen := hperm.length_eq
  obtain rfl : rest = [] := by simpa using hlen.symm
  obtain rfl := List.mem_singleton.1 hy
  rfl

/-- A machine in front of an expression over a variable `x` that holds a truth value. -/
def inFrontOf (e : Expr) : World :=
  .atCode (encodeAll e.compile) (some oneVariable) Stack.constructor
    [boolCell true, .typed typeBool (some 0)]

theorem inFrontOf_allocated {e : Expr} (h : ∀ x ∈ es 0, x.2.value = some 1) (p : ℕ)
    (hp : (inFrontOf e).Reachable [0] es p) : p < (inFrontOf e).fresh := by
  show p < 2
  have hcell : ∀ q < 2, ∀ fields, (inFrontOf e).cell q ≠ some (.map fields) := by
    intro q hq fields
    obtain rfl | rfl : q = 0 ∨ q = 1 := by omega
    · nofun
    · nofun
  have hobject : ∀ q < 2, ∀ type o, (inFrontOf e).cell q = some (.typed type (some o)) → o < 2 := by
    intro q hq type o hq'
    obtain rfl | rfl : q = 0 ∨ q = 1 := by omega
    · cases hq'
    · cases hq'
      omega
  induction hp with
  | value hvalue =>
    obtain ⟨a, ha, x, hx, hxp⟩ := hvalue
    obtain rfl := List.mem_singleton.1 ha
    rw [h x hx] at hxp
    cases hxp
    omega
  | object _ hq ih => exact hobject _ ih _ _ hq
  | field _ hq _ _ _ ih => exact absurd hq (hcell _ ih _)

theorem evaluation_keeps_variables_notNot :
    ∃ es w', Runs binary64 (fun _ _ => pure ()) 0 3
        (inFrontOf (.not (.not (.load variableX)))) w' ∧
      (∃ v, (w'.component 0).dataStack.Holds [some v]) ∧
      VariablesUnchanged 0 [0] es (inFrontOf (.not (.not (.load variableX)))) w' := by
  obtain ⟨es, hholds, -, hone⟩ := oneVariable_holds
  have hrun : (afterRounds binary64 (fun _ _ => pure ()) 0 3
      (inFrontOf (.not (.not (.load variableX))))).isSome = true := rfl
  obtain ⟨w', hw'⟩ := Option.isSome_iff_exists.1 hrun
  have hrun := runs_of_afterRounds hw'
  refine ⟨es, w', hrun, (evaluation_keeps_variables_iff (r := [])
    (.not (.not (.load variableX))) rfl rfl hholds Stack.constructor_holds
    (inFrontOf_allocated hone) hrun).2 fun o => ?_⟩
  have hnegations : (Expr.not (.not (.load variableX))).negations
      (inFrontOf (.not (.not (.load variableX)))) oneVariable = [0, 0] := rfl
  rw [hnegations]
  by_cases ho : o = 0
  · subst ho
    decide
  · rw [List.count_eq_zero_of_not_mem (by simpa using ho)]
    exact Even.zero

/-- `NOT` of a variable negates the variable. -/
theorem not_negates_variable :
    ∃ es w', oneVariable.Holds [0] es ∧
      Runs binary64 (fun _ _ => pure ()) 0 2 (inFrontOf (.not (.load variableX))) w' ∧
      ¬ VariablesUnchanged 0 [0] es (inFrontOf (.not (.load variableX))) w' := by
  obtain ⟨es, hholds, hsome, hone⟩ := oneVariable_holds
  have hrun : (afterRounds binary64 (fun _ _ => pure ()) 0 2
      (inFrontOf (.not (.load variableX)))).map (·.cell 0) = some (some (boolCell false)) := rfl
  obtain ⟨w', hw', hcell⟩ := Option.map_eq_some_iff.1 hrun
  refine ⟨es, w', hholds, runs_of_afterRounds hw', fun hsame => ?_⟩
  obtain ⟨x, hx⟩ := List.exists_mem_of_ne_nil _ hsome
  have hreach : (inFrontOf (.not (.load variableX))).Reachable [0] es 0 :=
    .object (.value ⟨0, List.mem_singleton_self 0, x, hx, hone x hx⟩) rfl
  have hcell' := hsame.contents 0 hreach
  rw [hcell] at hcell'
  cases hcell'

end InsenseCVM
