import InsenseCVM.Collections.Frames
import InsenseCVM.Machine.ExpressionEffect
import InsenseCVM.Machine.Literals
import InsenseCVM.Machine.Scoping

/-!
# The values of expressions

A value is what a literal is read as: the type and the bytes of a number or a truth value, or a
string. `Expr.eval` computes with values and frames. In the machine a value is a typed object and its
object in the heap, which `World.Denotes` relates to it, and the scope stack shows the frames.

`NOT` negates its operand where it lies, so an expression that negates a variable has an effect
besides its value. Of an expression that negates only what it has computed itself the compiled code
pushes the value, and changes nothing that was there before: `Expr.evaluates`.
-/

namespace InsenseCVM
open Execution ByteStream

variable {D : Type} {doubles : Doubles D} {channelInstruction : Opcode → ℕ → Exec Unit} {this : ℕ}
  {w w' u : World} {a b d : Datum} {σ σ' : Frames Datum} {p n m : ℕ} {xs : List (Option ℕ)}
  {r : List UInt8}

/-! ### Values -/

def Datum.ofBool (b : Bool) : Datum := .bytes typeBool [if b then 1 else 0]

/-- The truth value that a value is. -/
def Datum.truth : Datum → Option Bool
  | .bytes type value =>
    if type = typeBool then
      if value = [0] then some false else if value = [1] then some true else none
    else none
  | .string _ => none

/-- The typed object at `p` and its object are those of the value. -/
def World.Denotes (w : World) (p : ℕ) (d : Datum) : Prop :=
  ∃ o, p < w.fresh ∧ o < w.fresh ∧ w.cell p = some (.typed d.type (some o)) ∧
    w.cell o = some d.cell

/-- What was in the heap is still there. -/
structure World.Grows (w w' : World) : Prop where
  fresh : w.fresh ≤ w'.fresh
  cells : ∀ q < w.fresh, w'.cell q = w.cell q

theorem World.Grows.refl : w.Grows w := ⟨le_rfl, fun _ _ => rfl⟩

theorem World.Grows.trans (h : w.Grows u) (h' : u.Grows w') : w.Grows w' where
  fresh := h.fresh.trans h'.fresh
  cells q hq := (h'.cells q (lt_of_lt_of_le hq h.fresh)).trans (h.cells q hq)

theorem World.Denotes.grows (h : w.Denotes p d) (hw : w.Grows w') : w'.Denotes p d := by
  obtain ⟨o, hp, ho, htyped, hobject⟩ := h
  refine ⟨o, hp.trans_le hw.fresh, ho.trans_le hw.fresh, ?_, ?_⟩
  · rw [hw.cells p hp, htyped]
  · rw [hw.cells o ho, hobject]

theorem World.grows_boxed {type : UInt8} {object : Cell} : w.Grows (w.boxed type object) where
  fresh := Nat.le_add_right _ _
  cells _ hq := World.boxed_old hq

theorem World.denotes_boxed : (w.boxed d.type d.cell).Denotes (w.fresh + 1) d :=
  ⟨w.fresh, by simp [World.boxed], by simp [World.boxed], World.boxed_typed, World.boxed_object⟩

theorem Datum.of_truth {b : Bool} (h : d.truth = some b) : d = .ofBool b := by
  cases d with
  | string value => cases h
  | bytes type value =>
    simp only [Datum.truth] at h
    split_ifs at h with htype hzero hone
    · obtain rfl := Option.some.inj h
      rw [htype, hzero]
      rfl
    · obtain rfl := Option.some.inj h
      rw [htype, hone]
      rfl

/-! ### Operators -/

variable (doubles) in
/-- The value of an operand as a `double`. -/
def Datum.cast : Datum → D
  | .bytes type value =>
    if type = typeReal then doubles.ofBytes value
    else if type = typeUnsignedInteger then doubles.ofInt (unsignedOf value)
    else if type = typeInteger then doubles.ofInt (signedOf value)
    else if type = typeByte then doubles.ofInt (signedOf value)
    else doubles.ofInt 0
  | .string _ => doubles.ofInt 0

section Operators

variable (doubles)

/-- The integral part of a value, when it is in the range. -/
def integralPart (low high : ℤ) (value : D) : Option ℤ :=
  (doubles.truncate value).filter fun z => low ≤ z ∧ z < high

/-- The type and the bytes of a sum, a difference, a product or a quotient. -/
def arithmeticValue (combine : D → D → D) (a b : Datum) : Option (UInt8 × List UInt8) :=
  if isNumber a.type && isNumber b.type then
    let result := combine (a.cast doubles) (b.cast doubles)
    if a.type = typeReal ∨ b.type = typeReal then some (typeReal, doubles.toBytes result)
    else if a.type = typeUnsignedInteger ∨ b.type = typeUnsignedInteger then
      (integralPart doubles 0 (2 ^ 32) result).map fun z => (typeUnsignedInteger, bytesOf 4 z)
    else if a.type = typeInteger ∨ b.type = typeInteger then
      (integralPart doubles (-2 ^ 31) (2 ^ 31) result).map fun z => (typeInteger, bytesOf 4 z)
    else (integralPart doubles (-2 ^ 7) (2 ^ 7) result).map fun z => (typeByte, bytesOf 1 z)
  else none

def remainderValue (a b : Datum) : Option (UInt8 × List UInt8) :=
  if isNumber a.type && isNumber b.type && a.type ≠ typeReal && b.type ≠ typeReal then do
    let first ← integralPart doubles (-2 ^ 31) (2 ^ 31) (a.cast doubles)
    let second ← integralPart doubles (-2 ^ 31) (2 ^ 31) (b.cast doubles)
    if second = 0 ∨ (first = -2 ^ 31 ∧ second = -1) then none
    else if a.type = typeUnsignedInteger ∨ b.type = typeUnsignedInteger then
      some (typeUnsignedInteger, bytesOf 4 (first.tmod second))
    else if a.type = typeInteger ∨ b.type = typeInteger then
      some (typeInteger, bytesOf 4 (first.tmod second))
    else some (typeByte, bytesOf 1 (first.tmod second))
  else none

omit doubles in
/-- The second truth value counts only when the first is `decides`. -/
def logicalValue (decides : Bool) (a b : Datum) : Option (UInt8 × List UInt8) :=
  if a.type = typeBool ∧ b.type = typeBool then
    a.truth.bind fun value => (if value = decides then b.truth else some value).map fun result =>
      (typeBool, [if result then 1 else 0])
  else none

def comparisonValue (compare : D → D → Bool) (a b : Datum) : Option (UInt8 × List UInt8) :=
  if isNumber a.type && isNumber b.type then
    some (typeBool, [if compare (a.cast doubles) (b.cast doubles) then 1 else 0])
  else none

/-- The type and the bytes of the result of an operator. -/
def Operator.value (a b : Datum) : Operator → Option (UInt8 × List UInt8)
  | .add => arithmeticValue doubles doubles.add a b
  | .sub => arithmeticValue doubles doubles.sub a b
  | .mul => arithmeticValue doubles doubles.mul a b
  | .div => arithmeticValue doubles doubles.div a b
  | .mod => remainderValue doubles a b
  | .and => logicalValue true a b
  | .or => logicalValue false a b
  | .less => comparisonValue doubles doubles.less a b
  | .lessEqual => comparisonValue doubles doubles.lessEqual a b
  | .equal => comparisonValue doubles doubles.equal a b
  | .moreEqual => comparisonValue doubles (fun x y => doubles.lessEqual y x) a b
  | .more => comparisonValue doubles (fun x y => doubles.less y x) a b
  | .unequal => comparisonValue doubles (fun x y => !doubles.equal x y) a b

/-- An operand that was popped is the value. -/
structure IsOperand (w : World) (x : Operand D) (a : Datum) : Prop where
  type : x.type = a.type
  value : x.value = a.cast doubles
  object : ∃ o, x.object = some o ∧ w.cell o = some a.cell

end Operators

theorem World.Denotes.castOperand (doubles : Doubles D) (h : w.Denotes p a) :
    ∃ x, Returns (castOperand doubles (some p)) w x w ∧ IsOperand doubles w x a := by
  obtain ⟨o, -, -, htyped, hobject⟩ := h
  cases a with
  | string value =>
    have hstring : w.cell p = some (.typed typeString (some o)) := htyped
    refine ⟨⟨typeString, some o, doubles.ofInt 0⟩, ?_, rfl, rfl, o, rfl, hobject⟩
    exact (returns_typedObject.2 ⟨⟨p, rfl, hstring⟩, rfl⟩).bind (returns_pure.2 ⟨rfl, rfl⟩)
  | bytes type value =>
    have hbytes : w.cell p = some (.typed type (some o)) := htyped
    have hread : Returns (bytesAt (some o)) w value w :=
      returns_bytesAt.2 ⟨⟨o, rfl, hobject⟩, rfl⟩
    refine ⟨⟨type, some o, (Datum.bytes type value).cast doubles⟩, ?_, rfl, rfl, o, rfl, hobject⟩
    refine (returns_typedObject.2 ⟨⟨p, rfl, hbytes⟩, rfl⟩).bind ?_
    simp only [Datum.cast]
    by_cases hreal : type = typeReal
    · simp only [if_pos hreal]
      exact hread.bind (returns_pure.2 ⟨rfl, rfl⟩)
    simp only [if_neg hreal]
    by_cases hunsigned : type = typeUnsignedInteger
    · simp only [if_pos hunsigned]
      exact hread.bind (returns_pure.2 ⟨rfl, rfl⟩)
    simp only [if_neg hunsigned]
    by_cases hinteger : type = typeInteger
    · simp only [if_pos hinteger]
      exact hread.bind (returns_pure.2 ⟨rfl, rfl⟩)
    simp only [if_neg hinteger]
    by_cases hbyte : type = typeByte
    · simp only [if_pos hbyte]
      exact hread.bind (returns_pure.2 ⟨rfl, rfl⟩)
    simp only [if_neg hbyte]
    exact returns_pure.2 ⟨rfl, rfl⟩

theorem returns_integralPart {low high z : ℤ} {value : D}
    (h : integralPart doubles low high value = some z) :
    Returns (toIntegral doubles low high value) w z w := by
  obtain ⟨htruncate, hrange⟩ := Option.filter_eq_some_iff.1 h
  unfold toIntegral
  rw [htruncate]
  simp only [decide_eq_true_eq] at hrange
  simp only [hrange, and_self, if_true]
  exact returns_pure.2 ⟨rfl, rfl⟩

section Operate

variable {x y : Operand D} {type : UInt8} {value : List UInt8}

theorem IsOperand.arithmetic {combine : D → D → D} (hx : IsOperand doubles w x a)
    (hy : IsOperand doubles w y b)
    (h : arithmeticValue doubles combine a b = some (type, value)) :
    Returns (arithmetic doubles combine x y) w (type, value) w := by
  unfold arithmeticValue at h
  unfold InsenseCVM.arithmetic
  rw [hx.type, hy.type, hx.value, hy.value]
  split_ifs at h with hnumber hreal hunsigned hinteger
  all_goals rw [Bool.and_eq_true] at hnumber
  · rw [if_neg (by simp [hnumber]), if_pos hreal]
    exact returns_pure.2 ⟨(Option.some.inj h).symm, rfl⟩
  · obtain ⟨z, hz, heq⟩ := Option.map_eq_some_iff.1 h
    rw [if_neg (by simp [hnumber]), if_neg hreal, if_pos hunsigned]
    exact (returns_integralPart hz).bind (returns_pure.2 ⟨heq.symm, rfl⟩)
  · obtain ⟨z, hz, heq⟩ := Option.map_eq_some_iff.1 h
    rw [if_neg (by simp [hnumber]), if_neg hreal, if_neg hunsigned, if_pos hinteger]
    exact (returns_integralPart hz).bind (returns_pure.2 ⟨heq.symm, rfl⟩)
  · obtain ⟨z, hz, heq⟩ := Option.map_eq_some_iff.1 h
    rw [if_neg (by simp [hnumber]), if_neg hreal, if_neg hunsigned, if_neg hinteger]
    exact (returns_integralPart hz).bind (returns_pure.2 ⟨heq.symm, rfl⟩)

theorem IsOperand.modulo (hx : IsOperand doubles w x a) (hy : IsOperand doubles w y b)
    (h : remainderValue doubles a b = some (type, value)) :
    Returns (modulo doubles x y) w (type, value) w := by
  unfold remainderValue at h
  unfold InsenseCVM.modulo
  rw [hx.type, hy.type, hx.value, hy.value]
  by_cases hnumber : (isNumber a.type && isNumber b.type && decide (a.type ≠ typeReal) &&
      decide (b.type ≠ typeReal)) = true
  swap
  · rw [if_neg hnumber] at h
    cases h
  rw [if_pos hnumber] at h
  simp only [Bool.and_eq_true, decide_eq_true_eq, ne_eq] at hnumber
  obtain ⟨⟨⟨ha, hb⟩, hareal⟩, hbreal⟩ := hnumber
  simp only [Option.bind_eq_bind, Option.bind_eq_some_iff] at h
  obtain ⟨first, hfirst, second, hsecond, h⟩ := h
  split_ifs at h with hundefined hunsigned hinteger
  all_goals
    have hremainder : Returns (remainder doubles (a.cast doubles) (b.cast doubles)) w
        (first.tmod second) w := by
      refine (returns_integralPart hfirst).bind ((returns_integralPart hsecond).bind ?_)
      rw [if_neg hundefined]
      exact returns_pure.2 ⟨rfl, rfl⟩
    rw [if_neg (by simp [ha, hb]), if_neg (by simp [hareal, hbreal])]
    refine hremainder.bind ?_
  · rw [if_pos hunsigned]
    exact returns_pure.2 ⟨(Option.some.inj h).symm, rfl⟩
  · rw [if_neg hunsigned, if_pos hinteger]
    exact returns_pure.2 ⟨(Option.some.inj h).symm, rfl⟩
  · rw [if_neg hunsigned, if_neg hinteger]
    exact returns_pure.2 ⟨(Option.some.inj h).symm, rfl⟩

theorem IsOperand.boolAt {truth : Bool} (hx : IsOperand doubles w x a)
    (h : a.truth = some truth) : Returns (boolAt x.object) w truth w := by
  obtain ⟨o, ho, hobject⟩ := hx.object
  rw [ho]
  obtain rfl := Datum.of_truth h
  exact returns_boolAt.2 ⟨⟨o, rfl, hobject⟩, rfl⟩

theorem IsOperand.logical {decides : Bool} (hx : IsOperand doubles w x a)
    (hy : IsOperand doubles w y b) (h : logicalValue decides a b = some (type, value)) :
    Returns (logical decides x y) w (type, value) w := by
  unfold logicalValue at h
  unfold InsenseCVM.logical
  rw [hx.type, hy.type]
  by_cases hbool : a.type = typeBool ∧ b.type = typeBool
  swap
  · rw [if_neg hbool] at h
    cases h
  rw [if_pos hbool] at h
  obtain ⟨first, hfirst, hrest⟩ := Option.bind_eq_some_iff.1 h
  obtain ⟨result, hresult, heq⟩ := Option.map_eq_some_iff.1 hrest
  rw [if_neg (by simp [hbool])]
  refine (hx.boolAt hfirst).bind ?_
  by_cases hdecides : first = decides
  · rw [if_pos hdecides] at hresult ⊢
    exact (hy.boolAt hresult).bind (returns_pure.2 ⟨heq.symm, rfl⟩)
  · rw [if_neg hdecides] at hresult ⊢
    obtain rfl := Option.some.inj hresult
    exact returns_pure.2 ⟨heq.symm, rfl⟩

theorem IsOperand.comparison (compare : D → D → Bool) (hx : IsOperand doubles w x a)
    (hy : IsOperand doubles w y b) (h : comparisonValue doubles compare a b = some (type, value)) :
    Returns (comparison compare x y) w (type, value) w := by
  unfold comparisonValue at h
  unfold InsenseCVM.comparison
  rw [hx.type, hy.type, hx.value, hy.value]
  by_cases hnumber : (isNumber a.type && isNumber b.type) = true
  swap
  · rw [if_neg hnumber] at h
    cases h
  rw [if_pos hnumber] at h
  rw [Bool.and_eq_true] at hnumber
  rw [if_neg (by simp [hnumber])]
  exact returns_pure.2 ⟨(Option.some.inj h).symm, rfl⟩

/-- The handler computes the value of the operator. -/
theorem IsOperand.operate (hx : IsOperand doubles w x a) (hy : IsOperand doubles w y b)
    {op : Operator} (h : op.value doubles a b = some (type, value)) :
    Returns (operate doubles x y op) w (type, value) w := by
  cases op with
  | add | sub | mul | div => exact hx.arithmetic hy h
  | mod => exact hx.modulo hy h
  | and | or => exact hx.logical hy h
  | less | lessEqual | equal => exact hx.comparison _ hy h
  | moreEqual => exact hx.comparison (fun x y => doubles.lessEqual y x) hy h
  | more => exact hx.comparison (fun x y => doubles.less y x) hy h
  | unequal => exact hx.comparison (fun x y => !doubles.equal x y) hy h

end Operate

/-! ### Where a component is -/

/-- The scope stack, null before the first scope, stands for the frames. -/
def ScopesShow (R : ℕ → Datum → Prop) (scopeStack : Option (ScopeStack ℕ))
    (frames : Frames Datum) : Prop :=
  match scopeStack with
  | none => frames = []
  | some s => s.Shows R frames

/-- The variables of the component have the values of the frames, its data stack holds `xs`, and it
has been stopped or not. -/
structure World.Shows (w : World) (this : ℕ) (R : ℕ → Datum → Prop) (stopped : Bool)
    (σ : Frames Datum) (xs : List (Option ℕ)) : Prop where
  stop : (w.component this).stop = stopped
  scopes : ScopesShow R (w.component this).scopeStack σ
  data : (w.component this).dataStack.Holds xs

/-- The same component with other stacks, which may have been stopped. -/
def Component.SameButStacks (c c' : Component) : Prop :=
  ∃ scopeStack dataStack stop,
    c' = { c with scopeStack := scopeStack, dataStack := dataStack, stop := stop }

theorem Component.SameButStacks.refl {c : Component} : c.SameButStacks c := ⟨_, _, _, rfl⟩

theorem Component.SameButStacks.trans {c c' c'' : Component} (h : c.SameButStacks c')
    (h' : c'.SameButStacks c'') : c.SameButStacks c'' := by
  obtain ⟨_, _, _, rfl⟩ := h
  obtain ⟨_, _, _, rfl⟩ := h'
  exact ⟨_, _, _, rfl⟩

theorem Component.SameButStacks.inProject {c c' : Component} (h : c.SameButStacks c') :
    c'.inProject = c.inProject := by
  obtain ⟨_, _, _, rfl⟩ := h
  rfl

/-- The component is `n` bytes further on, with other stacks. Nothing happened to what was in the heap,
nor to the other components. -/
structure World.Onward (this n : ℕ) (w w' : World) : Prop where
  source : w'.source this = (w.source this).advance n
  own : (w.component this).SameButStacks (w'.component this)
  grows : w.Grows w'
  others : ∀ c ≠ this, w'.component c = w.component c

variable {R R' : ℕ → Datum → Prop} {stopped : Bool}

theorem ScopesShow.mono {o : Option (ScopeStack ℕ)} (h : ScopesShow R o σ)
    (hR : ∀ p d, R p d → R' p d) : ScopesShow R' o σ := by
  cases o with
  | none => exact h
  | some s => exact ScopeStack.Shows.mono h hR

theorem World.Shows.mono (h : w.Shows this R stopped σ xs) (hR : ∀ p d, R p d → R' p d) :
    w.Shows this R' stopped σ xs :=
  ⟨h.stop, h.scopes.mono hR, h.data⟩

theorem World.Onward.trans (h : World.Onward this n w u) (h' : World.Onward this m u w') :
    World.Onward this (n + m) w w' where
  source := by rw [h'.source, h.source, File.advance_advance]
  own := h.own.trans h'.own
  grows := h.grows.trans h'.grows
  others c hc := (h'.others c hc).trans (h.others c hc)

theorem World.onward_setSource :
    World.Onward this n w (w.setSource this ((w.source this).advance n)) :=
  ⟨World.source_setSource _, .refl, ⟨le_rfl, fun _ _ => rfl⟩, fun _ _ => rfl⟩

theorem World.onward_boxed {type : UInt8} {object : Cell} :
    World.Onward this 0 w (w.boxed type object) :=
  ⟨rfl, .refl, World.grows_boxed, fun _ _ => rfl⟩

theorem World.onward_setComponent {c : Component} (h : (w.component this).SameButStacks c) :
    World.Onward this 0 w (w.setComponent this c) where
  source := by
    obtain ⟨_, _, _, rfl⟩ := h
    exact World.source_setComponent rfl
  own := by rwa [World.setComponent_component]
  grows := ⟨le_rfl, fun _ _ => rfl⟩
  others _ hc := Function.update_of_ne hc ..

/-! ### Rounds of the loop -/

variable (doubles channelInstruction this) in
/-- Some rounds of the loop lead from `w` to `w'`. -/
def Reaches (w w' : World) : Prop := ∃ k, Runs doubles channelInstruction this k w w'

theorem Reaches.refl : Reaches doubles channelInstruction this w w := ⟨0, .refl w⟩

theorem Reaches.trans (h : Reaches doubles channelInstruction this w u)
    (h' : Reaches doubles channelInstruction this u w') :
    Reaches doubles channelInstruction this w w' := by
  obtain ⟨k, hk⟩ := h
  obtain ⟨l, hl⟩ := h'
  exact ⟨k + l, hk.trans hl⟩

/-- One round at an instruction. -/
theorem Reaches.instruction {i : Instruction} (hstop : (w.component this).stop = false)
    (hrest : (w.source this).rest = i.encode ++ r)
    (h : Returns (execute doubles channelInstruction this i.opcode)
      (w.setSource this ((w.source this).advance 1)) () w') :
    Reaches doubles channelInstruction this w w' :=
  ⟨1, .step ((runOne_opcode hstop (opcodeAt_of_rest hrest)).2 h) (.refl w')⟩

/-! ### Expressions -/

namespace Expr

variable (doubles) in
/-- The value of an expression in frames, where it has one. -/
def eval (σ : Frames Datum) : Expr → Option Datum
  | literal value => some value.datum
  | load name => σ.lookup (InsenseCVM.literal name.bytes)
  | binary op first second =>
    (first.eval σ).bind fun a => (second.eval σ).bind fun b =>
      (op.value doubles a b).map fun result => .bytes result.1 result.2
  | not operand => ((operand.eval σ).bind Datum.truth).map fun b => .ofBool !b

/-- The value of the expression is a new object. -/
def isNew : Expr → Bool
  | literal _ => true
  | load _ => false
  | binary _ _ _ => true
  | not operand => operand.isNew

/-- Only new objects are negated. -/
def negatesNew : Expr → Bool
  | literal _ => true
  | load _ => true
  | binary _ first second => first.negatesNew && second.negatesNew
  | not operand => operand.isNew && operand.negatesNew

end Expr

/-- From `w` the component has gone `n` bytes further, and pushed the value `d`; where it is `new`, its
object is one that `w` did not have. -/
structure World.Pushed (this n : ℕ) (R : ℕ → Datum → Prop) (σ : Frames Datum)
    (xs : List (Option ℕ)) (d : Datum) (new : Bool) (w w' : World) (p : ℕ) : Prop where
  onward : World.Onward this n w w'
  shows : w'.Shows this R false σ (some p :: xs)
  denotes : w'.Denotes p d
  object : new = true → ∀ type o, w'.cell p = some (.typed type (some o)) → w.fresh ≤ o

/-- A new object is made and pushed. -/
theorem World.Shows.box {v : World} (h : v.Shows this R false σ xs) {s : Stack ℕ}
    (hs : s.Holds (some (v.fresh + 1) :: xs)) :
    World.Pushed this 0 R σ xs d true v ((v.boxed d.type d.cell).setComponent this
      { v.component this with dataStack := s }) (v.fresh + 1) where
  onward := World.onward_boxed.trans (n := 0) (World.onward_setComponent ⟨_, _, _, rfl⟩)
  shows := by
    refine ⟨?_, ?_, ?_⟩ <;> rw [World.setComponent_component]
    · exact h.stop
    · exact h.scopes
    · exact hs
  denotes := World.denotes_boxed
  object _ type o ho := by
    rw [World.setComponent_cell, World.boxed_typed] at ho
    cases ho
    exact le_rfl

/-- The value of a variable is pushed. -/
theorem World.Shows.load {v : World} (h : v.Shows this R false σ xs) {s : ScopeStack ℕ}
    (hs : s.Shows R σ) (hp : v.Denotes p d) :
    World.Pushed this 0 R σ xs d false v (v.setComponent this { v.component this with
      scopeStack := some s
      dataStack := (v.component this).dataStack.push (some p) }) p where
  onward := World.onward_setComponent ⟨_, _, _, rfl⟩
  shows := by
    refine ⟨?_, ?_, ?_⟩ <;> rw [World.setComponent_component]
    · exact h.stop
    · exact hs
    · exact h.data.push _
  denotes := hp
  object hnew := absurd hnew Bool.false_ne_true

theorem World.Pushed.after {new : Bool} (h : World.Onward this n w u)
    (hpushed : World.Pushed this m R σ xs d new u w' p) :
    World.Pushed this (n + m) R σ xs d new w w' p where
  onward := h.trans hpushed.onward
  shows := hpushed.shows
  denotes := hpushed.denotes
  object hnew type o ho := h.grows.fresh.trans (hpushed.object hnew type o ho)

theorem World.Shows.setSource (h : w.Shows this R stopped σ xs) (f : File) :
    (w.setSource this f).Shows this R stopped σ xs :=
  ⟨h.stop, h.scopes, h.data⟩

theorem World.Pushed.setSource {new : Bool} (h : World.Pushed this n R σ xs d new w w' p) :
    World.Pushed this (n + m) R σ xs d new w (w'.setSource this ((w'.source this).advance m)) p where
  onward := h.onward.trans World.onward_setSource
  shows := h.shows.setSource _
  denotes := h.denotes
  object := h.object

namespace Component

theorem pushes {value : Literal} (hrest : (w.source this).rest = value.encode ++ r)
    (h : w.Shows this R false σ xs) :
    ∃ w' p, Returns (push this) w () w' ∧
      World.Pushed this value.encode.length R σ xs value.datum true w w' p := by
  have hdata : Returns (readData this) w (some (w.fresh + 1))
      (w.afterLiteral this value.encode.length value.datum) :=
    returns_componentReadData_some.2 ⟨_, _, reads_literal value _ r hrest, rfl, rfl⟩
  refine ⟨_, _, ?_, .after World.onward_setSource ((h.setSource _).box (h.data.push _))⟩
  exact hdata.bind returns_pushData

theorem loads {name : Name} (hrest : (w.source this).rest = name.encode ++ r)
    (h : w.Shows this R false σ xs) (hR : ∀ p d, R p d → w.Denotes p d)
    (hlookup : σ.lookup (literal name.bytes) = some d) :
    ∃ w' p, Returns (load this) w () w' ∧
      World.Pushed this name.encode.length R σ xs d false w w' p := by
  have hread : Returns (onSource this readString) w (literal name.bytes)
      (w.setSource this ((w.source this).advance name.encode.length)) :=
    returns_onSource.2 ⟨_, reads_name name _ r hrest, rfl⟩
  cases hs : (w.component this).scopeStack with
  | none =>
    -- there are no frames
    obtain rfl : σ = [] := by simpa [hs, ScopesShow] using h.scopes
    cases hlookup
  | some s =>
    have hshows : s.Shows R σ := by simpa [hs, ScopesShow] using h.scopes
    obtain ⟨p, s', hload, hshows', hp⟩ := hshows.load hlookup
    have hpushed := (h.setSource ((w.source this).advance name.encode.length)).load hshows'
      (hR p d hp)
    refine ⟨_, p, ?_, .after (m := 0) World.onward_setSource hpushed⟩
    have hload' : Returns (onScopes this (·.load (literal name.bytes)))
        (w.setSource this ((w.source this).advance name.encode.length)) (some p) _ :=
      returns_onScopes.2 ⟨s, s', hs, hload, rfl⟩
    unfold Component.load
    refine hread.bind (hload'.bind ?_)
    convert returns_pushData using 1
    simp

/-- An item is taken off the data stack. -/
theorem pops {item : Option ℕ} (h : w.Shows this R stopped σ (item :: xs)) :
    ∃ w', Returns (popData this) w item w' ∧ World.Onward this 0 w w' ∧
      w'.Shows this R stopped σ xs ∧ w'.cell = w.cell ∧ w'.fresh = w.fresh := by
  obtain ⟨s, hpop, hs⟩ := h.data.pop_cons
  refine ⟨_, returns_popData.2 ⟨s, hpop, rfl⟩, World.onward_setComponent ⟨_, _, _, rfl⟩, ?_, rfl, rfl⟩
  refine ⟨?_, ?_, ?_⟩ <;> rw [World.setComponent_component]
  · exact h.stop
  · exact h.scopes
  · exact hs

theorem calculates {op : Operator} {q : ℕ} {type : UInt8} {value : List UInt8}
    (h : w.Shows this R false σ (some q :: some p :: xs)) (ha : w.Denotes p a)
    (hb : w.Denotes q b) (hop : op.value doubles a b = some (type, value)) :
    ∃ w' z, Returns (expression doubles this op) w () w' ∧
      World.Pushed this 0 R σ xs (.bytes type value) true w w' z := by
  obtain ⟨u, hsecond, hu, hshows, -, -⟩ := pops h
  obtain ⟨v, hfirst, hv, hshows', -, -⟩ := pops hshows
  have honward := hu.trans hv
  obtain ⟨x, hx, hxa⟩ := (ha.grows honward.grows).castOperand doubles
  obtain ⟨y, hy, hyb⟩ := (hb.grows honward.grows).castOperand doubles
  refine ⟨_, _, ?_, .after honward (hshows'.box (hshows'.data.push _))⟩
  have hsize : (w.component this).dataStack.size = xs.length + 2 := h.data.size_eq
  unfold expression
  rw [returns_self.bind_iff, hsize, if_neg (by omega)]
  refine hsecond.bind (hfirst.bind (hx.bind (hy.bind ((hxa.operate hyb hop).bind ?_))))
  exact returns_boxed.2 returns_pushData

/-- The object that is negated is a new one, so that nothing else is seen to change. -/
theorem negates {truth : Bool} (h : World.Pushed this n R σ xs d true w u p)
    (hd : d.truth = some truth) :
    ∃ w', Returns (not this) u () w' ∧
      World.Pushed this n R σ xs (.ofBool !truth) true w w' p := by
  obtain rfl := Datum.of_truth hd
  obtain ⟨o, hp, ho, htyped, hobject⟩ := h.denotes
  have hnew := h.object rfl _ o htyped
  obtain ⟨v, hpop, hv, hshows, hcell, hfresh⟩ := pops h.shows
  have hne : p ≠ o := by
    rintro rfl
    rw [htyped] at hobject
    cases hobject
  have honward : World.Onward this n w v := h.onward.trans (m := 0) hv
  let negated : World := { v with cell := Function.update v.cell o (some (boolCell !truth)) }
  have hcells : ∀ q ≠ o, negated.cell q = u.cell q := fun q hq => by
    rw [← hcell]
    exact Function.update_of_ne hq ..
  refine ⟨negated.setComponent this { v.component this with
    dataStack := (v.component this).dataStack.push (some p) }, ?_, ?_⟩
  · have hsize : (u.component this).dataStack.size = xs.length + 1 := h.shows.data.size_eq
    have htype : Returns (typedObject (some p)) v (typeBool, some o) v :=
      returns_typedObject.2 ⟨⟨p, rfl, by rw [hcell]; exact htyped⟩, rfl⟩
    have hvalue : Returns (boolAt (some o)) v truth v :=
      returns_boolAt.2 ⟨⟨o, rfl, by rw [hcell]; exact hobject⟩, rfl⟩
    unfold not
    rw [returns_self.bind_iff, hsize, if_neg (by omega)]
    refine hpop.bind (htype.bind ?_)
    simp only [ne_eq, not_true_eq_false, if_false]
    refine hvalue.bind ((returns_follow.2 ⟨rfl, rfl⟩).bind ?_)
    exact returns_modify.bind returns_pushData
  · constructor
    · refine ⟨?_, ?_, ⟨honward.grows.fresh, fun q hq => ?_⟩, fun c hc => ?_⟩
      · exact (World.source_setComponent (by rfl)).trans honward.source
      · rw [World.setComponent_component]
        exact honward.own.trans ⟨_, _, _, rfl⟩
      · exact (hcells q (by omega)).trans (h.onward.grows.cells q hq)
      · exact (Function.update_of_ne hc ..).trans (honward.others c hc)
    · refine ⟨?_, ?_, ?_⟩ <;> rw [World.setComponent_component]
      · exact hshows.stop
      · exact hshows.scopes
      · exact hshows.data.push _
    · refine ⟨o, hfresh ▸ hp, hfresh ▸ ho, (hcells p hne).trans htyped, ?_⟩
      exact Function.update_self ..
    · intro _ type q hq
      rw [World.setComponent_cell, hcells p hne, htyped] at hq
      cases hq
      exact hnew

end Component

/-- The opcode of an instruction is read before its handler runs. -/
theorem World.Shows.instruction {i : Instruction} {new : Bool} {ys : List (Option ℕ)}
    (h : w.Shows this R false σ ys) (hrest : (w.source this).rest = i.encode ++ r)
    (hrun : ∀ u, u = w.setSource this ((w.source this).advance 1) →
      (u.source this).rest = i.operands ++ r → u.Shows this R false σ ys →
      ∃ w' p, Returns (execute doubles channelInstruction this i.opcode) u () w' ∧
        World.Pushed this i.operands.length R σ xs d new u w' p) :
    ∃ w' p, Reaches doubles channelInstruction this w w' ∧
      World.Pushed this i.encode.length R σ xs d new w w' p := by
  obtain ⟨w', p, hexec, hpushed⟩ := hrun _ rfl
    (by rw [World.source_setSource]; exact File.rest_advance_one hrest) (h.setSource _)
  refine ⟨w', p, .instruction h.stop hrest hexec, ?_⟩
  rw [show i.encode.length = 1 + i.operands.length by rw [Nat.add_comm]; rfl]
  exact .after World.onward_setSource hpushed

/-- The code of an expression pushes its value. -/
theorem Expr.pushes {e : Expr} (hnew : e.negatesNew = true) (heval : e.eval doubles σ = some d)
    (hrest : (w.source this).rest = encodeAll e.compile ++ r) (h : w.Shows this R false σ xs)
    (hR : ∀ p d, R p d → w.Denotes p d) :
    ∃ w' p, Reaches doubles channelInstruction this w w' ∧
      World.Pushed this (encodeAll e.compile).length R σ xs d e.isNew w w' p := by
  -- on the expression; the scopes stand for the frames by what was denoted at the start
  induction e generalizing w xs d r with
  | literal value =>
    obtain rfl := Option.some.inj heval
    rw [compile, encodeAll_singleton] at hrest ⊢
    refine h.instruction hrest fun u hu hrest' h' => ?_
    exact Component.pushes hrest' h'
  | load name =>
    rw [compile, encodeAll_singleton] at hrest ⊢
    refine h.instruction hrest fun u hu hrest' h' => ?_
    obtain rfl := hu
    exact Component.loads hrest' h' hR heval
  | binary op first second ihfirst ihsecond =>
    obtain ⟨a, ha, hsome⟩ := Option.bind_eq_some_iff.1 heval
    obtain ⟨b, hb, hsome⟩ := Option.bind_eq_some_iff.1 hsome
    obtain ⟨⟨type, value⟩, hop, rfl⟩ := Option.map_eq_some_iff.1 hsome
    rw [negatesNew, Bool.and_eq_true] at hnew
    rw [compile, encodeAll_append, encodeAll_append, encodeAll_singleton] at hrest ⊢
    rw [List.append_assoc, List.append_assoc] at hrest
    obtain ⟨u, p, hreach₁, hfirst⟩ := ihfirst hnew.1 ha hrest h hR
    have hrest₁ : (u.source this).rest = encodeAll second.compile ++
        ((Instruction.expression op).encode ++ r) := by
      rw [hfirst.onward.source]
      exact File.rest_advance hrest
    obtain ⟨v, q, hreach₂, hsecond⟩ := ihsecond hnew.2 hb hrest₁ hfirst.shows
      fun p d hp => (hR p d hp).grows hfirst.onward.grows
    have hrest₂ : (v.source this).rest = (Instruction.expression op).encode ++ r := by
      rw [hsecond.onward.source]
      exact File.rest_advance hrest₁
    have hfirst' : v.Denotes p a := hfirst.denotes.grows hsecond.onward.grows
    obtain ⟨w', z, hreach₃, hresult⟩ := hsecond.shows.instruction hrest₂ fun x hx _ h' => by
      obtain rfl := hx
      exact Component.calculates h' hfirst' hsecond.denotes hop
    refine ⟨w', z, hreach₁.trans (hreach₂.trans hreach₃), ?_⟩
    rw [List.length_append, List.length_append]
    exact .after (hfirst.onward.trans hsecond.onward) hresult
  | not operand ih =>
    obtain ⟨truth, hsome, rfl⟩ := Option.map_eq_some_iff.1 heval
    obtain ⟨d, hd, htruth⟩ := Option.bind_eq_some_iff.1 hsome
    rw [negatesNew, Bool.and_eq_true] at hnew
    rw [compile, encodeAll_append, encodeAll_singleton] at hrest ⊢
    rw [List.append_assoc] at hrest
    obtain ⟨u, p, hreach, hoperand⟩ := ih hnew.2 hd hrest h hR
    rw [hnew.1] at hoperand
    have hrest' : (u.source this).rest = Instruction.not.encode ++ r := by
      rw [hoperand.onward.source]
      exact File.rest_advance hrest
    obtain ⟨w', hexec, hpushed⟩ := Component.negates (hoperand.setSource (m := 1)) htruth
    refine ⟨w', p, hreach.trans (.instruction hoperand.shows.stop hrest' hexec), ?_⟩
    rw [List.length_append, isNew, hnew.1]
    exact hpushed

/-- **The code of an expression that negates only new objects pushes the value that the expression has
in the frames, whatever comes behind the code. Nothing else that can be seen has changed: the variables
have their values, and so has all that was in the heap.** -/
theorem expression_evaluated {e : Expr} (hnew : e.negatesNew = true)
    (heval : e.eval doubles σ = some d) (hrest : (w.source this).rest = encodeAll e.compile ++ r)
    (h : w.Shows this w.Denotes false σ xs) :
    ∃ w' p, Reaches doubles channelInstruction this w w' ∧
      World.Onward this (encodeAll e.compile).length w w' ∧
      w'.Shows this w'.Denotes false σ (some p :: xs) ∧ w'.Denotes p d := by
  obtain ⟨w', p, hreach, hpushed⟩ := Expr.pushes hnew heval hrest h fun _ _ h => h
  exact ⟨w', p, hreach, hpushed.onward,
    hpushed.shows.mono fun _ _ h => h.grows hpushed.onward.grows, hpushed.denotes⟩

/-! ### An expression -/

theorem isFixedType_bool : isFixedType typeBool = true := rfl

theorem getSize_bool (b : UInt8) : [b].length = getSize 0 typeBool := rfl

def literalFalse : Literal := .fixed typeBool [0] isFixedType_bool (getSize_bool 0)

/-- `x and not false` -/
def andNotFalse : Expr := .binary .and (.load variableX) (.not (.literal literalFalse))

theorem expression_evaluated_andNotFalse : ∃ w w' p,
    Reaches binary64 (fun _ _ => pure ()) 0 w w' ∧ w'.Denotes p (.ofBool true) := by
  have hvalue : ∀ c s p d, p = 1 ∧ d = Datum.ofBool true → (World.atCode c s Stack.constructor
      [boolCell true, .typed typeBool (some 0)]).Denotes p d := by
    rintro c s p d ⟨rfl, rfl⟩
    exact ⟨0, Nat.lt_succ_self 1, Nat.zero_lt_succ 1, rfl, rfl⟩
  obtain ⟨_, s, -, -, hs⟩ := ScopeStack.shows_enterScope.bind
    (R := fun p d => p = 1 ∧ d = Datum.ofBool true) (k := literal variableX.bytes) rfl ⟨rfl, rfl⟩
  have hscopes := hs.mono (hvalue (encodeAll andNotFalse.compile) (some s))
  obtain ⟨w', p, hreach, -, -, hp⟩ := expression_evaluated (e := andNotFalse) (r := [])
    (w := .atCode _ (some s) Stack.constructor _) rfl rfl rfl
    ⟨rfl, hscopes, Stack.constructor_holds⟩
  exact ⟨_, w', p, hreach, hp⟩

end InsenseCVM
