import InsenseCVM.Machine.Conditionals

/-!
# Conditionals in the loop of a component

`component_ifClause` looks for an else part by reading the byte behind the branch that it skips. Where
the conditional has none, that byte is whatever comes next: the `ELSE` of an enclosing conditional is
taken for its own, and at the end of the file, where nothing is read, the byte that is put back is the
last one of the skipped branch. In every other case the component executes what the program means
(`conditionals_executed_iff`).
-/

namespace InsenseCVM
open Execution ByteStream Structured

variable {D : Type} {doubles : Doubles D} {channelInstruction : Opcode → ℕ → Exec Unit} {this : ℕ}
  {w w' u v : World} {s : Stack ℕ} {r after : List UInt8} {b : Bool} {n : ℕ}

/-! ### Distances -/

theorem signedOf_ofLength (h : n < 2 ^ 31) : signedOf (Distance.ofLength n).bytes.reverse = n := by
  rw [Distance.ofLength, List.reverse_reverse]
  refine signedOf_bytesOf ?_ ?_
  · have hpos : (0 : ℤ) ≤ n := Int.natCast_nonneg n
    omega
  · have hlt : (n : ℤ) < 2 ^ 31 := by exact_mod_cast h
    omega

@[simp] theorem Distance.length_encode (d : Distance) : d.encode.length = 5 := by
  rw [Distance.encode, List.length_cons, d.size]

/-! ### Tests -/

@[simp] theorem World.tested_source : (w.tested this s n).source this = (w.source this).advance n :=
  World.source_setSource _

@[simp] theorem World.tested_component : (w.tested this s n).component this =
    { w.component this with dataStack := s } := by
  unfold World.tested
  rw [World.setSource_component, World.setComponent_component]

@[simp] theorem World.tested_setSource (k : ℕ) :
    (w.tested this s n).setSource this ((w.source this).advance k) = w.tested this s k := by
  rw [World.tested, World.setSource_setSource]
  rfl

/-- A program that moves a component on that is behind a test. -/
theorem returns_tested {α : Type} {m : Reader α} {a : α} {k : ℕ}
    (h : Returns m ((w.source this).advance n) a ((w.source this).advance k)) :
    Returns (onSource this m) (w.tested this s n) a (w.tested this s k) := by
  refine returns_onSource.2 ⟨(w.source this).advance k, ?_, World.tested_setSource k |>.symm⟩
  rw [World.tested_source]
  exact h

theorem opcodeAt_ifPart {branch : Structured}
    (hrest : (w.source this).rest = branch.ifPart ++ r) : w.opcodeAt this = some .ifClause := by
  rw [ifPart, List.append_assoc] at hrest
  exact opcodeAt_of_rest hrest

/-- The round at an `IF` up to the choice of the branch. -/
theorem runOne_ifClause {branch : Structured} (hfits : branch.code.length < 2 ^ 31)
    (hrest : (w.source this).rest = branch.ifPart ++ r) (htest : w.Tests this b s) :
    Returns (runOne doubles channelInstruction this) w true u ↔
      Returns (if b = false then do
          onSource this (seekCur branch.code.length)
          let nextByte ← onSource this fgetc
          if nextByte = some Opcode.elseClause.byte then
            let _ ← Component.readData this
          else onSource this (seekCur (-1))
        else pure ()) (w.tested this s 6) () u := by
  obtain ⟨hrunning, q, a, hpop, hq, ha⟩ := htest
  rw [runOne_opcode hrunning (opcodeAt_ifPart hrest)]
  have hoperands : ((w.source this).advance 1).rest =
      (Distance.ofLength branch.code.length).encode ++ (branch.code ++ r) := by
    rw [ifPart, List.append_assoc] at hrest
    exact File.rest_advance_one hrest
  have hdistance : Returns (onSource this (readDistance ifMessage))
      (w.setSource this ((w.source this).advance 1)) branch.code.length
      (w.setSource this ((w.source this).advance 6)) := by
    refine returns_onSource.2 ⟨(w.source this).advance 6, ?_, ?_⟩
    · have hreads := reads_distance (.ofLength branch.code.length) ifMessage _ _ hoperands
      rw [signedOf_ofLength hfits, Distance.length_encode, File.advance_advance] at hreads
      rw [World.source_setSource]
      exact hreads
    · rw [World.setSource_setSource]
  have hcondition : Returns (popData this) (w.setSource this ((w.source this).advance 6))
      (some q) (w.tested this s 6) := by
    refine returns_popData.2 ⟨s, hpop, ?_⟩
    simp [World.tested, World.setSource, World.setComponent]
  have htyped : Returns (typedObject (some q)) (w.tested this s 6) (typeBool, some a)
      (w.tested this s 6) := returns_typedObject.2 ⟨⟨q, rfl, hq⟩, rfl⟩
  have hvalue : Returns (boolAt (some a)) (w.tested this s 6) b (w.tested this s 6) :=
    returns_boolAt.2 ⟨⟨a, rfl, ha⟩, rfl⟩
  show Returns (Component.ifClause this) _ _ _ ↔ _
  unfold Component.ifClause
  rw [hdistance.bind_iff, hcondition.bind_iff, htyped.bind_iff]
  simp only [ne_eq, not_true_eq_false, if_false]
  rw [hvalue.bind_iff]

theorem runOne_if_true {branch : Structured} (hfits : branch.code.length < 2 ^ 31)
    (hrest : (w.source this).rest = branch.ifPart ++ r) (htest : w.Tests this true s) :
    Returns (runOne doubles channelInstruction this) w true (w.tested this s 6) := by
  rw [runOne_ifClause hfits hrest htest]
  exact returns_pure.2 ⟨rfl, rfl⟩

/-- The branch is skipped, and the byte behind it read. -/
theorem runOne_if_false {branch : Structured} (hfits : branch.code.length < 2 ^ 31)
    (hrest : (w.source this).rest = branch.ifPart ++ r) (htest : w.Tests this false s) :
    Returns (runOne doubles channelInstruction this) w true u ↔
      Returns (do
          let nextByte ← onSource this fgetc
          if nextByte = some Opcode.elseClause.byte then
            let _ ← Component.readData this
          else onSource this (seekCur (-1))) (w.tested this s branch.ifPart.length) () u := by
  have hlength : branch.ifPart.length = 6 + branch.code.length := by
    simp [ifPart, Instruction.encode, Instruction.operands]
    omega
  have hseek : Returns (onSource this (seekCur branch.code.length)) (w.tested this s 6) ()
      (w.tested this s branch.ifPart.length) := by
    refine returns_tested ?_
    rw [hlength, ← File.advance_advance]
    exact returns_seekCur_forward _
  rw [runOne_ifClause hfits hrest htest, if_pos rfl, hseek.bind_iff]

/-- The byte behind the branch is put back. -/
theorem runOne_if_false_byte {branch : Structured} {c : UInt8}
    (hfits : branch.code.length < 2 ^ 31) (hrest : (w.source this).rest = branch.ifPart ++ c :: r)
    (htest : w.Tests this false s) (hc : c ≠ Opcode.elseClause.byte) :
    Returns (runOne doubles channelInstruction this) w true (w.tested this s branch.ifPart.length) := by
  rw [runOne_if_false hfits hrest htest]
  have hread : Returns (onSource this fgetc) (w.tested this s branch.ifPart.length) (some c)
      (w.tested this s (branch.ifPart.length + 1)) := by
    refine returns_tested ?_
    rw [← File.advance_advance]
    exact returns_fgetc_cons (File.rest_advance hrest)
  refine hread.bind ?_
  rw [if_neg (by simpa using hc)]
  refine returns_tested ?_
  rw [← File.advance_advance]
  exact returns_seekCur_back

/-- At the end of the file the last byte of the branch is put back. -/
theorem runOne_if_false_end {branch : Structured} (hfits : branch.code.length < 2 ^ 31)
    (hrest : (w.source this).rest = branch.ifPart) (htest : w.Tests this false s) :
    Returns (runOne doubles channelInstruction this) w true
      (w.tested this s (branch.ifPart.length - 1)) := by
  have hnil : ((w.source this).advance branch.ifPart.length).rest = [] :=
    File.rest_advance (by rw [hrest, List.append_nil])
  obtain ⟨k, hk⟩ : ∃ k, branch.ifPart.length = k + 1 := by
    refine ⟨branch.ifPart.length - 1, ?_⟩
    have hpos : 0 < branch.ifPart.length := by simp [ifPart, Instruction.encode]
    omega
  rw [runOne_if_false (r := []) hfits (by rw [hrest, List.append_nil]) htest, hk]
  rw [hk] at hnil
  have hread : Returns (onSource this fgetc) (w.tested this s (k + 1)) none
      (w.tested this s (k + 1)) := returns_tested (returns_fgetc_nil hnil)
  refine hread.bind ?_
  rw [if_neg (by simp), Nat.add_sub_cancel]
  refine returns_tested ?_
  rw [← File.advance_advance]
  exact returns_seekCur_back

/-- An `ELSE` behind the branch is consumed, and the literal behind it. -/
theorem runOne_if_false_else {branch : Structured} (hfits : branch.code.length < 2 ^ 31)
    (hrest : (w.source this).rest = branch.ifPart ++ Opcode.elseClause.byte :: r)
    (htest : w.Tests this false s) :
    Returns (runOne doubles channelInstruction this) w true u ↔
      ∃ data, Returns (Component.readData this) (w.tested this s (branch.ifPart.length + 1)) data u := by
  rw [runOne_if_false hfits hrest htest]
  have hread : Returns (onSource this fgetc) (w.tested this s branch.ifPart.length)
      (some Opcode.elseClause.byte) (w.tested this s (branch.ifPart.length + 1)) := by
    refine returns_tested ?_
    rw [← File.advance_advance]
    exact returns_fgetc_cons (File.rest_advance hrest)
  rw [hread.bind_iff, if_pos rfl]
  constructor
  · intro h
    obtain ⟨data, v, hdata, hlast⟩ := returns_bind.1 h
    obtain ⟨-, rfl⟩ := returns_pure.1 hlast
    exact ⟨data, hdata⟩
  · rintro ⟨data, hdata⟩
    exact hdata.bind (returns_pure.2 ⟨rfl, rfl⟩)

/-- What is read as data lies behind the position. -/
theorem source_of_readData {data : Option ℕ} (h : Returns (Component.readData this) w data u) :
    ∃ k, u.source this = (w.source this).advance k := by
  unfold Component.readData at h
  obtain ⟨datum, v, hdatum, hlast⟩ := returns_bind.1 h
  obtain ⟨f, hf, rfl⟩ := returns_onSource.1 hdatum
  obtain ⟨k, -, rfl⟩ := forward_readData _ _ _ hf
  refine ⟨k, ?_⟩
  cases datum with
  | none =>
    obtain ⟨-, rfl⟩ := returns_pure.1 hlast
    exact World.source_setSource _
  | some datum =>
    cases datum with
    | bytes type value =>
      rw [returns_boxed, returns_pure] at hlast
      obtain ⟨-, rfl⟩ := hlast
      rw [World.boxed_source]
      exact World.source_setSource _
    | string value =>
      rw [returns_boxed, returns_pure] at hlast
      obtain ⟨-, rfl⟩ := hlast
      rw [World.boxed_source]
      exact World.source_setSource _

/-- The conditional has an else part, which is entered. -/
theorem runOne_if_false_elsePart {branch elseBranch : Structured}
    (hfits : branch.code.length < 2 ^ 31)
    (hrest : (w.source this).rest = branch.ifPart ++ (elseBranch.elsePart ++ r))
    (htest : w.Tests this false s) :
    Returns (runOne doubles channelInstruction this) w true
      ((w.tested this s (branch.ifPart.length + 6)).boxed typeInteger
        (.bytes (Distance.ofLength elseBranch.code.length).bytes.reverse)) := by
  have hbyte : (w.source this).rest = branch.ifPart ++ Opcode.elseClause.byte ::
      ((Distance.ofLength elseBranch.code.length).encode ++ (elseBranch.code ++ r)) := by
    rw [hrest, elsePart, List.append_assoc]
    rfl
  rw [runOne_if_false_else hfits hbyte htest]
  refine ⟨some ((w.tested this s (branch.ifPart.length + 6)).fresh + 1), ?_⟩
  have hoperand : ((w.source this).advance (branch.ifPart.length + 1)).rest =
      (Distance.ofLength elseBranch.code.length).encode ++ (elseBranch.code ++ r) := by
    rw [← File.advance_advance]
    exact File.rest_advance_one (File.rest_advance hbyte)
  have hread : Returns readData ((w.source this).advance (branch.ifPart.length + 1))
      (some (.bytes typeInteger (Distance.ofLength elseBranch.code.length).bytes.reverse))
      (((w.source this).advance (branch.ifPart.length + 1)).advance
        (Distance.ofLength elseBranch.code.length).encode.length) :=
    reads_literal (.fixed typeInteger _ rfl (Distance.ofLength elseBranch.code.length).size) _ _
      hoperand
  rw [Distance.length_encode, File.advance_advance] at hread
  have hdata : Returns (onSource this readData) (w.tested this s (branch.ifPart.length + 1))
      (some (.bytes typeInteger (Distance.ofLength elseBranch.code.length).bytes.reverse))
      (w.tested this s (branch.ifPart.length + 6)) :=
    returns_tested hread
  unfold Component.readData
  rw [hdata.bind_iff]
  exact returns_boxed.2 (returns_pure.2 ⟨rfl, rfl⟩)

/-- An else part that the component comes to is jumped over. -/
theorem runOne_elsePart {elseBranch : Structured} (hfits : elseBranch.code.length < 2 ^ 31)
    (hrest : (w.source this).rest = elseBranch.elsePart ++ r)
    (hrunning : (w.component this).stop = false) :
    Returns (runOne doubles channelInstruction this) w true
      (w.setSource this ((w.source this).advance elseBranch.elsePart.length)) := by
  have hinstruction : (w.source this).rest =
      (Instruction.elseClause (.ofLength elseBranch.code.length)).encode ++
        (elseBranch.code ++ r) := by
    rw [hrest, elsePart, List.append_assoc]
  have hoperands : ((w.source this).advance 1).rest =
      (Distance.ofLength elseBranch.code.length).encode ++ (elseBranch.code ++ r) :=
    File.rest_advance_one hinstruction
  have hlength : elseBranch.elsePart.length = 6 + elseBranch.code.length := by
    simp [elsePart, Instruction.encode, Instruction.operands]
    omega
  rw [runOne_opcode hrunning (opcodeAt_of_rest hinstruction)]
  show Returns (Component.elseClause this) _ _ _
  have hread := reads_distance (.ofLength elseBranch.code.length) elseMessage _ _ hoperands
  rw [signedOf_ofLength hfits, Distance.length_encode, File.advance_advance] at hread
  refine Returns.bind (returns_onSource.2 ⟨_, by rw [World.source_setSource]; exact hread, rfl⟩) ?_
  refine returns_onSource.2 ⟨_, by rw [World.source_setSource]; exact returns_seekCur_forward _, ?_⟩
  rw [World.setSource_setSource, World.setSource_setSource, File.advance_advance, hlength]

/-! ### Where the component is -/

section Placed

variable {i : PlainInstruction} {branch elseBranch next : Structured} {behind : Option Structured}
  {outer branches branches' : List Branch} {executed : List (ℕ × Opcode)}

theorem bytes_instruction : Structured.bytes (⟨.instruction i next, behind⟩ :: outer) =
    i.instruction.encode ++ Structured.bytes (⟨next, behind⟩ :: outer) := by
  simp only [Structured.bytes, List.flatMap_cons, Branch.bytes, code, List.append_assoc]

theorem bytes_ifThen : Structured.bytes (⟨.ifThen branch next, behind⟩ :: outer) =
    branch.ifPart ++ Structured.bytes (⟨next, behind⟩ :: outer) := by
  simp only [Structured.bytes, List.flatMap_cons, Branch.bytes, code, ifPart, List.append_assoc]

theorem bytes_ifThenElse : Structured.bytes (⟨.ifThenElse branch elseBranch next, behind⟩ :: outer) =
    branch.ifPart ++ (elseBranch.elsePart ++ Structured.bytes (⟨next, behind⟩ :: outer)) := by
  simp only [Structured.bytes, List.flatMap_cons, Branch.bytes, code, ifPart, elsePart,
    List.append_assoc]

theorem bytes_open_none : Structured.bytes (⟨branch, none⟩ :: outer) =
    branch.code ++ Structured.bytes outer := by
  simp [Structured.bytes, Branch.bytes]

theorem bytes_open_some : Structured.bytes (⟨branch, some elseBranch⟩ :: outer) =
    branch.code ++ (elseBranch.elsePart ++ Structured.bytes outer) := by
  simp [Structured.bytes, Branch.bytes]

/-- Behind the operands of an `IF`. -/
theorem rest_in_ifPart (hrest : (w.source this).rest = branch.ifPart ++ r) :
    ((w.tested this s 6).source this).rest = branch.code ++ r := by
  rw [ifPart, List.append_assoc] at hrest
  have hbehind := File.rest_advance hrest
  have hlength : (Instruction.ifClause (.ofLength branch.code.length)).encode.length = 6 := by
    simp [Instruction.encode, Instruction.operands]
  rw [World.tested_source, ← hlength]
  exact hbehind

/-- Behind the operands of the `ELSE` that follows a branch. -/
theorem rest_in_elsePart (hrest : (w.source this).rest = branch.ifPart ++ (elseBranch.elsePart ++ r)) :
    ((w.tested this s (branch.ifPart.length + 6)).source this).rest = elseBranch.code ++ r := by
  have hbehind := File.rest_advance hrest
  rw [elsePart, List.append_assoc] at hbehind
  have hlength : (Instruction.elseClause (.ofLength elseBranch.code.length)).encode.length = 6 := by
    simp [Instruction.encode, Instruction.operands]
  rw [World.tested_source, ← File.advance_advance, ← hlength]
  exact File.rest_advance hbehind

theorem Structured.Placed.step (h : Placed this after branches w)
    (hstep : Step doubles channelInstruction this branches w executed branches' w') :
    Placed this after branches' w' := by
  obtain ⟨hrest, hfits⟩ := h
  cases hstep with
  | instruction round onward =>
    rw [bytes_instruction, List.append_assoc] at hrest
    refine ⟨?_, ?_⟩
    · rw [onward]
      exact File.rest_advance hrest
    · simpa [Branch.Fits, Structured.Fits] using hfits
  | ifThen_true test =>
    rw [bytes_ifThen, List.append_assoc] at hrest
    refine ⟨?_, ?_⟩
    · rw [rest_in_ifPart hrest, bytes_open_none, List.append_assoc]
    · simp only [Branch.Fits, Structured.Fits, List.mem_cons, forall_eq_or_imp] at hfits ⊢
      exact ⟨⟨hfits.1.1.2.1, by simp⟩, ⟨hfits.1.1.2.2, hfits.1.2⟩, hfits.2⟩
  | ifThen_false test =>
    rw [bytes_ifThen, List.append_assoc] at hrest
    refine ⟨?_, ?_⟩
    · rw [World.tested_source]
      exact File.rest_advance hrest
    · simp only [Branch.Fits, Structured.Fits, List.mem_cons, forall_eq_or_imp] at hfits ⊢
      exact ⟨⟨hfits.1.1.2.2, hfits.1.2⟩, hfits.2⟩
  | ifThenElse_true test =>
    rw [bytes_ifThenElse, List.append_assoc, List.append_assoc] at hrest
    refine ⟨?_, ?_⟩
    · rw [rest_in_ifPart hrest, bytes_open_some, List.append_assoc, List.append_assoc]
    · simp only [Branch.Fits, Structured.Fits, List.mem_cons, forall_eq_or_imp] at hfits ⊢
      exact ⟨⟨hfits.1.1.2.2.1, by simpa using hfits.1.1.2.1⟩, ⟨hfits.1.1.2.2.2.2, hfits.1.2⟩,
        hfits.2⟩
  | ifThenElse_false test =>
    rw [bytes_ifThenElse, List.append_assoc, List.append_assoc] at hrest
    refine ⟨?_, ?_⟩
    · rw [World.boxed_source, rest_in_elsePart hrest, bytes_open_none, List.append_assoc]
    · simp only [Branch.Fits, Structured.Fits, List.mem_cons, forall_eq_or_imp] at hfits ⊢
      exact ⟨⟨hfits.1.1.2.2.2.1, by simp⟩, ⟨hfits.1.1.2.2.2.2, hfits.1.2⟩, hfits.2⟩
  | branch_end =>
    refine ⟨?_, fun b hb => hfits b (List.mem_cons_of_mem _ hb)⟩
    rw [hrest, bytes_open_none]
    rfl
  | branch_end_else running =>
    refine ⟨?_, fun b hb => hfits b (List.mem_cons_of_mem _ hb)⟩
    rw [bytes_open_some, List.append_assoc, List.append_assoc] at hrest
    rw [World.source_setSource]
    exact File.rest_advance hrest

end Placed

/-! ### What the component executes -/

section Executed

variable {executed executed' : List (ℕ × Opcode)} {x y : ℕ × Opcode}

/-- A component in front of an opcode stays there, or executes it first. -/
theorem Executed.cases_here (h : Executed doubles channelInstruction this w executed w')
    (hhere : w.here this = some x) :
    (executed = [] ∧ w' = w) ∨
      ∃ executed' u, executed = x :: executed' ∧
        Returns (runOne doubles channelInstruction this) w true u ∧
        Executed doubles channelInstruction this u executed' w' := by
  cases h with
  | refl => exact .inl ⟨rfl, rfl⟩
  | step first rest =>
    rw [hhere]
    exact .inr ⟨_, _, rfl, first, rest⟩

/-- The first instruction that is executed does not lie in front of the position. -/
theorem Executed.pos_le (h : Executed doubles channelInstruction this w executed w') :
    (executed = [] → (w.source this).pos ≤ (w'.source this).pos) ∧
      ∀ x ∈ executed.head?, (w.source this).pos ≤ x.1 := by
  induction h with
  | refl => exact ⟨fun _ => le_rfl, by simp⟩
  | @step w u w' executed first rest ih =>
    cases hhere : w.here this with
    | some x =>
      refine ⟨fun h => by simp at h, fun y hy => ?_⟩
      obtain ⟨op, hop, rfl⟩ := Option.map_eq_some_iff.1 hhere
      obtain rfl := Option.some.inj hy
      exact le_rfl
    | none =>
      have hround : Runs doubles channelInstruction this 1 w u := .step first (.refl u)
      have hu : (u.source this).pos = (w.source this).pos + 1 := by
        rcases runs_one_cases hround with ⟨op, hop, -⟩ | ⟨-, rfl⟩
        · simp [World.here, hop] at hhere
        · rw [World.source_setSource, File.advance_pos]
      simp only [Option.toList_none, List.nil_append]
      refine ⟨fun h => ?_, fun y hy => ?_⟩
      · have := ih.1 h
        omega
      · have := ih.2 y hy
        omega

/-- A round at an opcode executes it. -/
theorem executed_round (hhere : w.here this = some x)
    (first : Returns (runOne doubles channelInstruction this) w true u) :
    Executed doubles channelInstruction this w (x :: executed) w' ↔
      Executed doubles channelInstruction this u executed w' := by
  constructor
  · intro h
    rcases h.cases_here hhere with ⟨hnil, -⟩ | ⟨executed', u', heq, first', rest⟩
    · cases hnil
    · obtain ⟨-, rfl⟩ := first.unique first'
      obtain ⟨-, rfl⟩ := List.cons.inj heq
      exact rest
  · intro h
    have hround := Executed.step first h
    rw [hhere] at hround
    exact hround

end Executed

/-! ### Programs and what is executed for them -/

section Programs

variable {i : PlainInstruction} {branch elseBranch next : Structured} {behind : Option Structured}
  {outer branches branches₁ branches₂ branches' : List Branch} {w₁ w₂ : World}
  {executed executed₁ executed₂ executed' : List (ℕ × Opcode)} {ok : List Branch → World → Prop}

/-- The byte behind a branch that is skipped is no `ELSE`. If the file ends there, the last byte of the
branch is no opcode. -/
def Structured.Unambiguous (this : ℕ) (after : List UInt8) : List Branch → World → Prop
  | ⟨.ifThen branch next, behind⟩ :: outer, w =>
    ∀ s, w.Tests this false s →
      (Structured.bytes (⟨next, behind⟩ :: outer) ++ after).head? ≠ some Opcode.elseClause.byte ∧
        (Structured.bytes (⟨next, behind⟩ :: outer) ++ after = [] →
          branch.ifPart.getLast?.bind Opcode.ofByte = none)
  | _, _ => True

theorem World.Tests.unique {b' : Bool} {s' : Stack ℕ} (h : w.Tests this b s)
    (h' : w.Tests this b' s') : b = b' ∧ s = s' := by
  obtain ⟨-, q, a, hpop, hq, ha⟩ := h
  obtain ⟨-, q', a', hpop', hq', ha'⟩ := h'
  rw [hpop] at hpop'
  obtain ⟨rfl, rfl⟩ : q = q' ∧ s = s' := by simpa using hpop'
  rw [hq] at hq'
  obtain rfl : a = a' := by simpa using hq'
  rw [ha] at ha'
  cases b <;> cases b' <;> simp_all [boolCell]

theorem Structured.Step.unique (h : Step doubles channelInstruction this branches w executed₁ branches₁ w₁)
    (h' : Step doubles channelInstruction this branches w executed₂ branches₂ w₂) :
    executed₁ = executed₂ ∧ branches₁ = branches₂ ∧ w₁ = w₂ := by
  cases h with
  | instruction round _ =>
    cases h' with
    | instruction round' _ => exact ⟨rfl, rfl, (round.unique round').2⟩
  | ifThen_true test | ifThen_false test =>
    cases h' with
    | ifThen_true test' | ifThen_false test' =>
      obtain ⟨hb, rfl⟩ := test.unique test'
      first | exact ⟨rfl, rfl, rfl⟩ | cases hb
  | ifThenElse_true test | ifThenElse_false test =>
    cases h' with
    | ifThenElse_true test' | ifThenElse_false test' =>
      obtain ⟨hb, rfl⟩ := test.unique test'
      first | exact ⟨rfl, rfl, rfl⟩ | cases hb
  | branch_end =>
    cases h'
    exact ⟨rfl, rfl, rfl⟩
  | branch_end_else running =>
    cases h'
    exact ⟨rfl, rfl, rfl⟩

/-- The first instruction that a program executes lies where the component is. -/
theorem Structured.Steps.head (h : Steps doubles channelInstruction this ok n branches w executed branches' w') :
    (executed = [] → w' = w) ∧ ∀ x ∈ executed.head?, x.1 = (w.source this).pos := by
  induction h with
  | refl => exact ⟨fun _ => rfl, by simp⟩
  | step allowed first rest ih =>
    cases first with
    | branch_end => exact ih
    | instruction round onward | ifThen_true test | ifThen_false test | ifThenElse_true test
    | ifThenElse_false test | branch_end_else running =>
      refine ⟨fun hnil => by simp at hnil, fun x hx => ?_⟩
      obtain rfl := Option.some.inj hx
      rfl

theorem here_of_opcodeAt {op : Opcode} (hop : w.opcodeAt this = some op) :
    w.here this = some ((w.source this).pos, op) := by
  rw [World.here, hop]
  rfl

/-- The conditional is skipped: its branch is the end of the file. -/
theorem executed_if_end (hfits : branch.code.length < 2 ^ 31)
    (hrest : (w.source this).rest = branch.ifPart) (htest : w.Tests this false s)
    (hmore : executed = [] → w' = w.tested this s branch.ifPart.length)
    (hhead : ∀ x ∈ executed.head?, x.1 = (w.source this).pos + branch.ifPart.length) :
    Executed doubles channelInstruction this w (((w.source this).pos, .ifClause) :: executed) w' ↔
      branch.ifPart.getLast?.bind Opcode.ofByte = none ∧
        Executed doubles channelInstruction this (w.tested this s branch.ifPart.length) executed w' := by
  have hne : branch.ifPart ≠ [] := by simp [ifPart, Instruction.encode]
  obtain ⟨front, last, hlast⟩ : ∃ front last, branch.ifPart = front ++ [last] :=
    ⟨_, _, (List.dropLast_append_getLast hne).symm⟩
  have hlength : branch.ifPart.length = front.length + 1 := by rw [hlast]; simp
  have hhere : w.here this = some ((w.source this).pos, .ifClause) :=
    here_of_opcodeAt (opcodeAt_ifPart (r := []) (by rw [hrest, List.append_nil]))
  have hround : Returns (runOne doubles channelInstruction this) w true
      (w.tested this s (branch.ifPart.length - 1)) := runOne_if_false_end hfits hrest htest
  have hput : ((w.tested this s (branch.ifPart.length - 1)).source this).rest = [last] := by
    rw [World.tested_source, hlength, Nat.add_sub_cancel]
    exact File.rest_advance (by rw [hrest, hlast])
  have hpos : ((w.tested this s (branch.ifPart.length - 1)).source this).pos + 1 =
      ((w.tested this s branch.ifPart.length).source this).pos := by
    simp only [World.tested_source, File.advance_pos]
    omega
  have hgetLast : branch.ifPart.getLast?.bind Opcode.ofByte = Opcode.ofByte last := by
    rw [hlast, List.getLast?_concat]
    rfl
  have hat : (w.tested this s (branch.ifPart.length - 1)).opcodeAt this = Opcode.ofByte last :=
    opcodeAt_cons hput
  rw [executed_round hhere hround, hgetLast]
  cases hop : Opcode.ofByte last with
  | none =>
    -- one more round, which passes over the byte
    have hskip : Returns (runOne doubles channelInstruction this)
        (w.tested this s (branch.ifPart.length - 1)) true (w.tested this s branch.ifPart.length) := by
      have hunknown : Returns (runOne doubles channelInstruction this)
          (w.tested this s (branch.ifPart.length - 1)) true
          ((w.tested this s (branch.ifPart.length - 1)).setSource this
            (((w.tested this s (branch.ifPart.length - 1)).source this).advance 1)) :=
        runOne_unknown (by simpa using htest.1) (by rw [hput]; exact List.cons_ne_nil _ _)
          (hat.trans hop)
      rw [World.tested_source, File.advance_advance, World.tested_setSource] at hunknown
      have hone : branch.ifPart.length - 1 + 1 = branch.ifPart.length := by omega
      rw [hone] at hunknown
      exact hunknown
    have hnone : (w.tested this s (branch.ifPart.length - 1)).here this = none := by
      rw [World.here, hat, hop]
      rfl
    constructor
    · intro h
      refine ⟨rfl, ?_⟩
      generalize hu : w.tested this s (branch.ifPart.length - 1) = u at h hskip hnone
      cases h with
      | refl =>
        rw [hmore rfl]
        exact .refl _
      | step first rest =>
        obtain ⟨-, rfl⟩ := first.unique hskip
        rw [hnone]
        exact rest
    · rintro ⟨-, h⟩
      have hstep := Executed.step hskip h
      rw [hnone] at hstep
      exact hstep
  | some op =>
    rw [hop] at hat
    refine iff_of_false (fun h => ?_) (fun h => by cases h.1)
    rcases h.cases_here (here_of_opcodeAt hat) with ⟨rfl, hw⟩ | ⟨executed', u, rfl, -, -⟩
    · rw [hmore rfl] at hw
      rw [hw] at hpos
      omega
    · have hx := hhead _ rfl
      simp only [World.tested_source, File.advance_pos] at hx hpos
      omega

/-- The conditional is skipped, and the `ELSE` behind it consumed. -/
theorem not_executed_if_else (hfits : branch.code.length < 2 ^ 31)
    (hrest : (w.source this).rest = branch.ifPart ++ Opcode.elseClause.byte :: r)
    (htest : w.Tests this false s)
    (hmore : executed = [] → w' = w.tested this s branch.ifPart.length)
    (hhead : ∀ x ∈ executed.head?, x.1 = (w.source this).pos + branch.ifPart.length) :
    ¬ Executed doubles channelInstruction this w (((w.source this).pos, .ifClause) :: executed)
      w' := by
  intro h
  rcases h.cases_here (here_of_opcodeAt (opcodeAt_ifPart hrest)) with
    ⟨hnil, -⟩ | ⟨executed', u, heq, first, rest⟩
  · cases hnil
  · obtain ⟨-, rfl⟩ := List.cons.inj heq
    obtain ⟨data, hdata⟩ := (runOne_if_false_else hfits hrest htest).1 first
    obtain ⟨k, hu⟩ := source_of_readData hdata
    have hpos : (u.source this).pos = (w.source this).pos + (branch.ifPart.length + 1) + k := by
      rw [hu, World.tested_source]
      rfl
    cases executed with
    | nil =>
      have hle := rest.pos_le.1 rfl
      rw [hmore rfl, World.tested_source, File.advance_pos] at hle
      omega
    | cons x executed =>
      have hle := rest.pos_le.2 x rfl
      have hx := hhead x rfl
      omega

/-- A step of the program and the component. -/
theorem Structured.Step.executed_iff (h : Placed this after branches w)
    (hstep : Step doubles channelInstruction this branches w executed branches₁ w₁)
    (hmore : executed' = [] → w' = w₁)
    (hhead : ∀ x ∈ executed'.head?, x.1 = (w₁.source this).pos) :
    Executed doubles channelInstruction this w (executed ++ executed') w' ↔
      Unambiguous this after branches w ∧
        Executed doubles channelInstruction this w₁ executed' w' := by
  obtain ⟨hrest, hfits⟩ := h
  cases hstep with
  | instruction round onward =>
    rw [bytes_instruction, List.append_assoc] at hrest
    rw [List.singleton_append, executed_round (here_of_opcodeAt (opcodeAt_of_rest hrest)) round]
    exact (and_iff_right trivial).symm
  | ifThen_true test =>
    rw [bytes_ifThen, List.append_assoc] at hrest
    have hlength := (hfits _ List.mem_cons_self).1.1
    rw [List.singleton_append, executed_round (here_of_opcodeAt (opcodeAt_ifPart hrest))
      (runOne_if_true hlength hrest test)]
    -- the branch is not skipped, so the condition asks nothing here
    refine (and_iff_right fun s' test' => ?_).symm
    cases (test.unique test').1
  | @ifThen_false branch next behind outer _ s test =>
    rw [bytes_ifThen, List.append_assoc] at hrest
    have hlength := (hfits _ List.mem_cons_self).1.1
    rw [World.tested_source, File.advance_pos] at hhead
    have hcondition : Unambiguous this after (⟨.ifThen branch next, behind⟩ :: outer) w ↔
        (Structured.bytes (⟨next, behind⟩ :: outer) ++ after).head? ≠
            some Opcode.elseClause.byte ∧
          (Structured.bytes (⟨next, behind⟩ :: outer) ++ after = [] →
            branch.ifPart.getLast?.bind Opcode.ofByte = none) :=
      ⟨fun hall => hall s test, fun hone _ _ => hone⟩
    rw [List.singleton_append, hcondition]
    -- what stands behind the skipped branch decides: the end of the file, an `ELSE`, or anything
    -- else
    cases hbehind : Structured.bytes (⟨next, behind⟩ :: outer) ++ after with
    | nil =>
      rw [hbehind, List.append_nil] at hrest
      rw [executed_if_end hlength hrest test hmore hhead]
      simp
    | cons c r =>
      rw [hbehind] at hrest
      by_cases hc : c = Opcode.elseClause.byte
      · subst hc
        refine iff_of_false (not_executed_if_else hlength hrest test hmore hhead) ?_
        simp
      · rw [executed_round (here_of_opcodeAt (opcodeAt_ifPart hrest))
          (runOne_if_false_byte hlength hrest test hc)]
        simp [hc]
  | ifThenElse_true test =>
    rw [bytes_ifThenElse, List.append_assoc] at hrest
    have hlength := (hfits _ List.mem_cons_self).1.1
    rw [List.singleton_append, executed_round (here_of_opcodeAt (opcodeAt_ifPart hrest))
      (runOne_if_true hlength hrest test)]
    exact (and_iff_right trivial).symm
  | ifThenElse_false test =>
    rw [bytes_ifThenElse, List.append_assoc, List.append_assoc] at hrest
    have hlength := (hfits _ List.mem_cons_self).1.1
    rw [List.singleton_append, executed_round (here_of_opcodeAt (opcodeAt_ifPart hrest))
      (runOne_if_false_elsePart hlength hrest test)]
    exact (and_iff_right trivial).symm
  | branch_end => exact (and_iff_right trivial).symm
  | branch_end_else running =>
    rw [bytes_open_some, List.append_assoc, List.append_assoc] at hrest
    have hlength := (hfits _ List.mem_cons_self).2 _ rfl
    have hat : w.opcodeAt this = some .elseClause := by
      rw [elsePart, code, List.nil_append, List.append_assoc] at hrest
      exact opcodeAt_of_rest hrest
    rw [List.singleton_append, executed_round (here_of_opcodeAt hat)
      (runOne_elsePart hlength hrest running)]
    exact (and_iff_right trivial).symm

/-- **The component executes exactly what a structured program executes if and only if no conditional
without an else part is skipped in front of an `ELSE`, or at the end of a file whose last byte is an
opcode.** -/
theorem conditionals_executed_iff (h : Placed this after branches w)
    (hsteps : Steps doubles channelInstruction this (fun _ _ => True) n branches w executed
      branches' w') :
    Executed doubles channelInstruction this w executed w' ↔
      Steps doubles channelInstruction this (Unambiguous this after) n branches w executed
        branches' w' := by
  induction hsteps with
  | refl => exact iff_of_true (.refl _) (.refl _ _)
  | @step n _ _ _ _ _ _ executed executed' _ first rest ih =>
    rw [first.executed_iff h rest.head.1 rest.head.2, ih (h.step first)]
    constructor
    · rintro ⟨hallowed, hrest⟩
      exact .step hallowed first hrest
    · intro hall
      generalize hcat : executed ++ executed' = all at hall
      cases hall with
      | step hallowed first' rest' =>
        obtain ⟨rfl, rfl, rfl⟩ := first.unique first'
        obtain rfl := List.append_cancel_left hcat
        exact ⟨hallowed, rest'⟩

theorem Structured.Step.followed
    (hstep : Step doubles channelInstruction this branches w executed branches' w')
    (h : ∀ b ∈ branches, b.program.Followed) : ∀ b ∈ branches', b.program.Followed := by
  cases hstep with
  | branch_end | branch_end_else running => exact fun b hb => h b (List.mem_cons_of_mem _ hb)
  | instruction round onward =>
    simp only [List.mem_cons, forall_eq_or_imp, Followed] at h ⊢
    exact h
  | ifThen_true test =>
    simp only [List.mem_cons, forall_eq_or_imp, Followed] at h ⊢
    exact ⟨h.1.2.1, h.1.2.2, h.2⟩
  | ifThen_false test =>
    simp only [List.mem_cons, forall_eq_or_imp, Followed] at h ⊢
    exact ⟨h.1.2.2, h.2⟩
  | ifThenElse_true test =>
    simp only [List.mem_cons, forall_eq_or_imp, Followed] at h ⊢
    exact ⟨h.1.1, h.1.2.2, h.2⟩
  | ifThenElse_false test =>
    simp only [List.mem_cons, forall_eq_or_imp, Followed] at h ⊢
    exact ⟨h.1.2.1, h.1.2.2, h.2⟩

theorem unambiguous_of_followed (h : ∀ b ∈ branches, b.program.Followed) :
    Unambiguous this after branches w := by
  unfold Unambiguous
  split
  · rename_i branch next behind outer
    intro s test
    obtain ⟨op, r, hcode, hop⟩ := exists_code (h _ List.mem_cons_self).1
    have hbytes : Structured.bytes (⟨next, behind⟩ :: outer) ++ after = Opcode.byte op ::
        (r ++ (behind.map Structured.elsePart).getD [] ++ Structured.bytes outer ++ after) := by
      simp [Structured.bytes, Branch.bytes, hcode]
    rw [hbytes]
    refine ⟨fun heq => ?_, fun hnil => by cases hnil⟩
    exact hop (Opcode.byte_injective (Option.some.inj heq))
  · trivial

/-- Conditionals that have something behind them are executed as they are meant. -/
theorem executed_of_followed (h : Placed this after branches w)
    (hfollowed : ∀ b ∈ branches, b.program.Followed)
    (hsteps : Steps doubles channelInstruction this ok n branches w executed branches' w') :
    Executed doubles channelInstruction this w executed w' := by
  induction hsteps with
  | refl => exact .refl _
  | step _ first rest ih =>
    refine (first.executed_iff h rest.head.1 rest.head.2).2 ⟨unambiguous_of_followed hfollowed, ?_⟩
    exact ih (h.step first) (first.followed hfollowed)

end Programs

/-! ### Two programs -/

def plainNot : PlainInstruction := ⟨.not, by decide⟩

def plainAny : PlainInstruction := ⟨.any, by decide⟩

/-- A machine in front of `contents`, with true and false in its heap. -/
def World.withValues (contents : List UInt8) (dataStack : Stack ℕ) : World :=
  .atCode contents none dataStack
    [boolCell true, .typed typeBool (some 0), boolCell false, .typed typeBool (some 2)]

/-- `NOT` under a condition, and `ANY` behind it. -/
def notThenAny : Structured := .ifThen (.instruction plainNot .done) (.instruction plainAny .done)

/-- The component goes on at `ANY`. -/
theorem conditionals_executed_iff_skipped :
    ∃ s, Executed binary64 (fun _ _ => pure ()) 0
      (.withValues notThenAny.code (Stack.constructor.push (some 3))) [(0, .ifClause)]
      ((World.withValues notThenAny.code (Stack.constructor.push (some 3))).tested 0 s 7) := by
  obtain ⟨s, hpop, -⟩ := (Stack.constructor_holds.push (some 3)).pop_cons
  refine ⟨s, ?_⟩
  have htest : (World.withValues notThenAny.code (Stack.constructor.push (some 3))).Tests 0 false s :=
    ⟨rfl, 3, 2, hpop, rfl, rfl⟩
  have hplaced : Placed 0 [] [⟨notThenAny, none⟩]
      (.withValues notThenAny.code (Stack.constructor.push (some 3))) :=
    ⟨by decide, by simp [Branch.Fits, notThenAny, Structured.Fits, code, plainNot,
      Instruction.encode, Instruction.operands]⟩
  have hsteps : ∀ ok : List Branch → World → Prop,
      ok [⟨notThenAny, none⟩] (.withValues notThenAny.code (Stack.constructor.push (some 3))) →
      Steps binary64 (fun _ _ => pure ()) 0 ok 1 [⟨notThenAny, none⟩]
        (.withValues notThenAny.code (Stack.constructor.push (some 3))) [(0, .ifClause)]
        [⟨.instruction plainAny .done, none⟩]
        ((World.withValues notThenAny.code (Stack.constructor.push (some 3))).tested 0 s 7) :=
    fun ok hok => .step hok (.ifThen_false htest) (.refl _ _)
  exact (conditionals_executed_iff hplaced (hsteps _ trivial)).2
    (hsteps _ fun _ _ => ⟨by decide, by decide⟩)

/-- `NOT` under two conditions, and `ANY` as the else part of the outer one. -/
def notElseAny : Structured :=
  .alternative .done (.conditional .done (.instruction plainNot .done)) (.instruction plainAny .done)

def atNotElseAny : World :=
  .withValues notElseAny.code ((Stack.constructor.push (some 3)).push (some 1))

/-- The outer condition is true and the inner one false, and the component does not come to the `ELSE`:
the inner conditional has taken it for its own. -/
theorem else_of_outer_taken :
    ∃ w', Placed 0 [] [⟨notElseAny, none⟩] atNotElseAny ∧
      Steps binary64 (fun _ _ => pure ()) 0 (fun _ _ => True) 4 [⟨notElseAny, none⟩] atNotElseAny
        [(0, .ifClause), (6, .ifClause), (13, .elseClause)] [] w' ∧
      ¬ Executed binary64 (fun _ _ => pure ()) 0 atNotElseAny
        [(0, .ifClause), (6, .ifClause), (13, .elseClause)] w' := by
  obtain ⟨s₁, hpop₁, hs₁⟩ := ((Stack.constructor_holds.push (some 3)).push (some 1)).pop_cons
  obtain ⟨s₂, hpop₂, -⟩ := hs₁.pop_cons
  have hplaced : Placed 0 [] [⟨notElseAny, none⟩] atNotElseAny :=
    ⟨by decide, by simp [Branch.Fits, notElseAny, alternative, conditional, append, Structured.Fits,
      code, plainNot, plainAny, Instruction.encode, Instruction.operands]⟩
  have htrue : atNotElseAny.Tests 0 true s₁ := ⟨rfl, 1, 0, hpop₁, rfl, rfl⟩
  have hfalse : (atNotElseAny.tested 0 s₁ 6).Tests 0 false s₂ := ⟨rfl, 3, 2, hpop₂, rfl, rfl⟩
  -- the program jumps over the else part and ends
  have hend : Steps binary64 (fun _ _ => pure ()) 0 (fun _ _ => True) 2
      [⟨.done, some (.instruction plainAny .done)⟩, ⟨.done, none⟩]
      ((atNotElseAny.tested 0 s₁ 6).tested 0 s₂ 7) [(13, .elseClause)] [] _ :=
    .step trivial (.branch_end_else rfl) (.step trivial .branch_end (.refl _ _))
  have hinner : Step binary64 (fun _ _ => pure ()) 0
      [⟨.ifThen (.instruction plainNot .done) .done, some (.instruction plainAny .done)⟩,
        ⟨.done, none⟩] (atNotElseAny.tested 0 s₁ 6) [(6, .ifClause)]
      [⟨.done, some (.instruction plainAny .done)⟩, ⟨.done, none⟩]
      ((atNotElseAny.tested 0 s₁ 6).tested 0 s₂ 7) := .ifThen_false hfalse
  have houter : Step binary64 (fun _ _ => pure ()) 0 [⟨notElseAny, none⟩] atNotElseAny
      [(0, .ifClause)]
      [⟨.ifThen (.instruction plainNot .done) .done, some (.instruction plainAny .done)⟩,
        ⟨.done, none⟩] (atNotElseAny.tested 0 s₁ 6) := .ifThenElse_true htrue
  have hrest := Steps.step trivial hinner hend
  refine ⟨_, hplaced, .step trivial houter hrest, fun h => ?_⟩
  have hbehind := ((houter.executed_iff hplaced hrest.head.1 hrest.head.2).1 h).2
  have hallowed := ((hinner.executed_iff (hplaced.step houter) hend.head.1 hend.head.2).1 hbehind).1
  exact (hallowed s₂ hfalse).1 rfl

end InsenseCVM
