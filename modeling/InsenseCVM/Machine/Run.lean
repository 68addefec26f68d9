import InsenseCVM.Bytecode.Instruction
import InsenseCVM.Machine.Operators

/-!
# The loop of a component

`component_run` reads an opcode and runs its handler, until the component is stopped or its file
ends. The handlers of the instructions that declare, connect and use channels are a parameter.
-/

namespace InsenseCVM
open Execution ByteStream

variable {D : Type} (doubles : Doubles D) (channelInstruction : Opcode → ℕ → Exec Unit) (this : ℕ)

/-- The cases of the `switch`. After `PROJECT_EXIT` there is no `break`, and the default case only
logs. -/
def execute : Opcode → Exec Unit
  | .enterScope => Component.enterScope this
  | .exitScope => Component.exitScope this
  | .call => do
    let _ ← Component.call this
  | .declare => Component.declare this
  | .store => Component.store this
  | .push => Component.push this
  | .load => Component.load this
  | .constructor => Component.constructor this
  | .expression op => Component.expression doubles this op
  | .not => Component.not this
  | .stop => Component.stopComponent this
  | .behaviourJump => Component.behaviourJump this
  | .jump => Component.jump this
  | .ifClause => Component.ifClause this
  | .elseClause => Component.elseClause this
  | .proc => Component.proc this
  | .blockEnd => Component.blockEnd this
  | .procCall => Component.procCall this
  | .procReturn => Component.procReturn this
  | .struct => Component.struct this
  | .any => Component.any this
  | .projectEntry => Component.projectEntry this
  | .projectExit => Component.projectExit this
  | .component => channelInstruction .component this
  | .connect => channelInstruction .connect this
  | .disconnect => channelInstruction .disconnect this
  | .send => channelInstruction .send this
  | .receive => channelInstruction .receive this

/-- One round of the loop; `false` when it is left. -/
def runOne : Exec Bool := do
  let c ← self this
  if c.stop = true then return false
  else
    match ← onSource this fgetc with
    | none => return false
    | some nextByte =>
      match Opcode.ofByte nextByte with
      | some op => execute doubles channelInstruction this op
      | none => pure ()
      return true

/-- The component runs `n` rounds of the loop, from `w` to `w'`. -/
inductive Runs : ℕ → World → World → Prop
  | refl (w : World) : Runs 0 w w
  | step {n : ℕ} {u w w' : World} (first : Returns (runOne doubles channelInstruction this) w true u)
      (rest : Runs n u w') : Runs (n + 1) w w'

/-- The state after `n` rounds, unless one of them leaves the loop. -/
def afterRounds : ℕ → World → Option World
  | 0, w => some w
  | n + 1, w =>
    match runOne doubles channelInstruction this w with
    | .ok true u => afterRounds n u
    | _ => none

variable {doubles channelInstruction this} {m n : ℕ} {u v w w' : World}

theorem runs_of_afterRounds (h : afterRounds doubles channelInstruction this n w = some w') :
    Runs doubles channelInstruction this n w w' := by
  induction n generalizing w with
  | zero =>
    obtain rfl := Option.some.inj h
    exact .refl w
  | succ n ih =>
    rw [afterRounds] at h
    split at h
    · rename_i u hone
      exact .step hone (ih h)
    · cases h

/-- A run can be cut at any round. -/
theorem Runs.split (h : Runs doubles channelInstruction this (m + n) u w) :
    ∃ v, Runs doubles channelInstruction this m u v ∧ Runs doubles channelInstruction this n v w := by
  induction m generalizing u with
  | zero =>
    rw [Nat.zero_add] at h
    exact ⟨u, .refl u, h⟩
  | succ m ih =>
    rw [Nat.add_right_comm] at h
    cases h with
    | step first rest =>
      obtain ⟨v, hm, hn⟩ := ih rest
      exact ⟨v, .step first hm, hn⟩

/-- Runs one after the other. -/
theorem Runs.trans (h : Runs doubles channelInstruction this m u v)
    (h' : Runs doubles channelInstruction this n v w) :
    Runs doubles channelInstruction this (m + n) u w := by
  induction h with
  | refl =>
    rw [Nat.zero_add]
    exact h'
  | step first _ ih =>
    rw [Nat.add_right_comm]
    exact .step first (ih h')

theorem Runs.unique (h : Runs doubles channelInstruction this n u v)
    (h' : Runs doubles channelInstruction this n u w) : v = w := by
  induction h with
  | refl =>
    cases h'
    rfl
  | step first _ ih =>
    cases h' with
    | step first' rest' =>
      obtain ⟨-, rfl⟩ := first.unique first'
      exact ih rest'

theorem runs_one (h : Runs doubles channelInstruction this 1 u w) :
    Returns (runOne doubles channelInstruction this) u true w := by
  cases h with
  | step first rest =>
    cases rest
    exact first

/-- The opcode the component reads next, unless its file has ended or the byte is no opcode. -/
def World.opcodeAt (w : World) (this : ℕ) : Option Opcode :=
  (w.source this).rest.head?.bind Opcode.ofByte

theorem opcodeAt_cons {c : UInt8} {r : List UInt8} (hrest : (w.source this).rest = c :: r) :
    w.opcodeAt this = Opcode.ofByte c := by
  unfold World.opcodeAt
  rw [hrest]
  rfl

/-- The round of a component that has been stopped. -/
theorem runOne_stopped (hstop : (w.component this).stop = true) :
    Returns (runOne doubles channelInstruction this) w false w := by
  unfold runOne
  rw [returns_self.bind_iff, if_pos hstop]
  exact returns_pure.2 ⟨rfl, rfl⟩

/-- The round at the end of the file. -/
theorem runOne_end (hstop : (w.component this).stop = false) (hrest : (w.source this).rest = []) :
    Returns (runOne doubles channelInstruction this) w false w := by
  have hread : Returns (onSource this fgetc) w none (w.setSource this (w.source this)) :=
    returns_onSource.2 ⟨_, returns_fgetc_nil hrest, rfl⟩
  unfold runOne
  rw [returns_self.bind_iff, if_neg (by simp [hstop]), hread.bind_iff]
  exact returns_pure.2 ⟨rfl, World.setSource_source.symm⟩

/-- The round at a byte runs the handler of the opcode, if the byte is one. -/
theorem runOne_byte {c : UInt8} {r : List UInt8} (hstop : (w.component this).stop = false)
    (hrest : (w.source this).rest = c :: r) :
    runOne doubles channelInstruction this w =
      ((match Opcode.ofByte c with
        | some op => execute doubles channelInstruction this op
        | none => pure ()) >>= fun _ => pure true)
        (w.setSource this ((w.source this).advance 1)) := by
  have hself : Returns (self this) w (w.component this) w := returns_self
  have hread : Returns (onSource this fgetc) w (some c)
      (w.setSource this ((w.source this).advance 1)) :=
    returns_onSource.2 ⟨_, returns_fgetc_cons hrest, rfl⟩
  unfold runOne
  rw [hself.run_bind, if_neg (by simp [hstop]), hread.run_bind]
  cases hop : Opcode.ofByte c with
  | none =>
    simp only [hop]
    rfl
  | some op => simp only [hop]

/-- A round that goes on is one at a byte. -/
theorem exists_byte_of_runOne (h : Returns (runOne doubles channelInstruction this) u true w) :
    (u.component this).stop = false ∧ ∃ c r, (u.source this).rest = c :: r := by
  cases hstop : (u.component this).stop with
  | true =>
    have hfalse := (h.unique (runOne_stopped hstop)).1
    cases hfalse
  | false =>
    refine ⟨rfl, ?_⟩
    cases hrest : (u.source this).rest with
    | nil =>
      have hfalse := (h.unique (runOne_end hstop hrest)).1
      cases hfalse
    | cons c r => exact ⟨c, r, rfl⟩

/-- A round at an opcode runs its handler. -/
theorem runOne_opcode {op : Opcode} (hstop : (w.component this).stop = false)
    (hop : w.opcodeAt this = some op) :
    Returns (runOne doubles channelInstruction this) w true w' ↔
      Returns (execute doubles channelInstruction this op)
        (w.setSource this ((w.source this).advance 1)) () w' := by
  obtain ⟨c, hc, hof⟩ := Option.bind_eq_some_iff.1 hop
  obtain ⟨r, hrest⟩ := List.head?_eq_some_iff.1 hc
  unfold Returns
  rw [runOne_byte hstop hrest, hof]
  constructor
  · intro h
    obtain ⟨_, v, hexec, hlast⟩ := returns_bind.1 h
    obtain ⟨-, rfl⟩ := returns_pure.1 hlast
    exact hexec
  · intro h
    exact Returns.bind h (returns_pure.2 ⟨rfl, rfl⟩)

/-- A byte that is no opcode is passed over. -/
theorem runOne_unknown (hstop : (w.component this).stop = false)
    (hrest : (w.source this).rest ≠ []) (hop : w.opcodeAt this = none) :
    Returns (runOne doubles channelInstruction this) w true
      (w.setSource this ((w.source this).advance 1)) := by
  obtain ⟨c, r, hrest⟩ := List.exists_cons_of_ne_nil hrest
  rw [opcodeAt_cons hrest] at hop
  unfold Returns
  rw [runOne_byte hstop hrest, hop]
  rfl

/-- A round runs the handler of the opcode it reads, and does nothing at a byte that is none. -/
theorem runs_one_cases (h : Runs doubles channelInstruction this 1 u w) :
    (∃ op, u.opcodeAt this = some op ∧
      Returns (execute doubles channelInstruction this op)
        (u.setSource this ((u.source this).advance 1)) () w) ∨
    (u.opcodeAt this = none ∧ w = u.setSource this ((u.source this).advance 1)) := by
  have hone := runs_one h
  obtain ⟨hstop, c, r, hrest⟩ := exists_byte_of_runOne hone
  cases hop : u.opcodeAt this with
  | some op => exact .inl ⟨op, rfl, (runOne_opcode hstop hop).1 hone⟩
  | none =>
    have hne : (u.source this).rest ≠ [] := by simp [hrest]
    exact .inr ⟨rfl, (hone.unique (runOne_unknown hstop hne hop)).2⟩

/-- The loop is left by a component that was stopped or whose file has ended. -/
theorem runOne_false (h : Returns (runOne doubles channelInstruction this) u false w) :
    ((u.component this).stop = true ∨ (u.source this).rest = []) ∧ w = u := by
  cases hstop : (u.component this).stop with
  | true => exact ⟨.inl rfl, (h.unique (runOne_stopped hstop)).2⟩
  | false =>
    cases hrest : (u.source this).rest with
    | nil => exact ⟨.inr rfl, (h.unique (runOne_end hstop hrest)).2⟩
    | cons c r =>
      unfold Returns at h
      rw [runOne_byte hstop hrest] at h
      obtain ⟨_, v, -, hlast⟩ := returns_bind.1 h
      cases (returns_pure.1 hlast).1

/-- A round that stops with a fault is one at an opcode, and its handler stops with it. -/
theorem runOne_throws {e : Fault} (h : Throws (runOne doubles channelInstruction this) u e w) :
    (u.component this).stop = false ∧ ∃ op, u.opcodeAt this = some op ∧
      Throws (execute doubles channelInstruction this op)
        (u.setSource this ((u.source this).advance 1)) e w := by
  cases hstop : (u.component this).stop with
  | true => exact absurd h (runOne_stopped hstop).not_throws
  | false =>
    refine ⟨rfl, ?_⟩
    cases hrest : (u.source this).rest with
    | nil => exact absurd h (runOne_end hstop hrest).not_throws
    | cons c r =>
      rw [opcodeAt_cons hrest]
      unfold Throws at h
      rw [runOne_byte hstop hrest] at h
      rcases throws_bind.1 h with h | ⟨_, v, -, hlast⟩
      · cases hop : Opcode.ofByte c with
        | none =>
          rw [hop] at h
          cases h
        | some op =>
          rw [hop] at h
          exact ⟨op, rfl, h⟩
      · cases hlast

/-- The round at an opcode. -/
theorem Runs.handler {op : Opcode} (hop : u.opcodeAt this = some op)
    (h : Runs doubles channelInstruction this 1 u w) :
    Returns (execute doubles channelInstruction this op)
      (u.setSource this ((u.source this).advance 1)) () w := by
  rcases runs_one_cases h with ⟨op', hop', hexec⟩ | ⟨hnone, -⟩
  · rw [hop] at hop'
    obtain rfl := Option.some.inj hop'
    exact hexec
  · rw [hop] at hnone
    cases hnone

theorem opcodeAt_of_rest {i : Instruction} {r : List UInt8}
    (hrest : (w.source this).rest = i.encode ++ r) : w.opcodeAt this = some i.opcode := by
  have hbyte : (w.source this).rest = i.opcode.byte :: (i.operands ++ r) := hrest
  rw [opcodeAt_cons hbyte]
  exact Opcode.ofByte_byte _

/-- The round at an instruction runs its handler in front of its operands. -/
theorem Runs.instruction {i : Instruction} {r : List UInt8}
    (hrest : (w.source this).rest = i.encode ++ r)
    (h : Runs doubles channelInstruction this 1 w w') :
    ((w.source this).advance 1).rest = i.operands ++ r ∧
      Returns (execute doubles channelInstruction this i.opcode)
        (w.setSource this ((w.source this).advance 1)) () w' := by
  have hbyte : (w.source this).rest = i.opcode.byte :: (i.operands ++ r) := hrest
  exact ⟨File.rest_advance_one hbyte, h.handler (opcodeAt_of_rest hrest)⟩

/-- A machine whose only component is in front of `contents`. -/
def World.atCode (contents : List UInt8) (scopeStack : Option (ScopeStack ℕ))
    (dataStack : Stack ℕ) (heap : List Cell) : World where
  component _ :=
    { name := ascii ['A'], sourceFile := 0, parameters := none, scopeStack := scopeStack
      dataStack := dataStack, waitComponents := none, procs := none, stop := false
      running := true, inProject := false }
  components := 1
  started := []
  mainComponent := 0
  cell p := heap[p]?
  fresh := heap.length
  file _ := ⟨contents, 0⟩
  handles := 1
  disk _ := none
  directory := []
  standardFunctions := ListMap.constructor

/-- The state in which a program ends. -/
def endOf {α : Type} (m : Exec α) (w : World) : World :=
  match m w with
  | .ok _ u => u
  | .error _ u => u

end InsenseCVM
