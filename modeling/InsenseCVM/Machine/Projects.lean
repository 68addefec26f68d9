import InsenseCVM.Bytecode.Agreement
import InsenseCVM.Machine.BlockSkipping
import InsenseCVM.Machine.Behaviours

/-!
# Which block of a project statement is run

A project statement runs the first of its blocks that is for the type of the projected value, or for
any type, with the value bound in a new frame, and goes on behind its `PROJECT_EXIT`; without such a
block it runs none. The other blocks are passed over: those in front by `component_projectEntry`, those
behind by `component_blockEnd`. The skipper gets past them when they have no branches and no jumps.

The frame of the value stays, since nothing leaves it.
-/

namespace InsenseCVM
open Execution ByteStream Structured Commands

variable {D : Type} {doubles : Doubles D} {channelInstruction : Opcode → ℕ → Exec Unit} {this : ℕ}
  {w w' u v : World} {d : Datum} {σ τ : Frames Datum} {p q k n : ℕ} {xs : List (Option ℕ)}
  {f g : File} {r : List UInt8} {stopped inProject : Bool} {target : UInt8}
  {c c' : Command Statement Expr}

/-! ### Code without branches and jumps -/

def straight : Command Statement Expr → Bool
  | .skip | .stop | .act _ => true
  | .seq first second => straight first && straight second
  | .ifThen _ _ | .ifThenElse _ _ _ | .loop _ _ | .forever _ => false

/-- A search of the skipper that comes to the bytes comes behind them. -/
def PassesOver (inProject : Bool) (target : UInt8) (bs : List UInt8) : Prop :=
  ∀ f k g r, Dispatches inProject target f k g → g.rest = bs ++ r →
    ∃ k', Dispatches inProject target f k' (g.advance bs.length)

/-- What ends a block or a project statement. -/
def EndsBlocks (target : UInt8) : Prop :=
  target = Opcode.blockEnd.byte ∨ target = Opcode.projectExit.byte

theorem passesOver_nil : PassesOver inProject target [] :=
  fun _ k _ _ hg _ => ⟨k, hg⟩

theorem PassesOver.append {bs cs : List UInt8} (h : PassesOver inProject target bs)
    (h' : PassesOver inProject target cs) : PassesOver inProject target (bs ++ cs) := by
  intro f k g r hg hrest
  rw [List.append_assoc] at hrest
  obtain ⟨k₁, hk₁⟩ := h f k g _ hg hrest
  obtain ⟨k₂, hk₂⟩ := h' f k₁ _ r hk₁ (File.rest_advance hrest)
  rw [File.advance_advance, ← List.length_append] at hk₂
  exact ⟨k₂, hk₂⟩

theorem passesOver_instruction {i : Instruction} (hother : i.opcode.byte ≠ target)
    (hreads : Reads (skipOperands inProject target i.opcode) i.operands ()) :
    PassesOver inProject target i.encode := by
  intro f k g r hg hrest
  have hskip := hreads (g.advance 1) r (File.rest_advance_one hrest)
  rw [← skipInstruction_opcode, File.advance_advance, Nat.add_comm] at hskip
  exact ⟨k + 1, .next hg hrest hother hskip⟩

/-- The opcodes of what ends a block or a project statement. -/
def Opcode.ends : Opcode → Bool
  | .blockEnd | .projectExit => true
  | _ => false

theorem EndsBlocks.ne {op : Opcode} (h : EndsBlocks target) (hop : op.ends = false) :
    op.byte ≠ target := by
  intro heq
  rcases h with rfl | rfl
  · obtain rfl := Opcode.byte_injective heq
    cases hop
  · obtain rfl := Opcode.byte_injective heq
    cases hop

theorem Expr.passesOver (e : Expr) (h : EndsBlocks target) :
    PassesOver inProject target (encodeAll e.compile) := by
  induction e with
  | literal value =>
    rw [compile, encodeAll_singleton]
    exact passesOver_instruction (h.ne rfl) (reads_literal value).map
  | load name =>
    rw [compile, encodeAll_singleton]
    exact passesOver_instruction (h.ne rfl) (reads_anyName name)
  | binary op first second ihfirst ihsecond =>
    rw [compile, encodeAll_append, encodeAll_append, encodeAll_singleton]
    refine (ihfirst.append ihsecond).append ?_
    exact passesOver_instruction (h.ne rfl) Reads.pure
  | not operand ih =>
    rw [compile, encodeAll_append, encodeAll_singleton]
    exact ih.append (passesOver_instruction (h.ne rfl) Reads.pure)

theorem Statement.passesOver (a : Statement) (h : EndsBlocks target) :
    PassesOver inProject target (a.before .done).code := by
  have hstore : ∀ name : Name, PassesOver inProject target (Instruction.store name).encode :=
    fun name => passesOver_instruction (h.ne rfl) (reads_anyName name)
  cases a with
  | enterScope =>
    exact (passesOver_instruction (i := .enterScope) (h.ne rfl) Reads.pure).append passesOver_nil
  | exitScope =>
    exact (passesOver_instruction (i := .exitScope) (h.ne rfl) Reads.pure).append passesOver_nil
  | declare name type value =>
    have hdeclare : PassesOver inProject target (Instruction.declare name type).encode :=
      passesOver_instruction (h.ne rfl) (Reads.name name (reads_readNBytes [type]).map)
    rw [before, Expr.code_before, code_instruction, code_instruction]
    exact (value.passesOver h).append (hdeclare.append ((hstore name).append passesOver_nil))
  | assign name value =>
    rw [before, Expr.code_before, code_instruction]
    exact (value.passesOver h).append ((hstore name).append passesOver_nil)

theorem passesOver_of_straight (hc : straight c = true) (h : EndsBlocks target) :
    PassesOver inProject target (before c .done).code := by
  induction c with
  | skip => exact passesOver_nil
  | stop =>
    have hstop : PassesOver inProject target (Instruction.stop noBytes).encode :=
      passesOver_instruction (h.ne rfl) (reads_anyName noBytes)
    exact hstop.append passesOver_nil
  | act a => exact a.passesOver h
  | seq first second ihfirst ihsecond =>
    rw [straight, Bool.and_eq_true] at hc
    rw [before, code_before]
    exact (ihfirst hc.1).append (ihsecond hc.2)
  | ifThen | ifThenElse | loop | «forever» => cases hc

/-! ### Blocks -/

/-- The `BLOCKEND` of a block. -/
def blockEnding : Structured := .instruction ⟨.blockEnd, plain rfl⟩ .done

/-- A block of a project statement, with what its body needs to be performed. -/
structure ProjectBlock where
  type : UInt8
  body : Command Statement Expr
  other : type ≠ Opcode.projectExit.byte
  new : negatesNew body = true
  fits : (before body .done).code.length + 1 < 2 ^ 31
  followed : (before body blockEnding).Followed

namespace ProjectBlock

/-- The bytes of the body. -/
def bytes (b : ProjectBlock) : List UInt8 := (before b.body .done).code

def code (b : ProjectBlock) : List UInt8 := b.type :: (b.bytes ++ [Opcode.blockEnd.byte])

/-- The block is for the type, or for any. -/
def accepts (type : UInt8) (b : ProjectBlock) : Bool := b.type = type ∨ b.type = typeAny

end ProjectBlock

def blocksCode (blocks : List ProjectBlock) : List UInt8 := blocks.flatMap ProjectBlock.code

/-- A project statement. -/
def projectCode (name : Name) (blocks : List ProjectBlock) : List UInt8 :=
  (Instruction.projectEntry name).encode ++ (blocksCode blocks ++ [Opcode.projectExit.byte])

variable {b : ProjectBlock} {blocks later : List ProjectBlock}

theorem ProjectBlock.passesOver (hb : straight b.body = true) (h : EndsBlocks target) :
    PassesOver inProject target b.bytes :=
  passesOver_of_straight hb h

theorem blocksCode_cons : blocksCode (b :: blocks) = b.code ++ blocksCode blocks := rfl

theorem blocksCode_append :
    blocksCode (blocks ++ later) = blocksCode blocks ++ blocksCode later :=
  List.flatMap_append

/-- Each block has its type. -/
theorem length_le_blocksCode (blocks : List ProjectBlock) :
    blocks.length ≤ (blocksCode blocks).length := by
  induction blocks with
  | nil => exact Nat.zero_le 0
  | cons b blocks ih =>
    rw [blocksCode_cons, ProjectBlock.code, List.length_append, List.length_cons, List.length_cons]
    omega

/-! ### The blocks behind the one that was run -/

/-- The type of the next block is consumed with the `BLOCKEND` in front of it. -/
theorem passesOver_blockEnd (b : ProjectBlock) :
    PassesOver true Opcode.projectExit.byte [Opcode.blockEnd.byte, b.type] := by
  have hreads : Reads (skipOperands true Opcode.projectExit.byte .blockEnd) [b.type] () := by
    rw [skipOperands, if_pos ⟨rfl, rfl⟩]
    refine Reads.byte b.type ?_
    rw [if_neg fun heq => b.other (Option.some.inj heq)]
    exact Reads.pure
  intro f k g r hg hrest
  have hskip := hreads (g.advance 1) r (File.rest_advance_one hrest)
  rw [← skipInstruction_opcode, File.advance_advance] at hskip
  exact ⟨k + 1, .next hg hrest (by decide) hskip⟩

/-- The `PROJECT_EXIT` is not consumed. -/
theorem dispatches_lastBlockEnd (hg : Dispatches true Opcode.projectExit.byte f k g)
    (hrest : g.rest = Opcode.blockEnd.byte :: Opcode.projectExit.byte :: r) :
    Dispatches true Opcode.projectExit.byte f (k + 1) (g.advance 1) := by
  refine .next hg hrest (by decide) ?_
  rw [skipInstruction_opcode, skipOperands, if_pos ⟨rfl, rfl⟩]
  refine (returns_fgetc_cons (File.rest_advance_one hrest)).bind ?_
  rw [if_pos rfl]
  exact returns_seekCur_back

/-- Started in the body of a block, a search for `PROJECT_EXIT` comes to that behind all blocks. -/
theorem dispatches_projectExit (hb : straight b.body = true)
    (hlater : ∀ b ∈ later, straight b.body = true)
    (hg : Dispatches true Opcode.projectExit.byte f k g)
    (hrest : g.rest = b.bytes ++ Opcode.blockEnd.byte :: (blocksCode later ++
      Opcode.projectExit.byte :: r)) :
    ∃ k', Dispatches true Opcode.projectExit.byte f k'
        (g.advance (b.bytes.length + 1 + (blocksCode later).length)) ∧
      (g.advance (b.bytes.length + 1 + (blocksCode later).length)).rest =
        Opcode.projectExit.byte :: r := by
  induction later generalizing b g k with
  | nil =>
    obtain ⟨k₁, hbody⟩ := ProjectBlock.passesOver hb (.inr rfl) f k g _ hg hrest
    have hend := File.rest_advance hrest
    have hlast := dispatches_lastBlockEnd hbody hend
    have hexit := File.rest_advance_one hend
    rw [File.advance_advance] at hlast hexit
    exact ⟨_, hlast, hexit⟩
  | cons c later ih =>
    obtain ⟨k₁, hbody⟩ := ProjectBlock.passesOver hb (.inr rfl) f k g _ hg hrest
    have hend : (g.advance b.bytes.length).rest = [Opcode.blockEnd.byte, c.type] ++ (c.bytes ++
        Opcode.blockEnd.byte :: (blocksCode later ++ Opcode.projectExit.byte :: r)) := by
      rw [File.rest_advance hrest, blocksCode_cons, ProjectBlock.code]
      simp
    obtain ⟨k₂, hnext⟩ := passesOver_blockEnd c f k₁ _ _ hbody hend
    obtain ⟨k', hfound⟩ := ih (hlater c List.mem_cons_self)
      (fun b hb => hlater b (List.mem_cons_of_mem c hb)) hnext (File.rest_advance hend)
    have hsame : g.advance (b.bytes.length + 1 + (blocksCode (c :: later)).length) =
        ((g.advance b.bytes.length).advance 2).advance
          (c.bytes.length + 1 + (blocksCode later).length) := by
      rw [File.advance_advance, File.advance_advance, blocksCode_cons, ProjectBlock.code]
      simp only [List.length_append, List.length_cons, List.length_nil]
      congr 1
      omega
    rw [hsame]
    exact ⟨k', hfound⟩

namespace Component

/-- The `BLOCKEND` of a block that was run leads behind the `PROJECT_EXIT`. -/
theorem blockEnd_leaves (hproject : (w.component this).inProject = true)
    (hlater : ∀ b ∈ later, straight b.body = true)
    (hrest : (w.source this).rest = blocksCode later ++ Opcode.projectExit.byte :: r) :
    Returns (blockEnd this) w ()
      (w.setSource this ((w.source this).advance ((blocksCode later).length + 1))) := by
  unfold blockEnd
  rw [returns_self.bind_iff, if_pos hproject]
  cases later with
  | nil =>
    have hexit : Returns (onSource this fgetc) w (some Opcode.projectExit.byte)
        (w.setSource this ((w.source this).advance 1)) :=
      returns_onSource.2 ⟨_, returns_fgetc_cons hrest, rfl⟩
    rw [hexit.bind_iff, if_neg fun h => h rfl]
    exact returns_pure.2 ⟨rfl, rfl⟩
  | cons b later =>
    have hbytes : (w.source this).rest = b.type :: (b.bytes ++ Opcode.blockEnd.byte ::
        (blocksCode later ++ Opcode.projectExit.byte :: r)) := by
      rw [hrest, blocksCode_cons, ProjectBlock.code]
      simp
    have htype : Returns (onSource this fgetc) w (some b.type)
        (w.setSource this ((w.source this).advance 1)) :=
      returns_onSource.2 ⟨_, returns_fgetc_cons hbytes, rfl⟩
    obtain ⟨k, hk, hexit⟩ := dispatches_projectExit (hlater b List.mem_cons_self)
      (fun c hc => hlater c (List.mem_cons_of_mem b hc)) .start (File.rest_advance_one hbytes)
    have hskip : Returns (onSource this (skipToNext true Opcode.projectExit.byte))
        (w.setSource this ((w.source this).advance 1)) (some Opcode.projectExit.byte)
        (w.setSource this ((w.source this).advance ((blocksCode (b :: later)).length + 1))) := by
      refine returns_onSource.2 ⟨_, ?_, (World.setSource_setSource _ _).symm⟩
      rw [World.source_setSource]
      convert hk.skipToNext hexit using 1
      rw [File.advance_advance, File.advance_advance, blocksCode_cons, ProjectBlock.code]
      simp only [List.length_append, List.length_cons, List.length_nil]
      congr 1
      omega
    rw [htype.bind_iff, if_pos fun heq => b.other (Option.some.inj heq), hproject]
    exact hskip.bind (returns_pure.2 ⟨rfl, rfl⟩)

/-! ### The blocks in front of the one that is run -/

/-- The loop passes over blocks that are not for the value. -/
theorem tryBlocks_passes (hblocks : ∀ b ∈ blocks, b.accepts d.type = false ∧ straight b.body = true)
    (hp : w.Denotes p d) (hrest : (w.source this).rest = blocksCode blocks ++ r) :
    Returns (tryBlocks this (some p) (blocks.length + n)) w () w' ↔
      Returns (tryBlocks this (some p) n)
        (w.setSource this ((w.source this).advance (blocksCode blocks).length)) () w' := by
  induction blocks generalizing w with
  | nil =>
    show _ ↔ Returns _ (w.setSource this ((w.source this).advance 0)) () w'
    rw [File.advance_zero, World.setSource_source, List.length_nil, Nat.zero_add]
  | cons b blocks ih =>
    obtain ⟨⟨haccepts, hstraight⟩, hothers⟩ := List.forall_mem_cons.1 hblocks
    obtain ⟨htype, hany⟩ : b.type ≠ d.type ∧ b.type ≠ typeAny := by
      simpa [ProjectBlock.accepts] using haccepts
    have hbytes : (w.source this).rest =
        b.type :: (b.bytes ++ Opcode.blockEnd.byte :: (blocksCode blocks ++ r)) := by
      rw [hrest, blocksCode_cons, ProjectBlock.code]
      simp
    have hbody := File.rest_advance_one hbytes
    obtain ⟨k, hk⟩ := b.passesOver hstraight (.inl rfl) _ 0 _ _
      (.start (f := (w.source this).advance 1)) hbody
    have hskip : Returns (onSource this (skipToNext (w.component this).inProject
        Opcode.blockEnd.byte)) (w.setSource this ((w.source this).advance 1))
        (some Opcode.blockEnd.byte) (w.setSource this ((w.source this).advance b.code.length)) := by
      refine returns_onSource.2 ⟨_, ?_, (World.setSource_setSource _ _).symm⟩
      rw [World.source_setSource]
      convert hk.skipToNext (File.rest_advance hbody) using 1
      rw [File.advance_advance, File.advance_advance, ProjectBlock.code]
      simp only [List.length_append, List.length_cons, List.length_nil]
      congr 1
      omega
    obtain ⟨o, hpf, hof, htyped, hobject⟩ := hp
    have hpass : PassesBlock this (some p) w
        (w.setSource this ((w.source this).advance b.code.length)) := by
      refine ⟨returns_onSource.2 ⟨_, returns_fgetc_cons hbytes, rfl⟩, ?_,
        returns_typedObject.2 ⟨⟨p, rfl, htyped⟩, rfl⟩, ?_, ?_, hskip⟩
      · exact fun heq => b.other (Option.some.inj heq)
      · exact fun heq => htype (Option.some.inj heq)
      · exact fun heq => hany (Option.some.inj heq)
    have hrest' : ((w.setSource this ((w.source this).advance b.code.length)).source this).rest =
        blocksCode blocks ++ r := by
      rw [World.source_setSource]
      rw [blocksCode_cons, List.append_assoc] at hrest
      exact File.rest_advance hrest
    have hp' : (w.setSource this ((w.source this).advance b.code.length)).Denotes p d :=
      ⟨o, hpf, hof, htyped, hobject⟩
    rw [List.length_cons, Nat.add_right_comm, hpass.tryBlocks, ih hothers hp' hrest',
      World.setSource_setSource, World.source_setSource, File.advance_advance, blocksCode_cons,
      List.length_append]

/-- A value is bound in the innermost frame. -/
theorem binds {R : ℕ → Datum → Prop} {name : CString} (h : w.Shows this R false σ xs)
    (hbind : σ.bind name d = some τ) (hp : R p d) :
    ∃ w', Returns (bindVariable this name (some p)) w () w' ∧ World.Onward this 0 w w' ∧
      w'.Shows this R false τ xs := by
  have hscopes := h.scopes
  cases hs : (w.component this).scopeStack with
  | none =>
    rw [hs] at hscopes
    obtain rfl : σ = [] := hscopes
    cases hbind
  | some s =>
    rw [hs] at hscopes
    obtain ⟨s₁, s₂, hdeclare, hstore, hs₂⟩ := ScopeStack.Shows.bind hscopes hbind hp
    have hdeclared : Returns (declareVariable this name) w () _ :=
      returns_onScopes.2 ⟨s, s₁, hs, by simp [hdeclare], rfl⟩
    have hstored : Returns (onScopes this (·.store name (some p)))
        (w.setComponent this { w.component this with scopeStack := some s₁ }) true _ :=
      returns_onScopes.2 ⟨s₁, s₂, by rw [World.setComponent_component], hstore, rfl⟩
    refine ⟨_, hdeclared.bind (hstored.bind (returns_pure.2 ⟨rfl, rfl⟩)), ?_, ?_, ?_, ?_⟩
    · refine World.Onward.trans (m := 0) (World.onward_setComponent ⟨_, _, _, rfl⟩)
        (World.onward_setComponent ?_)
      exact ⟨_, _, _, rfl⟩
    all_goals rw [World.setComponent_component]
    · rw [World.setComponent_component]
      exact h.stop
    · exact hs₂
    · rw [World.setComponent_component]
      exact h.data

/-- The projected value is bound in a new frame before the blocks are tried. -/
theorem projectEntry_binds {name : Name} {type : UInt8}
    (hrest : (w.source this).rest = name.encode ++ r)
    (hany : w.cell q = some (.typed type (some p))) (hq : q < w.fresh) (hp : w.Denotes p d)
    (h : w.Stands this false σ (some q :: xs)) :
    ∃ u, World.Onward this name.encode.length w u ∧
      u.Stands this false (Function.update (fun _ => none) name.key (some d) :: σ) xs ∧
      ∀ w', Returns (tryBlocks this (some p) (u.source this).rounds) u () w' →
        Returns (projectEntry this) w () w' := by
  obtain ⟨u₁, henter, honward₁, hu₁⟩ := enters h
  obtain ⟨u₂, hpop, honward₂, hu₂, -, -⟩ := pops hu₁
  have honward := honward₁.trans honward₂
  have htyped : Returns (typedObject (some q)) u₂ (type, some p) u₂ := by
    refine returns_typedObject.2 ⟨⟨q, rfl, ?_⟩, rfl⟩
    rw [honward.grows.cells q hq]
    exact hany
  have hname : Returns (onSource this readString) u₂ name.key
      (u₂.setSource this ((u₂.source this).advance name.encode.length)) := by
    refine returns_onSource.2 ⟨_, reads_name name _ r ?_, rfl⟩
    rw [honward.source]
    exact hrest
  obtain ⟨u, hbinds, honward₃, hu⟩ := binds (hu₂.setSource _)
    (show σ.enter.bind name.key d = some _ from rfl) hp
  have hall : World.Onward this name.encode.length w u := by
    have hread := honward.trans (World.onward_setSource (n := name.encode.length))
    have hlast := hread.trans honward₃
    rwa [Nat.zero_add, Nat.add_zero] at hlast
  refine ⟨u, hall, hu.mono fun _ _ h => h.grows hall.grows, fun w' hblocks => ?_⟩
  unfold projectEntry
  refine henter.bind (hpop.bind (htyped.bind (hname.bind (hbinds.bind ?_))))
  exact (returns_get.2 ⟨rfl, rfl⟩).bind hblocks

/-- The loop stops at a block for the value, and enters it. -/
theorem tryBlocks_enters (haccepts : b.accepts d.type = true) (hp : w.Denotes p d)
    (hrest : (w.source this).rest = b.type :: r) :
    Returns (tryBlocks this (some p) (n + 1)) w ()
      ((w.setSource this ((w.source this).advance 1)).setComponent this
        { w.component this with inProject := true }) := by
  obtain ⟨o, -, -, htyped, -⟩ := hp
  have hread : Returns (onSource this fgetc) w (some b.type)
      (w.setSource this ((w.source this).advance 1)) :=
    returns_onSource.2 ⟨_, returns_fgetc_cons hrest, rfl⟩
  have htype : Returns (typedObject (some p)) (w.setSource this ((w.source this).advance 1))
      (d.type, some o) (w.setSource this ((w.source this).advance 1)) :=
    returns_typedObject.2 ⟨⟨p, rfl, htyped⟩, rfl⟩
  have hfor : b.type = d.type ∨ b.type = typeAny := by
    simpa [ProjectBlock.accepts] using haccepts
  rw [tryBlocks, hread.bind_iff, if_neg fun heq => b.other (Option.some.inj heq), htype.bind_iff]
  simp only
  rw [if_neg]
  · exact returns_modifySelf
  · rintro ⟨htype, hany⟩
    rcases hfor with heq | heq
    · exact htype (congrArg some heq)
    · exact hany (congrArg some heq)

end Component

/-! ### Project statements -/

/-- The frames with one for the projected value. -/
def withProjected (name : Name) (d : Datum) (σ : Frames Datum) : Frames Datum :=
  Function.update (fun _ => none) name.key (some d) :: σ

/-- A machine in front of a project statement, with an `any` of the value on the stack. -/
structure World.AtProject (w : World) (this : ℕ) (name : Name) (blocks : List ProjectBlock)
    (r : List UInt8) (d : Datum) (σ : Frames Datum) (xs : List (Option ℕ)) (q p : ℕ) : Prop where
  rest : (w.source this).rest = projectCode name blocks ++ r
  any : w.cell q = some (.typed typeAny (some p))
  allocated : q < w.fresh
  value : w.Denotes p d
  stands : w.Stands this false σ (some q :: xs)

variable {name : Name} {first : List ProjectBlock}

/-- The round at the `PROJECT_ENTRY`, up to the block that comes after those that are passed over. -/
theorem World.AtProject.enters (h : w.AtProject this name (first ++ blocks) r d σ xs q p)
    (hfirst : ∀ b ∈ first, b.accepts d.type = false ∧ straight b.body = true) :
    ∃ u, w.Grows u ∧ (∀ c ≠ this, u.component c = w.component c) ∧
      (u.source this).rest = blocksCode blocks ++ Opcode.projectExit.byte :: r ∧
      u.Stands this false (withProjected name d σ) xs ∧ u.Denotes p d ∧
      ∀ w', (∀ n, Returns (Component.tryBlocks this (some p) (n + 1)) u () w') →
        Reaches doubles channelInstruction this w w' := by
  have hcode : (w.source this).rest = (Instruction.projectEntry name).encode ++
      (blocksCode first ++ (blocksCode blocks ++ Opcode.projectExit.byte :: r)) := by
    rw [h.rest, projectCode, blocksCode_append]
    simp
  have hoperands := File.rest_advance_one hcode
  obtain ⟨u, honward, hu, hruns⟩ := Component.projectEntry_binds
    (w := w.setSource this ((w.source this).advance 1))
    (by rw [World.source_setSource]; exact hoperands) h.any h.allocated h.value (h.stands.setSource _)
  have hall := (World.onward_setSource (w := w)).trans honward
  have hrest : (u.source this).rest =
      blocksCode first ++ (blocksCode blocks ++ Opcode.projectExit.byte :: r) := by
    rw [honward.source, World.source_setSource]
    exact File.rest_advance hoperands
  have hp := h.value.grows hall.grows
  refine ⟨u.setSource this ((u.source this).advance (blocksCode first).length), ?_, hall.others, ?_,
    hu.setSource _, ?_, fun w' hblocks => .instruction h.stands.stop hcode (hruns w' ?_)⟩
  · exact ⟨hall.grows.fresh, hall.grows.cells⟩
  · rw [World.source_setSource]
    exact File.rest_advance hrest
  · exact hp
  · obtain ⟨n, hn⟩ : ∃ n, (u.source this).rounds = first.length + (n + 1) := by
      have hle := length_le_blocksCode first
      refine ⟨(u.source this).rounds - (first.length + 1), ?_⟩
      unfold File.rounds
      rw [hrest, List.length_append]
      omega
    rw [hn]
    exact (Component.tryBlocks_passes hfirst hp hrest).2 (hblocks n)

/-- A block for the value is found and entered. -/
theorem World.AtProject.finds (h : w.AtProject this name (first ++ b :: later) r d σ xs q p)
    (hfirst : ∀ b ∈ first, b.accepts d.type = false ∧ straight b.body = true)
    (haccepts : b.accepts d.type = true) :
    ∃ v, Reaches doubles channelInstruction this w v ∧ w.Grows v ∧
      (∀ c ≠ this, v.component c = w.component c) ∧ (v.component this).inProject = true ∧
      (v.source this).rest = b.bytes ++ Opcode.blockEnd.byte ::
        (blocksCode later ++ Opcode.projectExit.byte :: r) ∧
      v.Stands this false (withProjected name d σ) xs := by
  obtain ⟨u, hgrows, hcomponents, hrest, hu, hp, hreach⟩ := h.enters hfirst
  have hbytes : (u.source this).rest = b.type :: (b.bytes ++ Opcode.blockEnd.byte ::
      (blocksCode later ++ Opcode.projectExit.byte :: r)) := by
    rw [hrest, blocksCode_cons, ProjectBlock.code]
    simp
  refine ⟨_, hreach _ fun n => Component.tryBlocks_enters haccepts hp hbytes,
    ⟨hgrows.fresh, hgrows.cells⟩, fun c hc => ?_, ?_, ?_, ?_, ?_, ?_⟩
  · exact (Function.update_of_ne hc ..).trans (hcomponents c hc)
  · rw [World.setComponent_component]
  · rw [World.source_setComponent (by rfl), World.source_setSource]
    exact File.rest_advance_one hbytes
  all_goals rw [World.setComponent_component]
  · exact hu.stop
  · exact hu.scopes
  · exact hu.data

/-- The block that was found is performed, and the ones behind it are passed over. -/
theorem ProjectBlock.performed
    (h : Commands.Ends (Statement.does doubles) (Expr.finds doubles) b.body σ stopped τ)
    (hlater : ∀ c ∈ later, straight c.body = true) (hproject : (v.component this).inProject = true)
    (hrest : (v.source this).rest = b.bytes ++ Opcode.blockEnd.byte ::
      (blocksCode later ++ Opcode.projectExit.byte :: r)) (hv : v.Stands this false σ xs) :
    ∃ w', Reaches doubles channelInstruction this v w' ∧ w'.Stands this stopped τ xs ∧
      v.Grows w' ∧ (∀ c ≠ this, w'.component c = v.component c) ∧
      (stopped = false → (w'.source this).rest = r) := by
  have hcode : (v.source this).rest = (before b.body blockEnding).code ++
      (blocksCode later ++ Opcode.projectExit.byte :: r) := by
    rw [hrest, code_before, List.append_assoc]
    rfl
  have hperforms : Performs doubles channelInstruction this xs b.body σ stopped τ := performs h
  obtain ⟨u, hreach, hu⟩ := hperforms v blockEnding _ b.new b.fits b.followed hcode hv
  cases stopped with
  | true => exact ⟨u, hreach, hu.stands, hu.grows, hu.others, nofun⟩
  | false =>
    have hend : (u.source this).rest = Instruction.blockEnd.encode ++
        (blocksCode later ++ Opcode.projectExit.byte :: r) := rest_of_onward hu.onward hrest
    have hexit := File.rest_advance_one hend
    -- the body has left `inProject` as it was
    have hstays : (u.component this).inProject = true := hu.own.inProject.trans hproject
    have hleaves := Component.blockEnd_leaves (w := u.setSource this ((u.source this).advance 1))
      hstays hlater (by rw [World.source_setSource]; exact hexit)
    refine ⟨_, hreach.trans (.instruction hu.stands.stop hend hleaves),
      (hu.stands.setSource _).setSource _, ⟨hu.grows.fresh, hu.grows.cells⟩, hu.others, fun _ => ?_⟩
    rw [World.source_setSource, World.source_setSource]
    have hbehind : ((u.source this).advance 1).rest =
        (blocksCode later ++ [Opcode.projectExit.byte]) ++ r := by
      rw [List.append_assoc]
      exact hexit
    have hlast := File.rest_advance hbehind
    rwa [List.length_append] at hlast

end InsenseCVM
