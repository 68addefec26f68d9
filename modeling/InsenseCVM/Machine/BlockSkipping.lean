import InsenseCVM.Bytecode.Nesting
import InsenseCVM.Collections.ParameterList
import InsenseCVM.Machine.Component

/-!
# Passing over blocks

`component_proc` passes over the body of the procedure that it declares, and
`component_projectEntry` over the blocks that are not for the type of its value. Both search for
`BLOCKEND`, and so both go on behind the first one: inside the body, when there is a block in it.
-/

namespace InsenseCVM
open Execution ByteStream

variable {this : ℕ} {w w' : World} {r : List UInt8} {body : List Item} {f : File}

/-- The skipper started at the body by the component. -/
theorem onSource_closing_iff {inProject : Bool} (hbody : WellNested body)
    (hrest : (w.source this).rest = encodeItems body ++ Opcode.blockEnd.byte :: r)
    (hstep : InStep (skipInstruction inProject Opcode.blockEnd.byte) (w.source this) body) :
    (∃ found w', Returns (onSource this (skipToNext inProject Opcode.blockEnd.byte)) w found w' ∧
      w'.source this = (w.source this).advance ((encodeItems body).length + 1)) ↔
        ¬ HasBlock body := by
  rw [← skipToNext_closing_iff hbody hrest hstep]
  constructor
  · rintro ⟨found, w', hrun, hsource⟩
    obtain ⟨g, hskip, rfl⟩ := returns_onSource.1 hrun
    rw [World.source_setSource] at hsource
    obtain ⟨g', hfinds⟩ := hstep.search_finds (fun _ => forward_skipInstruction) hrest
    rw [← skipToNext_eq_search] at hfinds
    obtain ⟨rfl, rfl⟩ := hskip.unique hfinds
    rwa [hsource] at hskip
  · intro hskip
    exact ⟨_, _, returns_onSource.2 ⟨_, hskip, rfl⟩, World.source_setSource _⟩

/-! ### Procedures -/

variable (this w) in
/-- A reader that consumes what is next in the source. -/
theorem returns_onSource_reads {α : Type} {m : Reader α} {a : α} {bs : List UInt8}
    (h : Reads m bs a) (hrest : f.rest = bs ++ r) :
    Returns (onSource this m) (w.setSource this f) a
      (w.setSource this (f.advance bs.length)) := by
  refine returns_onSource.2 ⟨_, ?_, (World.setSource_setSource _ _).symm⟩
  rw [World.source_setSource]
  exact h f r hrest

/-- The names come into the list in the opposite order. -/
theorem returns_readParameterNames (fields : List Field) (names : IteratedList CString)
    (hrest : f.rest = fields.flatMap Field.encode ++ r) :
    Returns (Component.readParameterNames this fields.length names) (w.setSource this f)
      (names.insertElements (fields.map Field.key).reverse)
      (w.setSource this (f.advance (fields.flatMap Field.encode).length)) := by
  induction fields generalizing f names with
  | nil => exact returns_pure.2 ⟨rfl, rfl⟩
  | cons field fields ih =>
    have hfield : f.rest =
        [field.type] ++ (field.name.encode ++ (fields.flatMap Field.encode ++ r)) := by
      rw [hrest]
      simp [Field.encode]
    have hname := File.rest_advance hfield
    have hnames := ih (names.insertElement (some field.key)) (File.rest_advance hname)
    refine (returns_onSource_reads this w reads_fgetc hfield).bind
      ((returns_onSource_reads this w (reads_name field.name) hname).bind ?_)
    rw [File.advance_advance, File.advance_advance] at hnames
    have hlen : (List.flatMap Field.encode (field :: fields)).length =
        [field.type].length + (field.name.encode.length +
          (fields.flatMap Field.encode).length) := by
      simp [Field.encode]
      omega
    rw [hlen, File.advance_advance, ← Nat.add_assoc, List.map_cons, List.reverse_cons,
      IteratedList.insertElements_concat]
    exact hnames

/-- The procedure that `component_proc` makes of its operands, with its body at the position. -/
def declaredProcedure (name : Name) (parameters : Counted Field) (position : ℕ) : Procedure where
  name := literal name.bytes
  position := position
  parameterNames :=
    IteratedList.constructList.insertElements (parameters.items.map Field.key).reverse

/-- `component_proc` reads the operands, enters the procedure in the map and then looks for a
`BLOCKEND`. -/
theorem returns_proc {name : Name} {parameters : Counted Field} {procs₁ procs₂ : ListMap Procedure}
    {stored : Bool}
    (hrest : (w.source this).rest = (Instruction.proc name parameters).operands ++ r)
    (hdeclare : ((w.component this).procs.getD ListMap.constructor).declare (literal name.bytes) =
      some procs₁)
    (hput : procs₁.put (literal name.bytes) (some (declaredProcedure name parameters
      ((w.source this).advance (Instruction.proc name parameters).operands.length).pos)) =
        some (stored, procs₂)) :
    ∃ v, v.source this =
        (w.source this).advance (Instruction.proc name parameters).operands.length ∧
      (v.component this).procs = some procs₂ ∧
      ∀ w', Returns (Component.proc this) w () w' ↔ ∃ found, Returns (onSource this
        (skipToNext (w.component this).inProject Opcode.blockEnd.byte)) v found w' := by
  have hname : (w.source this).rest = name.encode ++ ([UInt8.ofNat parameters.items.length] ++
      (parameters.items.flatMap Field.encode ++ r)) := by
    rw [hrest]
    simp [Instruction.operands, Counted.encode]
  have hcount := File.rest_advance hname
  have hfields := File.rest_advance hcount
  let u := w.setComponent this
    { w.component this with procs := some ((w.component this).procs.getD ListMap.constructor) }
  have hsource : u.setSource this (w.source this) = u := by
    have hsame : u.source this = w.source this := World.source_setComponent (by rfl)
    rw [← hsame]
    exact World.setSource_source
  -- the operands are read one after the other, each from where the one before ends
  have hreadName := returns_onSource_reads this u (reads_name name) hname
  rw [hsource] at hreadName
  have hreadCount := returns_onSource_reads this u (reads_fgetc (ε := Fault)) hcount
  have hreadNames := @returns_readParameterNames this u r _ parameters.items
    IteratedList.constructList hfields
  -- together they are the operands of the instruction
  have hlen : (((w.source this).advance name.encode.length).advance
      [UInt8.ofNat parameters.items.length].length).advance
        (parameters.items.flatMap Field.encode).length =
          (w.source this).advance (Instruction.proc name parameters).operands.length := by
    rw [File.advance_advance, File.advance_advance]
    congr 1
    simp [Instruction.operands, Counted.encode]
    omega
  rw [hlen] at hreadNames
  let x := u.setSource this ((w.source this).advance
    (Instruction.proc name parameters).operands.length)
  have hftell : Returns (onSource this ftell) x
      ((w.source this).advance (Instruction.proc name parameters).operands.length).pos x := by
    refine returns_onSource.2 ⟨_, returns_ftell.2 ⟨?_, rfl⟩, World.setSource_source.symm⟩
    rw [World.source_setSource]
  refine ⟨x.setComponent this { x.component this with procs := some procs₂ }, ?_, ?_, fun w' => ?_⟩
  · rw [World.source_setComponent (by rfl)]
    exact World.source_setSource _
  · rw [World.setComponent_component]
  · unfold declaredProcedure at hput
    unfold Component.proc
    rw [returns_self.bind_iff]
    simp only
    rw [returns_modifySelf.bind_iff, hreadName.bind_iff, hreadCount.bind_iff, counted_length,
      hreadNames.bind_iff, hftell.bind_iff, Returns.bind_iff (returns_follow.2 ⟨hdeclare, rfl⟩),
      Returns.bind_iff (returns_follow.2 ⟨hput, rfl⟩), returns_modifySelf.bind_iff,
      returns_self.bind_iff]
    -- entering the procedure leaves `inProject` as it was
    have hproject : ((x.setComponent this
        { x.component this with procs := some procs₂ }).component this).inProject =
          (w.component this).inProject := by
      rw [World.setComponent_component]
      show (u.component this).inProject = _
      rw [World.setComponent_component]
    rw [← hproject]
    constructor
    · intro h
      obtain ⟨found, t, hskip, hlast⟩ := returns_bind.1 h
      obtain ⟨-, rfl⟩ := returns_pure.1 hlast
      exact ⟨found, hskip⟩
    · rintro ⟨found, hskip⟩
      exact hskip.bind (returns_pure.2 ⟨rfl, rfl⟩)

/-- The procedures of the component are in a list map. -/
def HasProcedures (this : ℕ) (w : World) : Prop :=
  ∀ procs, (w.component this).procs = some procs → ∃ es, procs.Represents es

/-- In such a map there is room for every procedure. -/
theorem proc_skips {name : Name} {parameters : Counted Field} (hprocs : HasProcedures this w)
    (hrest : (w.source this).rest = (Instruction.proc name parameters).operands ++ r) :
    ∃ v, v.source this =
        (w.source this).advance (Instruction.proc name parameters).operands.length ∧
      ∀ w', Returns (Component.proc this) w () w' ↔ ∃ found, Returns (onSource this
        (skipToNext (w.component this).inProject Opcode.blockEnd.byte)) v found w' := by
  obtain ⟨es, hmap⟩ : ∃ es,
      ((w.component this).procs.getD ListMap.constructor).Represents es := by
    cases h : (w.component this).procs with
    | none => exact ⟨[], ListMap.constructor_represents⟩
    | some procs => exact hprocs procs h
  obtain ⟨procs₁, es₁, hdeclare, hprocs₁, -⟩ := hmap.declare_cases (literal name.bytes)
  have hput : ∀ proc, ∃ b procs₂, procs₁.put (literal name.bytes) proc = some (b, procs₂) := by
    intro proc
    rcases hprocs₁.put_cases (literal name.bytes) proc with ⟨m, _, h, -⟩ | ⟨m, _, _, _, h, -⟩
    · exact ⟨_, _, h⟩
    · exact ⟨_, _, h⟩
  obtain ⟨b, procs₂, hput⟩ := hput _
  obtain ⟨v, hsource, -, hproc⟩ := returns_proc hrest hdeclare hput
  exact ⟨v, hsource, hproc⟩

/-- In step with the body, `component_proc` goes on behind the procedure exactly when there is no
block in the body. -/
theorem proc_closing_iff {name : Name} {parameters : Counted Field} (hbody : WellNested body)
    (hprocs : HasProcedures this w)
    (hrest : (w.source this).rest = (Instruction.proc name parameters).operands ++
      (encodeItems body ++ Opcode.blockEnd.byte :: r))
    (hstep : InStep (skipInstruction (w.component this).inProject Opcode.blockEnd.byte)
      ((w.source this).advance (Instruction.proc name parameters).operands.length) body) :
    (∃ w', Returns (Component.proc this) w () w' ∧ w'.source this = (w.source this).advance
        ((Instruction.proc name parameters).operands.length + ((encodeItems body).length + 1))) ↔
      ¬ HasBlock body := by
  obtain ⟨v, hsource, hproc⟩ := proc_skips hprocs hrest
  have hrest' := File.rest_advance hrest
  rw [← hsource] at hrest' hstep
  rw [← onSource_closing_iff hbody hrest' hstep, hsource, File.advance_advance]
  constructor
  · rintro ⟨w', hrun, hend⟩
    obtain ⟨found, hskip⟩ := (hproc w').1 hrun
    exact ⟨found, w', hskip, hend⟩
  · rintro ⟨found, w', hskip, hend⟩
    exact ⟨w', (hproc w').2 ⟨found, hskip⟩, hend⟩

/-! ### Project statements -/

/-- A round of the loop over the blocks passes over one that is not for the type of the object. -/
inductive PassesBlock (this : ℕ) (projectedObject : Option ℕ) (w w' : World) : Prop
  | intro {v : World} {nextByte found : Option UInt8} {type : UInt8} {object : Option ℕ}
      (reads : Returns (onSource this fgetc) w nextByte v)
      (goesOn : nextByte ≠ some Opcode.projectExit.byte)
      (typed : Returns (typedObject projectedObject) v (type, object) v)
      (other : nextByte ≠ some type) (notAny : nextByte ≠ some typeAny)
      (skips : Returns (onSource this
        (skipToNext (v.component this).inProject Opcode.blockEnd.byte)) v found w')

/-- The loop goes on from there with the byte in front of the next block. -/
theorem PassesBlock.tryBlocks {projectedObject : Option ℕ} {u : World} {rounds : ℕ}
    (h : PassesBlock this projectedObject w u) :
    Returns (Component.tryBlocks this projectedObject (rounds + 1)) w () w' ↔
      Returns (Component.tryBlocks this projectedObject rounds) u () w' := by
  cases h with
  | intro reads goesOn typed other notAny skips =>
    rw [Component.tryBlocks, reads.bind_iff, if_neg goesOn, typed.bind_iff]
    simp only
    rw [if_pos ⟨other, notAny⟩, returns_self.bind_iff, skips.bind_iff]

theorem block_closing_iff {p : ℕ} {block type : UInt8} {object : Option ℕ}
    (hbody : WellNested body) (hcell : w.cell p = some (.typed type object)) (hother : block ≠ type)
    (hany : block ≠ typeAny) (hexit : block ≠ Opcode.projectExit.byte)
    (hrest : (w.source this).rest = block :: (encodeItems body ++ Opcode.blockEnd.byte :: r))
    (hstep : InStep (skipInstruction (w.component this).inProject Opcode.blockEnd.byte)
      ((w.source this).advance 1) body) :
    (∃ w', PassesBlock this (some p) w w' ∧
        w'.source this = (w.source this).advance (1 + ((encodeItems body).length + 1))) ↔
      ¬ HasBlock body := by
  have hread : Returns (onSource this fgetc) w (some block)
      (w.setSource this ((w.source this).advance 1)) :=
    returns_onSource.2 ⟨_, returns_fgetc_cons hrest, rfl⟩
  have hsource : (w.setSource this ((w.source this).advance 1)).source this =
      (w.source this).advance 1 := World.source_setSource _
  have hrest' := File.rest_advance_one hrest
  rw [← hsource] at hrest' hstep
  rw [← onSource_closing_iff hbody hrest' hstep, hsource, File.advance_advance]
  constructor
  · rintro ⟨w', ⟨reads, -, -, -, -, skips⟩, hend⟩
    obtain ⟨-, rfl⟩ := reads.unique hread
    exact ⟨_, w', skips, hend⟩
  · rintro ⟨found, w', skips, hend⟩
    exact ⟨w', ⟨hread, by simpa using hexit, returns_typedObject.2 ⟨⟨p, rfl, hcell⟩, rfl⟩,
      by simpa using hother, by simpa using hany, skips⟩, hend⟩

/-! ### Every search for the end of a block -/

/-- **A search for `BLOCKEND` that is in step with the instructions of a well-nested body ends
behind the `BLOCKEND` that closes the body if and only if there is no block in the body; so does the
skipper, and only then do `component_proc` and `component_projectEntry` go on there.** -/
theorem blockEnd_found_iff (hbody : WellNested body) :
    (∀ (skips : UInt8 → Reader Unit) (f : File), (∀ byte, Forward (skips byte) 0) →
      f.rest = encodeItems body ++ Opcode.blockEnd.byte :: r → InStep skips f body →
      (Returns (search Fault.endless skips Opcode.blockEnd.byte) f (some Opcode.blockEnd.byte)
        (f.advance ((encodeItems body).length + 1)) ↔ ¬ HasBlock body)) ∧
    (∀ (inProject : Bool) (f : File), f.rest = encodeItems body ++ Opcode.blockEnd.byte :: r →
      InStep (skipInstruction inProject Opcode.blockEnd.byte) f body →
      (Returns (skipToNext inProject Opcode.blockEnd.byte) f (some Opcode.blockEnd.byte)
        (f.advance ((encodeItems body).length + 1)) ↔ ¬ HasBlock body)) ∧
    (∀ (this : ℕ) (w : World) (name : Name) (parameters : Counted Field), HasProcedures this w →
      (w.source this).rest = (Instruction.proc name parameters).operands ++
        (encodeItems body ++ Opcode.blockEnd.byte :: r) →
      InStep (skipInstruction (w.component this).inProject Opcode.blockEnd.byte)
        ((w.source this).advance (Instruction.proc name parameters).operands.length) body →
      ((∃ w', Returns (Component.proc this) w () w' ∧ w'.source this = (w.source this).advance
        ((Instruction.proc name parameters).operands.length + ((encodeItems body).length + 1))) ↔
          ¬ HasBlock body)) ∧
    ∀ (this : ℕ) (w : World) (p : ℕ) (block type : UInt8) (object : Option ℕ),
      w.cell p = some (.typed type object) → block ≠ type → block ≠ typeAny →
      block ≠ Opcode.projectExit.byte →
      (w.source this).rest = block :: (encodeItems body ++ Opcode.blockEnd.byte :: r) →
      InStep (skipInstruction (w.component this).inProject Opcode.blockEnd.byte)
        ((w.source this).advance 1) body →
      ((∃ w', PassesBlock this (some p) w w' ∧
        w'.source this = (w.source this).advance (1 + ((encodeItems body).length + 1))) ↔
          ¬ HasBlock body) := by
  refine ⟨fun skips f hskips hrest hstep => ?_, fun inProject f hrest hstep => ?_,
    fun this w name parameters hprocs hrest hstep => ?_,
    fun this w p block type object hcell hother hany hexit hrest hstep => ?_⟩
  · exact search_closing_iff hbody hskips hrest hstep
  · exact skipToNext_closing_iff hbody hrest hstep
  · exact proc_closing_iff hbody hprocs hrest hstep
  · exact block_closing_iff hbody hcell hother hany hexit hrest hstep

/-- A body with one instruction, and a name as operand. -/
def loadBody : List Item := [.instruction (.load ⟨[120], nulFree_x⟩)]

theorem blockEnd_found_iff_load :
    Returns (skipToNext false Opcode.blockEnd.byte) ⟨encodeItems loadBody ++ [39], 0⟩
      (some Opcode.blockEnd.byte) ⟨encodeItems loadBody ++ [39], 5⟩ ↔ ¬ HasBlock loadBody := by
  have hbody : WellNested loadBody := .plain _ fun h => h
  refine (blockEnd_found_iff (r := []) hbody).2.1 false ⟨encodeItems loadBody ++ [39], 0⟩ rfl ?_
  intro before i behind hsplit hfirst
  match before, hsplit with
  | [], _ => exact ⟨0, .start⟩
  | [_], hsplit =>
    simp only [loadBody, List.cons_append, List.nil_append, List.cons.injEq] at hsplit
    obtain ⟨rfl, -⟩ := hsplit
    exact ⟨1, .next .start rfl (by decide) rfl⟩
  | item :: item' :: items, hsplit =>
    simp only [loadBody, List.cons_append, List.nil_append, List.cons.injEq] at hsplit
    obtain ⟨-, rfl, -⟩ := hsplit
    exact absurd (by simp) hfirst

/-- A body with a project statement that has one block, which is empty. -/
def projectBody : List Item :=
  [.instruction (.projectEntry ⟨[6, 120], by decide⟩), .tag typeInteger, .instruction .blockEnd,
    .instruction .projectExit]

/-- The skipper is in step with the instructions, and stops inside the project statement. -/
theorem inner_blockEnd_found :
    WellNested projectBody ∧
    InStep (skipInstruction false Opcode.blockEnd.byte) ⟨encodeItems projectBody ++ [39], 0⟩
      projectBody ∧
    ¬ Returns (skipToNext false Opcode.blockEnd.byte) ⟨encodeItems projectBody ++ [39], 0⟩
      (some Opcode.blockEnd.byte)
      (File.advance ⟨encodeItems projectBody ++ [39], 0⟩ ((encodeItems projectBody).length + 1)) := by
  refine ⟨?_, ?_, ?_⟩
  · exact .project _ [(typeInteger, [])] (by decide) (by simpa using .nil)
  · intro before i behind hsplit hfirst
    match before, hsplit with
    | [], _ => exact ⟨0, .start⟩
    | [_], hsplit => simp [projectBody] at hsplit
    | [_, _], hsplit =>
      simp only [projectBody, List.cons_append, List.nil_append, List.cons.injEq] at hsplit
      obtain ⟨rfl, rfl, -⟩ := hsplit
      -- the type of the name is passed over as a `STORE`, the type of the block as an `ENTERSCOPE`
      have hentry : Passes (skipInstruction false Opcode.blockEnd.byte) Opcode.blockEnd.byte
          ⟨encodeItems projectBody ++ [39], 0⟩ 1 ⟨encodeItems projectBody ++ [39], 1⟩ :=
        .next .start rfl (by decide) rfl
      have hname : Passes (skipInstruction false Opcode.blockEnd.byte) Opcode.blockEnd.byte
          ⟨encodeItems projectBody ++ [39], 0⟩ 2 ⟨encodeItems projectBody ++ [39], 5⟩ :=
        .next hentry rfl (by decide) rfl
      exact ⟨3, .next hname rfl (by decide) rfl⟩
    | item :: item' :: item'' :: items, hsplit =>
      simp only [projectBody, List.cons_append, List.nil_append, List.cons.injEq] at hsplit
      obtain ⟨-, -, rfl, -⟩ := hsplit
      exact absurd (by simp) hfirst
  · intro hrun
    have hfound : Returns (skipToNext false Opcode.blockEnd.byte)
        ⟨encodeItems projectBody ++ [39], 0⟩ (some Opcode.blockEnd.byte)
        ⟨encodeItems projectBody ++ [39], 7⟩ := by
      rfl
    have hpos := congrArg File.pos (hrun.unique hfound).2
    exact absurd hpos (by decide)

end InsenseCVM
