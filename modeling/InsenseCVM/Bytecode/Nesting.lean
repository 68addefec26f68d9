import InsenseCVM.Bytecode.Instruction

/-!
# Nested blocks

One opcode, `BLOCKEND`, ends the body of a procedure, the body of a constructor and each block of a
project statement. `WellNested` is code in which every block is complete. The skipper counts no
blocks: even where it looks for opcodes at the instructions and nowhere else, it takes the first
`BLOCKEND` that it meets for the one that closes the body.
-/

namespace InsenseCVM
open Execution ByteStream

/-- What stands in a body: an instruction, or the type in front of a block of a project
statement. -/
inductive Item
  | instruction (i : Instruction)
  | tag (type : UInt8)

def Item.encode : Item → List UInt8
  | .instruction i => i.encode
  | .tag type => [type]

def encodeItems (items : List Item) : List UInt8 := items.flatMap Item.encode

/-- A block of a project statement. -/
def projectBlock (block : UInt8 × List Item) : List Item :=
  .tag block.1 :: block.2 ++ [.instruction .blockEnd]

/-- The instructions that begin or end a block or a project statement. -/
def Instruction.Delimits : Instruction → Prop
  | .constructor _ | .proc _ _ | .blockEnd | .projectEntry _ | .projectExit => True
  | _ => False

/-- Code with only complete blocks. -/
inductive WellNested : List Item → Prop
  | nil : WellNested []
  | plain (i : Instruction) (h : ¬ i.Delimits) : WellNested [.instruction i]
  | append {items items' : List Item} (h : WellNested items) (h' : WellNested items') :
      WellNested (items ++ items')
  | proc (name : Name) (parameters : Counted Field) {body : List Item} (h : WellNested body) :
      WellNested (.instruction (.proc name parameters) :: body ++ [.instruction .blockEnd])
  | constructor (parameters : Counted Field) {body : List Item} (h : WellNested body) :
      WellNested (.instruction (.constructor parameters) :: body ++ [.instruction .blockEnd])
  | project (name : Name) (blocks : List (UInt8 × List Item))
      (types : ∀ block ∈ blocks, block.1 ≠ Opcode.projectExit.byte)
      (h : ∀ block ∈ blocks, WellNested block.2) :
      WellNested (.instruction (.projectEntry name) :: blocks.flatMap projectBlock ++
        [.instruction .projectExit])

/-- The items in front of a block. -/
def Item.Opens : Item → Prop
  | .instruction (.proc _ _) | .instruction (.constructor _) | .tag _ => True
  | _ => False

/-- There is a block in the code. -/
def HasBlock (items : List Item) : Prop := ∃ item ∈ items, item.Opens

/-- The skipper looks for an opcode where each instruction of the body begins, the `BLOCKEND` behind
the body included, for as long as it has not found a `BLOCKEND`. -/
def InStep (skips : UInt8 → Reader Unit) (f : File) (body : List Item) : Prop :=
  ∀ before i behind, body ++ [.instruction .blockEnd] = before ++ .instruction i :: behind →
    .instruction .blockEnd ∉ before →
      ∃ k, Passes skips Opcode.blockEnd.byte f k (f.advance (encodeItems before).length)

variable {skips : UInt8 → Reader Unit} {f : File} {body items items' : List Item} {r : List UInt8}
  {inProject : Bool}

theorem encodeItems_append : encodeItems (items ++ items') = encodeItems items ++ encodeItems items' :=
  List.flatMap_append

theorem hasBlock_append : HasBlock (items ++ items') ↔ HasBlock items ∨ HasBlock items' := by
  simp only [HasBlock, List.mem_append, or_and_right, exists_or]

theorem Item.Opens.delimits {i : Instruction} (h : (Item.instruction i).Opens) : i.Delimits := by
  cases i with
  | proc => exact trivial
  | constructor => exact trivial
  | _ => exact h.elim

/-- A block that begins ends, and a block that ends has begun. -/
theorem WellNested.blockEnd_mem_iff (h : WellNested items) :
    .instruction .blockEnd ∈ items ↔ HasBlock items := by
  induction h with
  | nil => simp [HasBlock]
  | plain i h =>
    simp only [HasBlock, List.mem_singleton, exists_eq_left]
    refine iff_of_false (fun heq => ?_) fun hopens => h ?_
    · obtain rfl := Item.instruction.inj heq
      exact h trivial
    · exact hopens.delimits
  | append _ _ ih ih' => rw [List.mem_append, hasBlock_append, ih, ih']
  | proc name parameters _ _ =>
    exact iff_of_true (by simp) ⟨.instruction (.proc name parameters), by simp, trivial⟩
  | constructor parameters _ _ =>
    exact iff_of_true (by simp) ⟨.instruction (.constructor parameters), by simp, trivial⟩
  | project name blocks _ _ _ =>
    cases blocks with
    | nil =>
      refine iff_of_false (by simp) ?_
      rintro ⟨item, hmem, hopens⟩
      simp only [List.flatMap_nil, List.cons_append, List.nil_append, List.mem_cons,
        List.not_mem_nil, or_false] at hmem
      rcases hmem with rfl | rfl
      · exact hopens
      · exact hopens
    | cons block blocks =>
      refine iff_of_true (by simp [projectBlock]) ⟨.tag block.1, ?_, trivial⟩
      simp [projectBlock]

/-- In step, a search for `BLOCKEND` ends behind the first one. -/
theorem InStep.search_first {before behind : List Item} (h : InStep skips f body)
    (hskips : ∀ byte, Forward (skips byte) 0)
    (hrest : f.rest = encodeItems body ++ Opcode.blockEnd.byte :: r)
    (hsplit : body ++ [.instruction .blockEnd] = before ++ .instruction .blockEnd :: behind)
    (hfirst : .instruction .blockEnd ∉ before) :
    Returns (search Fault.endless skips Opcode.blockEnd.byte) f (some Opcode.blockEnd.byte)
      (f.advance ((encodeItems before).length + 1)) := by
  obtain ⟨k, hk⟩ := h before .blockEnd behind hsplit hfirst
  have hall : f.rest = encodeItems before ++
      Opcode.blockEnd.byte :: (encodeItems behind ++ r) := by
    have hbytes := congrArg encodeItems hsplit
    have hclose : ∀ items : List Item, encodeItems (.instruction .blockEnd :: items) =
        Opcode.blockEnd.byte :: encodeItems items := fun _ => rfl
    rw [encodeItems_append, encodeItems_append, hclose, hclose] at hbytes
    calc f.rest = (encodeItems body ++ Opcode.blockEnd.byte :: encodeItems []) ++ r := by
          rw [hrest]
          simp [encodeItems]
      _ = encodeItems before ++ Opcode.blockEnd.byte :: (encodeItems behind ++ r) := by
          rw [hbytes]
          simp
  have hfound : Returns (search Fault.endless skips Opcode.blockEnd.byte) f _ _ :=
    hk.search hskips (File.rest_advance hall)
  rwa [File.advance_advance] at hfound

/-- In step, a search for `BLOCKEND` finds one, if only that behind the body. -/
theorem InStep.search_finds (h : InStep skips f body) (hskips : ∀ byte, Forward (skips byte) 0)
    (hrest : f.rest = encodeItems body ++ Opcode.blockEnd.byte :: r) :
    ∃ g, Returns (search Fault.endless skips Opcode.blockEnd.byte) f
      (some Opcode.blockEnd.byte) g := by
  have hmem : Item.instruction .blockEnd ∈ body ++ [.instruction .blockEnd] := by simp
  obtain ⟨before, behind, hsplit, hfirst⟩ := List.eq_append_cons_of_mem hmem
  exact ⟨_, h.search_first hskips hrest hsplit hfirst⟩

/-- In step with the instructions of a well-nested body, a search for `BLOCKEND` ends behind the one
that closes the body exactly when there is no block in the body. -/
theorem search_closing_iff (hbody : WellNested body) (hskips : ∀ byte, Forward (skips byte) 0)
    (hrest : f.rest = encodeItems body ++ Opcode.blockEnd.byte :: r) (hstep : InStep skips f body) :
    Returns (search Fault.endless skips Opcode.blockEnd.byte) f (some Opcode.blockEnd.byte)
      (f.advance ((encodeItems body).length + 1)) ↔ ¬ HasBlock body := by
  rw [← hbody.blockEnd_mem_iff]
  constructor
  · intro hrun hmem
    obtain ⟨before, behind, hsplit, hfirst⟩ := List.eq_append_cons_of_mem hmem
    have hclose : body ++ [.instruction .blockEnd] =
        before ++ .instruction .blockEnd :: (behind ++ [.instruction .blockEnd]) := by
      rw [hsplit]
      simp
    have hfound := hstep.search_first hskips hrest hclose hfirst
    have hlen := File.advance_injective (hrun.unique hfound).2
    -- the first one is inside the body
    rw [hsplit, encodeItems_append, List.length_append] at hlen
    have hpos : 0 < (encodeItems (.instruction .blockEnd :: behind)).length := by
      simp [encodeItems, Item.encode, Instruction.encode]
    omega
  · intro hnone
    exact hstep.search_first hskips hrest rfl hnone

/-- The skipper of the component is such a search. -/
theorem skipToNext_closing_iff (hbody : WellNested body)
    (hrest : f.rest = encodeItems body ++ Opcode.blockEnd.byte :: r)
    (hstep : InStep (skipInstruction inProject Opcode.blockEnd.byte) f body) :
    Returns (skipToNext inProject Opcode.blockEnd.byte) f (some Opcode.blockEnd.byte)
      (f.advance ((encodeItems body).length + 1)) ↔ ¬ HasBlock body := by
  rw [skipToNext_eq_search]
  exact search_closing_iff hbody (fun _ => forward_skipInstruction) hrest hstep

end InsenseCVM
