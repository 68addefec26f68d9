import InsenseCVM.Bytecode.Nesting
import InsenseCVM.Machine.ProcedureReturn
import InsenseCVM.Machine.ProjectStatement

/-!
# Calls inside a block of a project statement

`component_blockEnd` looks at `inProject` first, and a call leaves `inProject` as it is. So the
`BLOCKEND` of a procedure that is called inside a block of a project statement is taken for the end
of that block: the component goes on behind the next `PROJECT_EXIT`, and never returns.
-/

namespace InsenseCVM
open Execution ByteStream

variable {D : Type} {doubles : Doubles D} {channelInstruction : Opcode → ℕ → Exec Unit}
  {this n : ℕ} {w w' u v : World}

/-- The component is in a block of a project statement, in front of the call of a procedure that it
declared; behind the call are the items `behind` and the `BLOCKEND` of the block. -/
structure ProjectCall (this : ℕ) (w : World) (name : Name) (behind : List Item)
    (r : List UInt8) : Prop where
  inProject : (w.component this).inProject = true
  call : LocalCall this w name (encodeItems behind ++ Opcode.blockEnd.byte :: r)

/-- The procedure called in `w` has returned in `w'`. -/
structure Returned (this : ℕ) (name : Name) (levels : List ℕ) (w w' : World) : Prop where
  position : w'.source this = (w.source this).advance (Instruction.procCall name).encode.length
  scopes : ∃ es, ScopesAre (w'.component this).scopeStack levels es
  inProject : (w'.component this).inProject = (w.component this).inProject

/-- In a project the end of a block leads behind a `PROJECT_EXIT` or to the end of the file. -/
theorem blockEnd_inProject (hproject : (v.component this).inProject = true)
    (hrun : Returns (Component.blockEnd this) v () w') :
    (w'.source this).rest = [] ∨ Behind (some Opcode.projectExit.byte) (w'.source this) := by
  unfold Component.blockEnd at hrun
  rw [returns_self.bind_iff, if_pos hproject] at hrun
  obtain ⟨nextByte, u, hread, hrest⟩ := returns_bind.1 hrun
  split_ifs at hrest with hexit
  · obtain ⟨found, x, hskip, hlast⟩ := returns_bind.1 hrest
    obtain ⟨-, rfl⟩ := returns_pure.1 hlast
    obtain ⟨g, hg, rfl⟩ := returns_onSource.1 hskip
    rw [World.source_setSource]
    rw [skipToNext_eq_search] at hg
    obtain ⟨hbehind, rfl | rfl⟩ := search_ends hg
    · exact .inl hbehind
    · exact .inr hbehind
  · obtain ⟨-, rfl⟩ := returns_pure.1 hrest
    obtain ⟨g, hg, rfl⟩ := returns_onSource.1 hread
    have hbehind := behind_of_fgetc hg
    rw [not_not.1 hexit] at hbehind
    rw [World.source_setSource]
    exact .inr hbehind

/-- `inProject` is as it was. -/
def SameProject (this : ℕ) (w w' : World) : Prop :=
  (w'.component this).inProject = (w.component this).inProject

instance : IsPreorder World (SameProject this) where
  refl _ := rfl
  trans _ _ _ h h' := h'.trans h

theorem sameProject_onScopes {α : Type} {f : ScopeStack ℕ → Option (α × ScopeStack ℕ)} :
    Respects (SameProject this) (onScopes this f) := by
  intro w a w' hrun
  obtain ⟨s, s', -, -, rfl⟩ := returns_onScopes.1 hrun
  unfold SameProject
  rw [World.setComponent_component]

theorem sameProject_procReturn : Respects (SameProject this) (Component.procReturn this) := by
  unfold Component.procReturn
  refine sameProject_onScopes.bind fun newPos => sameProject_onScopes.bind fun newFile => ?_
  refine Respects.bind ?_ fun _ => Respects.bind ?_ fun _ => sameProject_onScopes.bind fun _ =>
    sameProject_onScopes
  · unfold Component.returnToSource
    split
    · exact Respects.pure
    · refine Respects.bind Respects.get fun w => ?_
      split
      · intro w a w' hrun
        obtain ⟨-, rfl⟩ := hrun.unique returns_modifySelf
        unfold SameProject
        rw [World.setComponent_component]
      · exact Respects.throw
  · unfold Component.returnToPosition
    refine keeps_follow.respects.bind fun _ => Respects.bind Respects.get fun w => ?_
    split
    · intro w a w' hrun
      obtain ⟨g, -, rfl⟩ := returns_onSource.1 hrun
      exact rfl
    · exact Respects.throw

/-- Outside a project the end of a block leaves the component outside. -/
theorem blockEnd_outside (hproject : ¬ (v.component this).inProject = true)
    (hrun : Returns (Component.blockEnd this) v () w') : ¬ (w'.component this).inProject = true := by
  unfold Component.blockEnd at hrun
  rw [returns_self.bind_iff, if_neg hproject] at hrun
  obtain ⟨found, u, hload, hreturn⟩ := returns_bind.1 hrun
  have hloaded : (u.component this).inProject = (v.component this).inProject :=
    sameProject_onScopes _ _ _ hload
  have hreturned : (w'.component this).inProject = (u.component this).inProject := by
    cases found with
    | some address => exact sameProject_procReturn _ _ _ hreturn
    | none => rw [(returns_pure.1 hreturn).2]
  rwa [hreturned, hloaded]

/-- **In no run from a call inside a block of a project statement does a `BLOCKEND` return from the
procedure.** -/
theorem projectCall_not_returned {name : Name} {behind : List Item} {r : List UInt8}
    {levels : List ℕ} (hcall : ProjectCall this w name behind r) :
    ¬ ∃ n v w', Runs doubles channelInstruction this n w v ∧ v.opcodeAt this = some .blockEnd ∧
      Runs doubles channelInstruction this 1 v w' ∧ Returned this name levels w w' := by
  rintro ⟨n, v, w', -, hend, hlast, hposition, -, hproject⟩
  obtain ⟨x, hexec⟩ : ∃ x, Returns (Component.blockEnd this) x () w' := ⟨_, hlast.handler hend⟩
  rw [hcall.inProject] at hproject
  by_cases hinside : (x.component this).inProject = true
  swap
  · exact blockEnd_outside hinside hexec hproject
  have hrest := File.rest_advance hcall.call.instruction
  rw [← hposition] at hrest
  rcases blockEnd_inProject hinside hexec with hnil | ⟨g, hexit, hg⟩
  · -- the end of the block is behind the call
    rw [hnil] at hrest
    exact absurd hrest.symm (List.append_ne_nil_of_right_ne_nil _ (List.cons_ne_nil _ _))
  · -- in front of the position are the `NUL` of the name and a `PROJECT_EXIT`
    have hname : (w.source this).rest = (Opcode.procCall.byte :: typeString :: name.bytes) ++
        0 :: (encodeItems behind ++ Opcode.blockEnd.byte :: r) := by
      rw [hcall.call.instruction]
      simp [Instruction.encode, Instruction.operands, Instruction.opcode, Name.encode]
    have hencode : (Instruction.procCall name).encode =
        (Opcode.procCall.byte :: typeString :: name.bytes) ++ [0] := rfl
    rw [hposition, hencode] at hg
    exact absurd (File.byte_eq_of_advance hname hexit hg) (by decide)

/-! ### One call -/

/-- A machine in front of the declaration of a procedure with an empty body, and a project statement
with a block for truth values in which it is called. -/
def projectWithCall : World :=
  .atCode ((Instruction.proc procedureP ⟨[], few_nil⟩).encode ++ [Opcode.blockEnd.byte] ++
      ((Instruction.push (.fixed typeBool [1] rfl rfl)).encode ++ [Opcode.any.byte] ++
        ((Instruction.projectEntry variableV).encode ++ typeBool ::
          (Instruction.procCall procedureP).encode ++
            [Opcode.blockEnd.byte, Opcode.projectExit.byte])))
    (some (ScopeStack.enterScope none)) Stack.constructor []

/-- The procedure is called in the block, and runs to its `BLOCKEND`. -/
theorem projectWithCall_run :
    ∃ w v, Runs binary64 (fun _ _ => pure ()) 0 4 projectWithCall w ∧
      ProjectCall 0 w procedureP [] [Opcode.projectExit.byte] ∧
      Runs binary64 (fun _ _ => pure ()) 0 1 w v ∧ v.opcodeAt 0 = some .blockEnd ∧
      (v.component 0).inProject = true := by
  have hcalled : (afterRounds binary64 (fun _ _ => pure ()) 0 5 projectWithCall).map (fun v =>
      (v.opcodeAt 0, (v.component 0).inProject)) = some (some .blockEnd, true) := by
    decide +kernel
  obtain ⟨v, hv, hstate⟩ := Option.map_eq_some_iff.1 hcalled
  obtain ⟨hend, hinside⟩ := Prod.mk.inj hstate
  have hentered : (afterRounds binary64 (fun _ _ => pure ()) 0 4 projectWithCall).map (fun w =>
      ((w.component 0).inProject, (w.source 0).rest, (w.component 0).procs.bind fun procs =>
        (procs.get (literal procedureP.bytes)).bind fun found =>
          found.1.map fun proc => proc.parameterNames.first)) = some (true,
      (Instruction.procCall procedureP).encode ++ [Opcode.blockEnd.byte, Opcode.projectExit.byte],
        some none) := by
    decide +kernel
  obtain ⟨w, hw, hstate⟩ := Option.map_eq_some_iff.1 hentered
  obtain ⟨hproject, hstate⟩ := Prod.mk.inj hstate
  obtain ⟨hrest, hstate⟩ := Prod.mk.inj hstate
  obtain ⟨procs, hprocs, hfound⟩ := Option.bind_eq_some_iff.1 hstate
  obtain ⟨⟨found, procs'⟩, hget, hproc⟩ := Option.bind_eq_some_iff.1 hfound
  obtain ⟨proc, rfl, hempty⟩ := Option.map_eq_some_iff.1 hproc
  obtain ⟨w', hfirst, hlast⟩ := (runs_of_afterRounds hv).split (m := 4) (n := 1)
  obtain rfl := hfirst.unique (runs_of_afterRounds hw)
  exact ⟨w', v, hfirst, ⟨hproject, hrest, procs, procs', proc, hprocs, hget,
    Procedure.unreserved_of_isEmpty hempty⟩, hlast, hend, hinside⟩

theorem projectCall_not_returned_empty :
    ∃ w, ProjectCall 0 w procedureP [] [Opcode.projectExit.byte] ∧
      ¬ ∃ n v w', Runs binary64 (fun _ _ => pure ()) 0 n w v ∧ v.opcodeAt 0 = some .blockEnd ∧
        Runs binary64 (fun _ _ => pure ()) 0 1 v w' ∧ Returned 0 procedureP [1, 0] w w' := by
  obtain ⟨w, v, -, hcall, -⟩ := projectWithCall_run
  exact ⟨w, hcall, projectCall_not_returned hcall⟩

/-- The end of the procedure is taken for the end of the block. -/
theorem call_in_project_not_returned :
    ∃ w v, Runs binary64 (fun _ _ => pure ()) 0 4 projectWithCall w ∧
      ProjectCall 0 w procedureP [] [Opcode.projectExit.byte] ∧
      Runs binary64 (fun _ _ => pure ()) 0 1 w v ∧ v.opcodeAt 0 = some .blockEnd ∧
      ¬ ∃ w', Runs binary64 (fun _ _ => pure ()) 0 1 v w' ∧ Returned 0 procedureP [1, 0] w w' := by
  obtain ⟨w, v, hrun, hcall, hbody, hend, hinside⟩ := projectWithCall_run
  refine ⟨w, v, hrun, hcall, hbody, hend, ?_⟩
  rintro ⟨w', hlast, hposition, -, -⟩
  have hrest := File.rest_advance hcall.call.instruction
  rw [← hposition] at hrest
  rcases blockEnd_inProject (v := v.setSource 0 ((v.source 0).advance 1)) hinside
    (hlast.handler hend) with hnil | ⟨g, hexit, hg⟩
  · rw [hnil] at hrest
    cases hrest
  · rw [hposition] at hg
    have hbytes : (w.source 0).rest = [38, 6, 112] ++ 0 :: _ := hcall.call.instruction
    exact absurd (File.byte_eq_of_advance hbytes hexit hg) (by decide)

end InsenseCVM
