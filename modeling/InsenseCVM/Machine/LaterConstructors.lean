import InsenseCVM.Bytecode.Nesting
import InsenseCVM.Machine.Scoping

/-!
# The constructors behind the one that was run

A component that is running is to pass over the constructors that it comes to. It searches for
`BLOCKEND` from the number of parameters on, reads a byte more, and then goes on as if it looked for
its constructor: with no parameters left, it takes the next `0` that it reads as a number of
parameters for a match. So `component_constructor` never returns behind a `BLOCKEND`.

`Constructed` holds of a component from when its constructor is found, whatever it runs.
-/

namespace InsenseCVM
open Execution ByteStream

variable {D : Type} {doubles : Doubles D} {channelInstruction : Opcode → ℕ → Exec Unit}
  {this m n : ℕ} {w w' u v : World} {α : Type}

/-! ### Components whose constructor was found -/

/-- The component is running, and has given its parameters away. -/
structure Constructed (this : ℕ) (w : World) : Prop where
  component : this < w.components
  running : (w.component this).running = true
  parameters : (w.component this).parameters = none

def StaysConstructed (this : ℕ) (w w' : World) : Prop := Constructed this w → Constructed this w'

instance : IsPreorder World (StaysConstructed this) where
  refl _ h := h
  trans _ _ _ h h' hw := h' (h hw)

/-- The components are as they were. -/
theorem Constructed.of_eq (h : Constructed this w) (hcomponents : w'.components = w.components)
    (hcomponent : w'.component this = w.component this) : Constructed this w' := by
  refine ⟨?_, ?_, ?_⟩
  · rw [hcomponents]
    exact h.component
  · rw [hcomponent]
    exact h.running
  · rw [hcomponent]
    exact h.parameters

theorem staysConstructed_setComponent {owner : ℕ} {c : Component}
    (hc : Steady (w.component owner) c) : StaysConstructed this w (w.setComponent owner c) := by
  intro hw
  by_cases h : this = owner
  · subst h
    refine ⟨hw.component, ?_, ?_⟩
    · rw [World.setComponent_component, hc.running]
      exact hw.running
    · rw [World.setComponent_component, hc.parameters]
      exact hw.parameters
  · exact hw.of_eq rfl (Function.update_of_ne h ..)

/-- What the handlers change leaves a component constructed: a component that is called is a new
one. -/
theorem footprint_staysConstructed : WideFootprint this (StaysConstructed this) where
  source _ _ _ hw := hw.of_eq rfl rfl
  component _ _ _ hc := staysConstructed_setComponent hc.toSteady
  lookUp _ := respects_onScopes fun _ _ hc => staysConstructed_setComponent hc
  alloc _ _ _ hw := hw.of_eq rfl rfl
  write _ _ _ _ _ _ _ hw := hw.of_eq rfl rfl
  opened _ _ hw := hw.of_eq rfl rfl
  created w c _ hw := by
    have hsame : (w.setComponent w.components c).component this = w.component this :=
      Function.update_of_ne (Nat.ne_of_lt hw.component) ..
    refine ⟨Nat.lt_succ_of_lt hw.component, ?_, ?_⟩
    · exact (congrArg Component.running hsame).trans hw.running
    · exact (congrArg Component.parameters hsame).trans hw.parameters
  started _ _ hw := hw.of_eq rfl rfl
  functions _ _ hw := hw.of_eq rfl rfl
  self _ _ hc := staysConstructed_setComponent hc
  allocFile _ _ hw := hw.of_eq rfl rfl

/-! ### A constructor that a running component comes to -/

theorem Constructed.givenParameters {k : ℕ} (hw : Constructed this w)
    (hrun : Returns (Component.givenParameters this) w k w') : k = 0 ∧ w' = w := by
  unfold Component.givenParameters at hrun
  rw [returns_self.bind_iff, hw.parameters] at hrun
  exact returns_pure.1 hrun

/-- No parameters match a number of parameters that is `0`, and nothing else. -/
theorem returns_matchConstructor_none {paramsToRead : Option UInt8}
    {names : IteratedList CString} {thisConstructor : Bool}
    (hrun : Returns (Component.matchConstructor this paramsToRead 0) w
      (names, thisConstructor) w') :
    (thisConstructor = true → paramsToRead = some 0 ∧ w' = w) ∧
      (Constructed this w → Constructed this w') := by
  unfold Component.matchConstructor at hrun
  split_ifs at hrun with hcount
  · obtain ⟨hnames, rfl⟩ := returns_pure.1 hrun
    refine ⟨fun _ => ⟨?_, rfl⟩, fun h => h⟩
    obtain ⟨byte, rfl, hbyte⟩ := Option.map_eq_some_iff.1 hcount
    rw [UInt8.toNat_inj.1 (hbyte.trans UInt8.toNat_zero.symm)]
  · have hread : Respects (StaysConstructed this) (onSource this
        (times (counted paramsToRead) readField)) :=
      footprint_staysConstructed.onSource (sameContents_of_forward forward_readField).times
    obtain ⟨_, u, htimes, hlast⟩ := returns_bind.1 hrun
    obtain ⟨heq, rfl⟩ := returns_pure.1 hlast
    refine ⟨fun h => ?_, hread _ _ _ htimes⟩
    cases (Prod.mk.inj heq).2.symm.trans h

/-- With nothing to bind, the component is left as it is. -/
theorem Constructed.runConstructor {names : IteratedList CString} (hw : Constructed this w)
    (hrun : Returns (Component.runConstructor this 0 names) w () w') :
    Constructed this w' ∧ w'.source this = w.source this := by
  unfold Component.runConstructor at hrun
  obtain ⟨_, u, hrewind, hrest⟩ := returns_bind.1 hrun
  obtain ⟨-, rfl⟩ := hrewind.unique returns_modifySelf
  obtain ⟨_, v, hbind, hlast⟩ := returns_bind.1 hrest
  obtain ⟨-, rfl⟩ := returns_pure.1 hbind
  obtain ⟨-, rfl⟩ := hlast.unique returns_modifySelf
  rw [World.setComponent_component, World.setComponent_setComponent]
  refine ⟨⟨hw.component, ?_, ?_⟩, World.source_setComponent (by rfl)⟩
  · rw [World.setComponent_component]
  · rw [World.setComponent_component]

/-- The handler returns right behind a byte that is `0`. -/
theorem Constructed.constructorWithin {rounds : ℕ} (hw : Constructed this w)
    (hrun : Returns (Component.constructorWithin this rounds) w () w') :
    Constructed this w' ∧ ∃ g : File, g.rest.head? = some 0 ∧ w'.source this = g.advance 1 := by
  induction rounds generalizing w with
  | zero => exact absurd hrun returns_throw
  | succ rounds ih =>
    unfold Component.constructorWithin at hrun
    obtain ⟨_, u₁, hskip, hrun₁⟩ := returns_bind.1 hrun
    obtain ⟨given, u₂, hgiven, hrun₂⟩ := returns_bind.1 hrun₁
    obtain ⟨paramsToRead, u₃, hcount, hrun₃⟩ := returns_bind.1 hrun₂
    obtain ⟨⟨names, thisConstructor⟩, u₄, hmatch, hrun₄⟩ := returns_bind.1 hrun₃
    have hskips : Respects (StaysConstructed this) (Component.skipConstructor this) := by
      unfold Component.skipConstructor
      refine keeps_self.respects.bind fun c => Respects.ite ?_ Respects.pure
      exact footprint_staysConstructed.skipToNext.bind fun _ =>
        footprint_staysConstructed.fgetc.bind fun _ => Respects.pure
    have hw₁ := hskips _ _ _ hskip hw
    obtain ⟨rfl, rfl⟩ := hw₁.givenParameters hgiven
    have hw₃ := footprint_staysConstructed.fgetc _ _ _ hcount hw₁
    obtain ⟨hzero, hw₄⟩ := returns_matchConstructor_none hmatch
    simp only at hrun₄
    split_ifs at hrun₄ with hthis
    · -- the number of parameters was the byte in front
      obtain ⟨rfl, rfl⟩ := hzero hthis
      obtain ⟨hw', hsource⟩ := hw₃.runConstructor hrun₄
      obtain ⟨g, hread, rfl⟩ := returns_onSource.1 hcount
      rcases returns_fgetc_iff.1 hread with ⟨b, r, hrest, hb, rfl⟩ | ⟨-, hb, -⟩
      · refine ⟨hw', u₂.source this, ?_, ?_⟩
        · rw [hrest, hb]
          rfl
        · rw [hsource, World.source_setSource]
      · cases hb
    · -- another constructor is looked for, and read in the same way
      obtain ⟨_, u₅, hrewind, hrun₅⟩ := returns_bind.1 hrun₄
      rw [returns_self.bind_iff] at hrun₅
      obtain ⟨nextByte, u₆, hsearch, hrun₆⟩ := returns_bind.1 hrun₅
      have hw₅ : Constructed this u₅ := by
        have hw₄ := hw₄ hw₃
        obtain ⟨-, rfl⟩ := hrewind.unique returns_modifySelf
        refine ⟨hw₄.component, ?_, ?_⟩
        · rw [World.setComponent_component]
          exact hw₄.running
        · rw [World.setComponent_component, hw₄.parameters]
          rfl
      split_ifs at hrun₆
      · exact ih (footprint_staysConstructed.skipToNext _ _ _ hsearch hw₅) hrun₆
      · exact absurd hrun₆ returns_fatal

theorem Constructed.constructor (hw : Constructed this w)
    (hrun : Returns (Component.constructor this) w () w') :
    Constructed this w' ∧ ∃ g : File, g.rest.head? = some 0 ∧ w'.source this = g.advance 1 := by
  unfold Component.constructor at hrun
  rw [returns_get_bind] at hrun
  exact hw.constructorWithin hrun

/-! ### Runs -/

/-- Whatever the component runs, it stays constructed. -/
theorem Runs.constructed
    (hchannel : ∀ op, Respects (StaysConstructed this) (channelInstruction op this))
    (hrun : Runs doubles channelInstruction this n w w') (hw : Constructed this w) :
    Constructed this w' := by
  refine footprint_staysConstructed.scopeFootprint.runs (fun op hapart => ?_) hrun hw
  cases op with
  | constructor => exact fun _ _ _ h hu => (hu.constructor h).1
  | component | connect | disconnect | send | receive => exact hchannel _
  | _ => exact absurd hapart id

/-- Once the handler has found a constructor, the component is constructed. -/
theorem constructed_of_returns (hw : Settled this w)
    (hrun : Returns (Component.constructor this) w () w') : Constructed this w' := by
  have hkept : Undisturbed this noName w w' := undisturbed_constructor not_noName _ _ _ hrun
  obtain ⟨hrunning, hparameters⟩ : (w'.component this).running = true ∧
      (w'.component this).parameters = none := by
    unfold Component.constructor at hrun
    rw [returns_get_bind] at hrun
    have hwithin : ∀ (rounds : ℕ) (u : World),
        Returns (Component.constructorWithin this rounds) u () w' →
        (w'.component this).running = true ∧ (w'.component this).parameters = none := by
      intro rounds
      induction rounds with
      | zero => exact fun u h => absurd h returns_throw
      | succ rounds ih =>
        intro u h
        unfold Component.constructorWithin at h
        obtain ⟨_, u₁, -, h⟩ := returns_bind.1 h
        obtain ⟨given, u₂, -, h⟩ := returns_bind.1 h
        obtain ⟨paramsToRead, u₃, -, h⟩ := returns_bind.1 h
        obtain ⟨⟨names, thisConstructor⟩, u₄, -, h⟩ := returns_bind.1 h
        simp only at h
        split_ifs at h
        · unfold Component.runConstructor at h
          obtain ⟨_, u₅, -, h⟩ := returns_bind.1 h
          obtain ⟨_, u₆, -, h⟩ := returns_bind.1 h
          obtain ⟨-, rfl⟩ := h.unique returns_modifySelf
          rw [World.setComponent_component]
          exact ⟨rfl, rfl⟩
        · obtain ⟨_, u₅, -, h⟩ := returns_bind.1 h
          rw [returns_self.bind_iff] at h
          obtain ⟨nextByte, u₆, -, h⟩ := returns_bind.1 h
          split_ifs at h
          · exact ih u₆ h
          · exact absurd h returns_fatal
    exact hwithin _ _ hrun
  exact ⟨(hkept hw).1.component, hrunning, hparameters⟩

/-! ### The declarations behind the one that was run -/

/-- A declaration of a constructor, as it stands in the source. -/
structure ConstructorCode where
  parameters : Counted Field
  body : List Item
  nested : WellNested body

def ConstructorCode.encode (d : ConstructorCode) : List UInt8 :=
  (Instruction.constructor d.parameters).encode ++ (encodeItems d.body ++ [Opcode.blockEnd.byte])

/-- The component passes over the declarations, each in one round: it goes on behind the `BLOCKEND`
of the declaration, and no scope has changed. -/
inductive SkippedAsUnits (doubles : Doubles D) (channelInstruction : Opcode → ℕ → Exec Unit)
    (this : ℕ) : List ConstructorCode → World → World → Prop
  | nil (w : World) : SkippedAsUnits doubles channelInstruction this [] w w
  | cons {d : ConstructorCode} {ds : List ConstructorCode} {w u w' : World}
      (run : Runs doubles channelInstruction this 1 w u)
      (source : u.source this = (w.source this).advance d.encode.length)
      (scopes : (u.component this).scopeStack = (w.component this).scopeStack)
      (rest : SkippedAsUnits doubles channelInstruction this ds u w') :
      SkippedAsUnits doubles channelInstruction this (d :: ds) w w'

/-- The handler does not return behind the `BLOCKEND` of the declaration. -/
theorem Constructed.not_skipped {d : ConstructorCode} {ds : List ConstructorCode} {r : List UInt8}
    (hw : Constructed this w) (hrest : (w.source this).rest = d.encode ++ r) :
    ¬ SkippedAsUnits doubles channelInstruction this (d :: ds) w w' := by
  intro hskipped
  obtain ⟨v, run, source⟩ : ∃ v, Runs doubles channelInstruction this 1 w v ∧
      v.source this = (w.source this).advance d.encode.length := by
    cases hskipped with
    | cons run source _ _ => exact ⟨_, run, source⟩
  have hcode : (w.source this).rest = (Instruction.constructor d.parameters).encode ++
      (encodeItems d.body ++ Opcode.blockEnd.byte :: r) := by
    rw [hrest]
    simp [ConstructorCode.encode]
  obtain ⟨-, hexec⟩ := run.instruction hcode
  have hw₁ := footprint_staysConstructed.fgetc _ _ _
    (returns_onSource.2 ⟨_, returns_fgetc_cons (ε := Fault) hcode, rfl⟩) hw
  obtain ⟨-, g, hzero, hg⟩ := hw₁.constructor hexec
  -- the byte in front of the position is the `BLOCKEND`, and is `0`
  have hclose : (w.source this).rest = ((Instruction.constructor d.parameters).encode ++
      encodeItems d.body) ++ Opcode.blockEnd.byte :: r := by
    rw [hcode, List.append_assoc]
  have hlen : d.encode.length = (((Instruction.constructor d.parameters).encode ++
      encodeItems d.body) ++ [Opcode.blockEnd.byte]).length := by
    simp [ConstructorCode.encode]
  rw [source, hlen] at hg
  exact absurd (File.byte_eq_of_advance hclose hzero hg) (by decide)

/-- **Once the constructor that was found has run, the component passes over the declarations behind
it as units if and only if there is none.** -/
theorem laterConstructors_skipped_iff {later : List ConstructorCode} {r : List UInt8}
    (hchannel : ∀ op, Respects (StaysConstructed this) (channelInstruction op this))
    (hw : Settled this w) (hfound : Returns (Component.constructor this) w () v)
    (hbody : Runs doubles channelInstruction this n v u)
    (hlater : (u.source this).rest = later.flatMap ConstructorCode.encode ++ r) :
    (∃ w', SkippedAsUnits doubles channelInstruction this later u w') ↔ later = [] := by
  have hu := hbody.constructed hchannel (constructed_of_returns hw hfound)
  constructor
  · rintro ⟨w', hskipped⟩
    cases later with
    | nil => rfl
    | cons d ds =>
      rw [List.flatMap_cons, List.append_assoc] at hlater
      exact absurd hskipped (hu.not_skipped hlater)
  · rintro rfl
    exact ⟨u, .nil u⟩

/-! ### Two constructors -/

/-- A constructor without parameters and with an empty body. -/
def emptyConstructor : ConstructorCode := ⟨⟨[], few_nil⟩, [], .nil⟩

/-- A machine in front of some constructors, which has still to find its own. -/
def inFrontOfConstructors (constructors : List ConstructorCode) : World :=
  let w := World.atCode (constructors.flatMap ConstructorCode.encode)
    (some (ScopeStack.enterScope none)) Stack.constructor []
  w.setComponent 0 { w.component 0 with running := false }

theorem inFrontOfConstructors_settled (constructors : List ConstructorCode) :
    Settled 0 (inFrontOfConstructors constructors) :=
  Settled.setComponent (settled_atCode (by simp)) Nat.zero_lt_one

/-- The first of two empty constructors is found and run. -/
theorem emptyConstructor_run :
    ∃ w v u, Settled 0 w ∧ Returns (Component.constructor 0) w () v ∧
      Runs binary64 (fun _ _ => pure ()) 0 1 v u ∧
      (u.source 0).rest = [emptyConstructor].flatMap ConstructorCode.encode ++ [] := by
  have hboth : (afterRounds binary64 (fun _ _ => pure ()) 0 2
      (inFrontOfConstructors [emptyConstructor, emptyConstructor])).map (fun u => (u.source 0).rest) =
        some ([emptyConstructor].flatMap ConstructorCode.encode ++ []) := by
    decide +kernel
  obtain ⟨u, hu, hrest⟩ := Option.map_eq_some_iff.1 hboth
  obtain ⟨v, hfound, hbody⟩ := (runs_of_afterRounds hu).split (m := 1) (n := 1)
  have hopcode : Undisturbed 0 noName (inFrontOfConstructors [emptyConstructor, emptyConstructor]) _ :=
    undisturbed_opcode
  exact ⟨_, v, u, (hopcode (inFrontOfConstructors_settled _)).1,
    @Runs.handler _ _ _ _ _ _ .constructor rfl hfound, hbody, hrest⟩

theorem laterConstructors_skipped_iff_second :
    ∃ u, (u.source 0).rest = emptyConstructor.encode ∧
      ((∃ w', SkippedAsUnits binary64 (fun _ _ => pure ()) 0 [emptyConstructor] u w') ↔
        [emptyConstructor] = []) := by
  obtain ⟨w, v, u, hw, hfound, hbody, hrest⟩ := emptyConstructor_run
  exact ⟨u, by simpa using hrest,
    laterConstructors_skipped_iff (fun _ => Respects.pure) hw hfound hbody hrest⟩

/-- The second constructor is not passed over as a unit. -/
theorem second_constructor_not_skipped :
    ∃ w v u, Settled 0 w ∧ Returns (Component.constructor 0) w () v ∧
      Runs binary64 (fun _ _ => pure ()) 0 1 v u ∧ (u.source 0).rest = emptyConstructor.encode ∧
      ¬ ∃ w', SkippedAsUnits binary64 (fun _ _ => pure ()) 0 [emptyConstructor] u w' := by
  obtain ⟨w, v, u, hw, hfound, hbody, hrest⟩ := emptyConstructor_run
  have hu := hbody.constructed (fun _ => Respects.pure) (constructed_of_returns hw hfound)
  have hsecond : (u.source 0).rest = emptyConstructor.encode ++ [] := by simpa using hrest
  refine ⟨w, v, u, hw, hfound, hbody, by simpa using hrest, ?_⟩
  rintro ⟨w', hskipped⟩
  exact hu.not_skipped hsecond hskipped

end InsenseCVM
