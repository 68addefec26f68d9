import InsenseCVM.Collections.Environments
import InsenseCVM.Machine.ChannelTransfer
import InsenseCVM.Machine.FullFootprint

/-!
# Structs that are sent

A receive copies of a struct only what heads the list of its fields. The nodes are shared, and each
copy has a cursor of its own, which stands where that of the other stood when the copy was made. No
load of a field changes a node, and none depends on where the cursor stands.
-/

namespace InsenseCVM
open Execution ByteStream

variable {this o : ℕ} {w w' w₀ u v : World} {env : CString → Option ℕ} {s : List (Option ℕ)}
  {r : List UInt8} {os : List ℕ}

/-! ### Building a struct -/

/-- A reader of what is next in the source. -/
theorem returns_reads {α : Type} {m : Reader α} {a : α} {bs : List UInt8} (h : Reads m bs a)
    (hrest : (u.source this).rest = bs ++ r) :
    ∃ v, Returns (onSource this m) u a v ∧ (v.source this).rest = r ∧ v.component = u.component ∧
      v.cell = u.cell := by
  refine ⟨_, returns_onSource.2 ⟨_, h _ r hrest, rfl⟩, ?_, rfl, rfl⟩
  rw [World.source_setSource]
  exact File.rest_advance hrest

/-- Each field gets what is on the top of the data stack when its name has been read. -/
theorem returns_readStructFields {fields : List Field} {values : List ℕ} {m : ListMap ℕ}
    (hlength : values.length = fields.length) (hm : m.Means env)
    (hrest : (u.source this).rest = fields.flatMap Field.encode ++ r)
    (hdata : (u.component this).dataStack.Holds (values.map some ++ s))
    (hvalues : ∀ p ∈ values, ∃ type object, u.cell p = some (.typed type object)) :
    ∃ m' v, Returns (Component.readStructFields this fields.length m) u m' v ∧
      m'.Means (bindAll env ((fields.map Field.key).zip values)) ∧
      (v.component this).dataStack.Holds s ∧ v.cell = u.cell := by
  induction fields generalizing u values m env with
  | nil =>
    obtain rfl := List.length_eq_zero_iff.1 hlength
    exact ⟨m, u, returns_pure.2 ⟨rfl, rfl⟩, hm, hdata, rfl⟩
  | cons field fields ih =>
    obtain ⟨p, values, rfl⟩ := List.exists_cons_of_length_eq_add_one hlength
    have hfield : (u.source this).rest =
        [field.type] ++ (field.name.encode ++ (fields.flatMap Field.encode ++ r)) := by
      rw [hrest]
      simp [Field.encode]
    obtain ⟨u₁, htype, hrest₁, hcomponent₁, hcell₁⟩ := returns_reads reads_fgetc hfield
    obtain ⟨u₂, hname, hrest₂, hcomponent₂, hcell₂⟩ := returns_reads (reads_name field.name) hrest₁
    obtain ⟨m₁, m₂, hdeclare, hput, hm₂⟩ := hm.bind field.key p
    rw [← hcomponent₁, ← hcomponent₂] at hdata
    obtain ⟨data, hpop, hdata₃⟩ := Stack.Holds.pop_cons hdata
    let u₃ := u₂.setComponent this { u₂.component this with dataStack := data }
    have hpops : Returns (popData this) u₂ (some p) u₃ := returns_popData.2 ⟨data, hpop, rfl⟩
    have hcell₃ : u₃.cell = u.cell := hcell₂.trans hcell₁
    obtain ⟨type, object, htyped⟩ := hvalues p List.mem_cons_self
    have hlogged : Returns (typedObject (some p)) u₃ (type, object) u₃ :=
      returns_typedObject.2 ⟨⟨p, rfl, by rw [hcell₃, htyped]⟩, rfl⟩
    have hrest₃ : (u₃.source this).rest = fields.flatMap Field.encode ++ r := by
      rw [World.source_setComponent (by rfl)]
      exact hrest₂
    have hdata₃ : (u₃.component this).dataStack.Holds (values.map some ++ s) := by
      rw [World.setComponent_component]
      exact hdata₃
    obtain ⟨m', v, hruns, hm', hdata', hcell'⟩ := ih (Nat.succ.inj hlength) hm₂ hrest₃ hdata₃
      fun q hq => hcell₃ ▸ hvalues q (List.mem_cons_of_mem _ hq)
    refine ⟨m', v, ?_, hm', hdata', hcell'.trans hcell₃⟩
    refine htype.bind (hname.bind ((returns_follow.2 ⟨hdeclare, rfl⟩).bind (hpops.bind ?_)))
    exact hlogged.bind ((returns_follow.2 ⟨hput, rfl⟩).bind hruns)

/-- The constructor leaves a struct on the data stack, in which each name has its value. -/
theorem returns_structConstructor {fields : Counted Field} {values : List ℕ}
    (hlength : values.length = fields.items.length)
    (hrest : (w.source this).rest = fields.encode Field.encode ++ r)
    (hdata : (w.component this).dataStack.Holds (values.map some ++ s))
    (hvalues : ∀ p ∈ values, ∃ type object, w.cell p = some (.typed type object)) :
    ∃ p o m w', Returns (Component.structConstructor this) w () w' ∧
      (w'.component this).dataStack.Holds (some p :: s) ∧
      w'.cell p = some (.typed typeStruct (some o)) ∧ w'.cell o = some (.map m) ∧
      m.Means (bindAll (fun _ => none) ((fields.items.map Field.key).zip values)) := by
  obtain ⟨u, hcount, hrest₁, hcomponent, hcell⟩ := returns_reads reads_fgetc
    (show (w.source this).rest = [UInt8.ofNat fields.items.length] ++
      (fields.items.flatMap Field.encode ++ r) from hrest)
  rw [← hcomponent] at hdata
  obtain ⟨m, v, hfields, hm, hdata', -⟩ := returns_readStructFields hlength
    ListMap.constructor_means hrest₁ hdata (hcell ▸ hvalues)
  let x := v.boxed typeStruct (.map m)
  have hpush : Returns (pushData this (some (v.fresh + 1))) x () _ := returns_pushData
  refine ⟨v.fresh + 1, v.fresh, m, x.setComponent this { x.component this with
    dataStack := (x.component this).dataStack.push (some (v.fresh + 1)) }, ?_, ?_,
    World.boxed_typed, World.boxed_object, hm⟩
  · unfold Component.structConstructor
    refine hcount.bind ?_
    rw [counted_length]
    exact hfields.bind (returns_boxed.2 hpush)
  · rw [World.setComponent_component]
    exact Stack.Holds.push hdata' _

/-! ### Loads and copies -/

/-- The struct with its fields at `o` has been built at `w₀` and has been copied by receives, and
components load fields of structs. `os` is where the fields of the struct and of its copies are;
whatever else happens leaves these alone. -/
inductive StructRun (o : ℕ) (w₀ : World) : List ℕ → World → Prop
  | built : StructRun o w₀ [o] w₀
  | copied {os : List ℕ} {wires : Wires} {call : Call ℕ ℕ} {a : ℕ} {u v : World}
      (before : StructRun o w₀ os u) (sent : a ∈ os) (new : call.data ∉ os)
      (run : Transfer.copy wires u (call, a) = some v) : StructRun o w₀ (call.data :: os) v
  | load {os : List ℕ} {this : ℕ} {u v : World} (before : StructRun o w₀ os u)
      (run : Ends (Component.structLoad this) u v) : StructRun o w₀ os v
  | other {os : List ℕ} {u v : World} (before : StructRun o w₀ os u)
      (same : ∀ a ∈ os, v.cell a = u.cell a) : StructRun o w₀ os v

/-- At each of the addresses are the nodes of one map, with a cursor anywhere. -/
def SharesNodes (nodes : ListMap ℕ) (env : CString → Option ℕ) (os : List ℕ) (w : World) : Prop :=
  ∀ a ∈ os, ∃ p, w.cell a = some (.map (nodes.moved p)) ∧ (nodes.moved p).Means env

/-- The heads stay what they are. -/
def KeepsStruct (nodes : ListMap ℕ) (env : CString → Option ℕ) (os : List ℕ) (w w' : World) : Prop :=
  SharesNodes nodes env os w → SharesNodes nodes env os w'

variable {nodes : ListMap ℕ}

instance : IsPreorder World (KeepsStruct nodes env os) where
  refl _ h := h
  trans _ _ _ h h' := h' ∘ h

theorem SharesNodes.of_same (h : SharesNodes nodes env os u)
    (hsame : ∀ a ∈ os, v.cell a = u.cell a) : SharesNodes nodes env os v := by
  intro a ha
  rw [hsame a ha]
  exact h a ha

/-- A lookup in one of the heads moves its cursor. -/
theorem SharesNodes.get {a : ℕ} (h : SharesNodes nodes env os u) (ha : a ∈ os) (name : CString) :
    ∃ fields fields', u.cell a = some (.map fields) ∧ fields.get name = some (env name, fields') ∧
      SharesNodes nodes env os { u with cell := Function.update u.cell a (some (.map fields')) } := by
  obtain ⟨p, hcell, hmeans⟩ := h a ha
  obtain ⟨q, hget, hmeans'⟩ := hmeans.get_moves name
  refine ⟨_, _, hcell, hget, fun b hb => ?_⟩
  by_cases hba : b = a
  · subst hba
    exact ⟨q, Function.update_self .., hmeans'⟩
  · obtain ⟨p', hcell', hp'⟩ := h b hb
    exact ⟨p', (Function.update_of_ne hba ..).trans hcell', hp'⟩

/-- So does a lookup in any struct. -/
theorem SharesNodes.write {a : ℕ} {name : CString} {fields fields' : ListMap ℕ} {field : Option ℕ}
    (h : SharesNodes nodes env os u) (hcell : u.cell a = some (.map fields))
    (hget : fields.get name = some (field, fields')) :
    SharesNodes nodes env os { u with cell := Function.update u.cell a (some (.map fields')) } := by
  by_cases ha : a ∈ os
  · obtain ⟨fields₁, fields₂, hcell₁, hget₁, hshares⟩ := h.get ha name
    rw [hcell] at hcell₁
    obtain rfl := Cell.map.inj (Option.some.inj hcell₁)
    rw [hget] at hget₁
    obtain ⟨-, rfl⟩ := Prod.mk.inj (Option.some.inj hget₁)
    exact hshares
  · refine h.of_same fun b hb => Function.update_of_ne ?_ ..
    rintro rfl
    exact ha hb

/-- What changes no cell. -/
theorem keepsStruct_of_cell (h : v.cell = u.cell) : KeepsStruct nodes env os u v :=
  fun hshares => hshares.of_same fun _ _ => congrFun h _

theorem keepsStruct_onSource {α : Type} {m : Reader α} :
    Always (KeepsStruct nodes env os) (onSource this m) := by
  intro u v h
  obtain ⟨f, rfl⟩ := Ends.zoom h
  exact keepsStruct_of_cell rfl

theorem keepsStruct_modifySelf {g : Component → Component} :
    Always (KeepsStruct nodes env os) (modifySelf this g) := by
  intro u v h
  rw [returns_modifySelf.ends.1 h]
  exact keepsStruct_of_cell rfl

theorem keepsStruct_popData : Always (KeepsStruct nodes env os) (popData this) := by
  refine always_self.bind fun c => always_follow.bind ?_
  rintro ⟨item, dataStack⟩
  exact keepsStruct_modifySelf.bind fun _ => Always.pure

/-- A load leaves every struct the fields that it has, also when it fails. -/
theorem keepsStruct_structLoad : Always (KeepsStruct nodes env os) (Component.structLoad this) := by
  refine keepsStruct_onSource.bind fun name => keepsStruct_popData.bind fun item => ?_
  refine always_typedObject.bind ?_
  rintro ⟨type, object⟩
  refine always_follow.bind fun address => ?_
  intro u v h
  rw [ends_get_bind] at h
  split at h
  · rename_i fields hcell
    rcases ends_bind.1 h with ⟨e, hfollow⟩ | ⟨⟨field, fields'⟩, u', hfollow, hwrite⟩
    · exact always_follow _ _ (.inr ⟨e, hfollow⟩)
    · obtain ⟨hget, rfl⟩ := returns_follow.1 hfollow
      rw [returns_modify.ends_bind] at hwrite
      refine trans_of (KeepsStruct nodes env os) (fun hshares => hshares.write hcell hget) ?_
      cases field with
      | none => exact Always.throw _ _ hwrite
      | some field => exact keepsStruct_modifySelf _ _ hwrite
  · exact Always.throw _ _ h

/-- A copy has the nodes of what it is a copy of, and the cursor where that has it. -/
theorem SharesNodes.copy {wires : Wires} {call : Call ℕ ℕ} {a : ℕ} (h : SharesNodes nodes env os u)
    (ha : a ∈ os) (hnew : call.data ∉ os) (hrun : Transfer.copy wires u (call, a) = some v) :
    SharesNodes nodes env (call.data :: os) v := by
  obtain ⟨p, hcell, hmeans⟩ := h a ha
  unfold Transfer.copy at hrun
  obtain ⟨⟨direction, typesize⟩, -, hrun⟩ := Option.bind_eq_some_iff.1 hrun
  obtain ⟨object, hobject, hrun⟩ := Option.bind_eq_some_iff.1 hrun
  obtain ⟨block, hblock, hrun⟩ := Option.bind_eq_some_iff.1 hrun
  obtain rfl := Option.some.inj hrun
  rw [hcell] at hobject
  obtain rfl := Option.some.inj hobject
  obtain rfl : .map (nodes.moved p) = block := by
    simp only [Cell.memncpy] at hblock
    split_ifs at hblock
    exact Option.some.inj hblock
  intro b hb
  rcases List.mem_cons.1 hb with rfl | hb
  · exact ⟨p, Function.update_self .., hmeans⟩
  · have hne : b ≠ call.data := by
      rintro rfl
      exact hnew hb
    obtain ⟨p', hcell', hp'⟩ := h b hb
    exact ⟨p', (Function.update_of_ne hne ..).trans hcell', hp'⟩

theorem StructRun.sharesNodes (h : StructRun o w₀ os w) (hcell : w₀.cell o = some (.map nodes))
    (hmeans : nodes.Means env) : SharesNodes nodes env os w := by
  induction h with
  | built =>
    intro a ha
    obtain rfl := List.mem_singleton.1 ha
    exact ⟨nodes.list.next, hcell, hmeans⟩
  | copied _ sent new run ih => exact ih.copy sent new run
  | load _ run ih => exact keepsStruct_structLoad _ _ run ih
  | other _ same ih => exact ih.of_same same

/-! ### What a load finds -/

/-- The component is about to load the field of the struct with its fields at `a`. -/
structure LoadsField (this : ℕ) (w : World) (name : Name) (a : ℕ) (s : List (Option ℕ)) : Prop where
  name : ∃ r, (w.source this).rest = name.encode ++ r
  struct : ∃ p type, (w.component this).dataStack.Holds (some p :: s) ∧
    w.cell p = some (.typed type (some a))

/-- A load of a field that has a value pushes it, and a load of any other is fatal. -/
theorem structLoad_cases {name : Name} {a : ℕ} (h : SharesNodes nodes env os w) (ha : a ∈ os)
    (hload : LoadsField this w name a s) :
    (∃ v w', env (literal name.bytes) = some v ∧ Returns (Component.structLoad this) w () w' ∧
      (w'.component this).dataStack.Holds (some v :: s)) ∨
    ∃ w', env (literal name.bytes) = none ∧ Throws (Component.structLoad this) w
      (.fatal "Field %s does not exist in struct!") w' := by
  obtain ⟨⟨r, hrest⟩, p, type, hdata, htyped⟩ := hload
  obtain ⟨u, hname, -, hcomponent, hcell⟩ := returns_reads (reads_name name) hrest
  rw [← hcomponent] at hdata
  rw [← hcell] at htyped
  obtain ⟨data, hpop, hdata'⟩ := Stack.Holds.pop_cons hdata
  let v := u.setComponent this { u.component this with dataStack := data }
  have hpops : Returns (popData this) u (some p) v := returns_popData.2 ⟨data, hpop, rfl⟩
  have hobject : Returns (typedObject (some p)) v (type, some a) v :=
    returns_typedObject.2 ⟨⟨p, rfl, htyped⟩, rfl⟩
  obtain ⟨fields, fields', hfields, hget, -⟩ :=
    (h.of_same (v := v) fun b _ => congrFun hcell b).get ha (literal name.bytes)
  let x : World := { v with cell := Function.update v.cell a (some (.map fields')) }
  have hrun : Component.structLoad this w = (env (literal name.bytes)).elim
      (fatal "Field %s does not exist in struct!") (fun field => pushData this (some field)) x := by
    unfold Component.structLoad
    rw [hname.run_bind, hpops.run_bind, hobject.run_bind]
    simp only
    rw [Returns.run_bind (returns_follow.2 ⟨rfl, rfl⟩),
      Returns.run_bind (returns_get.2 ⟨rfl, rfl⟩)]
    simp only [hfields]
    refine ((Returns.run_bind (returns_follow.2 ⟨hget, rfl⟩)).trans returns_modify.run_bind).trans ?_
    cases env (literal name.bytes) <;> rfl
  unfold Returns Throws
  rw [hrun]
  cases env (literal name.bytes) with
  | none => exact .inr ⟨x, rfl, rfl⟩
  | some value =>
    refine .inl ⟨value, _, rfl, returns_pushData, ?_⟩
    rw [World.setComponent_component]
    refine Stack.Holds.push ?_ _
    show (v.component this).dataStack.Holds s
    rw [World.setComponent_component]
    exact hdata'

/-- The fields of a struct with distinct names are those that have a value. -/
theorem bindAll_zip_eq_none_iff {names : List CString} {values : List ℕ} {k : CString}
    (hlength : values.length = names.length) (hdistinct : names.Nodup) :
    bindAll (fun _ => none) (names.zip values) k = none ↔ k ∉ names := by
  have hnames : (names.zip values).map Prod.fst = names := List.map_fst_zip hlength.ge
  constructor
  · intro hnone hk
    rw [← hnames] at hk
    obtain ⟨⟨_, v⟩, hmem, rfl⟩ := List.mem_map.1 hk
    rw [bindAll_of_mem (hnames.symm ▸ hdistinct) hmem] at hnone
    cases hnone
  · intro hk
    exact bindAll_of_notMem (hnames.symm ▸ hk)

/-- **A struct and all copies that receives make of it yield, for every field, what the constructor
stored under its name, in any order of loads, copies and loads of the copies; a load fails exactly
when the struct has no field of the name.** The copies share the nodes of the struct. -/
theorem received_struct_loads {fields : Counted Field} {values : List ℕ}
    (hdistinct : (fields.items.map Field.key).Nodup) (hlength : values.length = fields.items.length)
    (hrest : (w₀.source this).rest = fields.encode Field.encode ++ r)
    (hdata : (w₀.component this).dataStack.Holds (values.map some ++ s))
    (hvalues : ∀ p ∈ values, ∃ type object, w₀.cell p = some (.typed type object)) :
    ∃ (p o : ℕ) (nodes : ListMap ℕ) (w₁ : World), Returns (Component.structConstructor this) w₀ () w₁ ∧
      (w₁.component this).dataStack.Holds (some p :: s) ∧
      w₁.cell p = some (.typed typeStruct (some o)) ∧
      ∀ os w, StructRun o w₁ os w → ∀ a ∈ os, (∃ q, w.cell a = some (.map (nodes.moved q))) ∧
        ∀ that name t, LoadsField that w name a t →
          (∀ v, (literal name.bytes, v) ∈ (fields.items.map Field.key).zip values →
            ∃ w', Returns (Component.structLoad that) w () w' ∧
              (w'.component that).dataStack.Holds (some v :: t)) ∧
          ((∃ e w', Throws (Component.structLoad that) w e w') ↔
            literal name.bytes ∉ fields.items.map Field.key) := by
  obtain ⟨p, o, nodes, w₁, hbuilds, hdata₁, htyped, hcell, hmeans⟩ :=
    returns_structConstructor hlength hrest hdata hvalues
  have hkeys : values.length = (fields.items.map Field.key).length := by
    rw [List.length_map, hlength]
  refine ⟨p, o, nodes, w₁, hbuilds, hdata₁, htyped, fun os w hrun a ha => ?_⟩
  have hshares := hrun.sharesNodes hcell hmeans
  obtain ⟨q, hq, -⟩ := hshares a ha
  refine ⟨⟨q, hq⟩, fun that name t hload => ?_⟩
  rw [← bindAll_zip_eq_none_iff hkeys hdistinct]
  rcases structLoad_cases hshares ha hload with
    ⟨v, w', hvalue, hreturns, hdata'⟩ | ⟨w', hnone, hthrows⟩
  · refine ⟨fun v' hmem => ⟨w', hreturns, ?_⟩, iff_of_false ?_ ?_⟩
    · rw [bindAll_of_mem ((List.map_fst_zip hkeys.ge).symm ▸ hdistinct) hmem] at hvalue
      obtain rfl := Option.some.inj hvalue
      exact hdata'
    · rintro ⟨e, u, hthrows⟩
      exact hreturns.not_throws hthrows
    · rw [hvalue]
      simp
  · refine ⟨fun v hmem => ?_, iff_of_true ⟨_, w', hthrows⟩ hnone⟩
    rw [bindAll_of_mem ((List.map_fst_zip hkeys.ge).symm ▸ hdistinct) hmem] at hnone
    cases hnone

def countField : Field := ⟨typeInteger, ⟨[120], nulFree_x⟩⟩

/-- A machine behind the opcode of the construction of a struct with one field. -/
def inFrontOfStruct : World :=
  World.atCode ((⟨[countField], by decide⟩ : Counted Field).encode Field.encode) none
    (Stack.constructor.push (some 1)) [.bytes [7, 0, 0, 0], .typed typeInteger (some 0)]

/-- The field is loaded from a copy. -/
theorem received_struct_loads_copy :
    ∃ o w₁, Returns (Component.structConstructor 0) inFrontOfStruct () w₁ ∧
      ∃ w, StructRun o w₁ [o + 2, o] w ∧ LoadsField 0 w countField.name (o + 2) [] ∧
        ∃ w', Returns (Component.structLoad 0) w () w' ∧
          (w'.component 0).dataStack.Holds [some 1] := by
  have hdata : (Stack.constructor.push (some 1)).Holds ([1].map some ++ []) :=
    Stack.constructor_holds.push _
  obtain ⟨p, o, nodes, w₁, hbuilds, -, -, hloads⟩ :=
    @received_struct_loads 0 inFrontOfStruct [] [] ⟨[countField], by decide⟩ [1] (by decide) rfl rfl hdata
      (by simp [inFrontOfStruct, World.atCode])
  obtain ⟨⟨q, hcell⟩, -⟩ := hloads _ _ .built o List.mem_cons_self
  -- the channel is one for structs
  let wires : Wires := ⟨fun _ => ListMap.constructor, [(.chanIn, sizeofListMap)]⟩
  let w₂ : World := { w₁ with
    cell := Function.update w₁.cell (o + 2) (some (.map (nodes.moved q))) }
  have hcopy : Transfer.copy wires w₁ (⟨0, 0, o + 2⟩, o) = some w₂ := by
    simp [Transfer.copy, hcell, Cell.memncpy, wires, w₂]
  let w : World := { World.atCode countField.name.encode none (Stack.constructor.push (some (o + 3))) [] with
    cell := Function.update w₂.cell (o + 3) (some (.typed typeStruct (some (o + 2)))) }
  have hrun : StructRun o w₁ [o + 2, o] w := by
    refine .other (.copied .built List.mem_cons_self (by simp) hcopy) fun a ha => ?_
    have hne : a ≠ o + 3 := by
      rintro rfl
      simp at ha
    exact Function.update_of_ne hne ..
  have hload : LoadsField 0 w countField.name (o + 2) [] :=
    ⟨⟨[], rfl⟩, o + 3, typeStruct, Stack.constructor_holds.push _, Function.update_self ..⟩
  obtain ⟨-, hall⟩ := hloads _ w hrun (o + 2) List.mem_cons_self
  exact ⟨o, w₁, hbuilds, w, hrun, hload, (hall 0 countField.name [] hload).1 1 List.mem_cons_self⟩

end InsenseCVM
