import InsenseCVM.Bytecode.Instruction
import InsenseCVM.Collections.ParameterList
import InsenseCVM.Machine.Scoping
import Mathlib.Data.List.Rotate

/-!
# Choosing a constructor

`component_call` pops the parameters and puts each at the head of a list, so that the cursor stays
at the last parameter. The first constructor that a component comes to is compared from there: the
last parameter with the first type, the first parameter with the second type, and so on. When it
does not match, the list is rewound, and the constructors behind it are compared in order.

The names of a constructor go to the tail of a list that loses all of them but the first and the
last, so that only these two are bound, in turn.
-/

namespace InsenseCVM
open Execution ByteStream

variable {this : ℕ} {w u : World} {f g : File} {o : Option (IteratedList ℕ)} {as ys zs : List ℕ}
  {τs σs : List UInt8} {a b : ℕ} {levels : List ℕ} {es : ℕ → List (ListMap.Located ℕ)}
  {sc : ScopeStack ℕ} {s : Option (ScopeStack ℕ)} {α : Type}

/-! ### The parameters of the component -/

/-- The actual parameters are `as`, and once round from the cursor they come as `ys`. -/
def Given (o : Option (IteratedList ℕ)) (as ys : List ℕ) : Prop :=
  match o with
  | none => as = [] ∧ ys = []
  | some l => l.Turned as ys

theorem Given.getNextElement {y : ℕ} (h : Given o as (y :: ys)) :
    ∃ l l', o = some l ∧ l.getNextElement = some (some y, l') ∧ Given (some l') as (ys ++ [y]) := by
  cases o with
  | none => cases h.2
  | some l =>
    obtain ⟨l', hget, hturned⟩ := IteratedList.Turned.getNextElement h
    exact ⟨l, l', rfl, hget, hturned⟩

theorem Given.rewind (h : Given o as ys) : Given (o.map IteratedList.rewind) as as := by
  cases o with
  | none => exact ⟨h.1, h.1⟩
  | some l => exact IteratedList.Turned.rewind h

theorem Given.perm (h : Given o as ys) : ys.Perm as := by
  cases o with
  | none =>
    obtain ⟨rfl, rfl⟩ := h
    exact List.Perm.refl _
  | some l =>
    obtain ⟨cells, r, -, hrot, rfl, rfl⟩ := h
    exact hrot.perm.map _

/-- The value is a typed object of the type. -/
def World.HasType (w : World) (a : ℕ) (type : UInt8) : Prop :=
  ∃ object, w.cell a = some (.typed type object)

/-! ### States of a component that looks for its constructor -/

/-- The component has moved in its file, and has turned its parameters and changed its scopes. -/
def World.moved (w : World) (this : ℕ) (f : File) (o : Option (IteratedList ℕ))
    (s : Option (ScopeStack ℕ)) : World :=
  (w.setComponent this { w.component this with parameters := o, scopeStack := s }).setSource this f

@[simp] theorem World.moved_component :
    (w.moved this f o s).component this =
      { w.component this with parameters := o, scopeStack := s } := by
  unfold World.moved
  rw [World.setSource_component, World.setComponent_component]

@[simp] theorem World.moved_source : (w.moved this f o s).source this = f := World.source_setSource f

@[simp] theorem World.moved_setSource :
    (w.moved this f o s).setSource this g = w.moved this g o s := by
  simp [World.moved, World.setSource, World.setComponent]

theorem World.moved_self :
    w.moved this (w.source this) (w.component this).parameters (w.component this).scopeStack = w := by
  simp [World.moved, World.setSource, World.setComponent, World.source]

theorem returns_moved_onSource {m : Reader α} {x : α} (h : Returns m f x g) :
    Returns (onSource this m) (w.moved this f o s) x (w.moved this g o s) := by
  refine returns_onSource.2 ⟨g, ?_, World.moved_setSource.symm⟩
  rw [World.moved_source]
  exact h

theorem returns_moved_modifySelf {q : Component → Component} {o' : Option (IteratedList ℕ)}
    {s' : Option (ScopeStack ℕ)} (h : q { w.component this with parameters := o, scopeStack := s } =
      { w.component this with parameters := o', scopeStack := s' }) :
    Returns (modifySelf this q) (w.moved this f o s) () (w.moved this f o' s') := by
  have heq : w.moved this f o' s' =
      (w.moved this f o s).setComponent this (q ((w.moved this f o s).component this)) := by
    rw [World.moved_component, h]
    simp [World.moved, World.setSource, World.setComponent]
  rw [heq]
  exact returns_modifySelf

theorem returns_moved_onScopes {q : ScopeStack ℕ → Option (α × ScopeStack ℕ)} {x : α}
    {sc' : ScopeStack ℕ} (h : q sc = some (x, sc')) :
    Returns (onScopes this q) (w.moved this f o (some sc)) x (w.moved this f o (some sc')) := by
  unfold onScopes
  refine returns_self.bind ((returns_follow.2 ⟨?_, rfl⟩).bind ((returns_follow.2 ⟨h, rfl⟩).bind ?_))
  · rw [World.moved_component]
  · exact (returns_moved_modifySelf rfl).bind (returns_pure.2 ⟨rfl, rfl⟩)

variable (this w f s) in
theorem returns_moved_nextParameter {y : ℕ} (h : Given o as (y :: ys)) :
    ∃ o', Given o' as (ys ++ [y]) ∧
      Returns (Component.nextParameter this) (w.moved this f o s) (some y) (w.moved this f o' s) := by
  obtain ⟨l, l', rfl, hget, hgiven⟩ := h.getNextElement
  refine ⟨some l', hgiven, ?_⟩
  unfold Component.nextParameter
  refine returns_self.bind ((returns_follow.2 ⟨?_, rfl⟩).bind ((returns_follow.2 ⟨hget, rfl⟩).bind ?_))
  · rw [World.moved_component]
  · exact (returns_moved_modifySelf rfl).bind (returns_pure.2 ⟨rfl, rfl⟩)

/-! ### Comparing -/

variable (this s) in
/-- The loop compares each type with that of the next parameter, and collects the names. -/
theorem returns_readParameters {fields : List Field} {r : List UInt8}
    {names : IteratedList CString} {ks : List CString} {ok : Bool}
    (hrest : f.rest = fields.flatMap Field.encode ++ r) (hgiven : Given o as (ys ++ zs))
    (htypes : List.Forall₂ w.HasType ys σs) (hlength : fields.length = ys.length)
    (hnames : names.Tailed ks) :
    ∃ o' names' ks', Given o' as (zs ++ ys) ∧ names'.Tailed ks' ∧
      (fields.map Field.type = σs → ks' = ks ++ fields.map (literal ·.name.bytes)) ∧
      Returns (Component.readParameters this fields.length names ok) (w.moved this f o s)
        (names', ok && decide (fields.map Field.type = σs))
        (w.moved this (f.advance (fields.flatMap Field.encode).length) o' s) := by
  induction fields generalizing f o ys zs σs names ks ok with
  | nil =>
    obtain rfl : ys = [] := List.length_eq_zero_iff.1 hlength.symm
    obtain rfl : σs = [] := List.forall₂_nil_left_iff.1 htypes
    refine ⟨o, names, ks, by simpa using hgiven, hnames, by simp, ?_⟩
    simp [Component.readParameters]
  | cons field fields ih =>
    obtain ⟨y, ys, rfl⟩ : ∃ y ys', ys = y :: ys' :=
      List.exists_cons_of_length_pos (by rw [← hlength]; exact Nat.succ_pos _)
    obtain ⟨type, τs, ⟨object, htype⟩, hrestTypes, rfl⟩ := List.forall₂_cons_left_iff.1 htypes
    obtain ⟨o₁, hturned, hnext⟩ := returns_moved_nextParameter this w (f.advance 1) s hgiven
    have hgiven₁ : Given o₁ as (ys ++ (zs ++ [y])) := by
      rw [← List.append_assoc]
      exact hturned
    -- the type and the name are read
    have hbyte : f.rest = field.type :: (field.name.encode ++ (fields.flatMap Field.encode ++ r)) := by
      rw [hrest]
      simp [Field.encode]
    have hread := reads_name field.name _ _ (File.rest_advance_one hbyte)
    have hrest₁ := File.rest_advance (File.rest_advance_one hbyte)
    have hlen : f.advance ((field :: fields).flatMap Field.encode).length =
        ((f.advance 1).advance field.name.encode.length).advance
          (fields.flatMap Field.encode).length := by
      rw [File.advance_advance, File.advance_advance]
      congr 1
      rw [List.flatMap_cons, List.length_append]
      show (field.type :: field.name.encode).length + _ = _
      rw [List.length_cons]
      omega
    have htyped : Returns (typedObject (some y)) (w.moved this (f.advance 1) o₁ s) (type, object) _ :=
      returns_typedObject.2 ⟨⟨y, rfl, htype⟩, rfl⟩
    have hlength' : fields.length = ys.length := by simpa using hlength
    have hrun : ∀ {c : IteratedList CString × Bool} {v : World},
        Returns (if some field.type = some type then do
            let readParams ← follow (names.insertElementAtTail (some (literal field.name.bytes)))
            Component.readParameters this fields.length readParams ok
          else Component.readParameters this fields.length names false)
          (w.moved this ((f.advance 1).advance field.name.encode.length) o₁ s) c v →
        Returns (Component.readParameters this (fields.length + 1) names ok) (w.moved this f o s) c v := by
      intro c v hlast
      unfold Component.readParameters
      exact (returns_moved_onSource (returns_fgetc_cons hbyte)).bind (hnext.bind (htyped.bind
        ((returns_moved_onSource hread).bind hlast)))
    by_cases heq : field.type = type
    · subst heq
      obtain ⟨names₁, hinsert, hnames₁⟩ := hnames.insertElementAtTail (literal field.name.bytes)
      obtain ⟨o', names', ks', hgiven', hnames', hks', hloop⟩ :=
        @ih _ _ _ _ _ _ _ ok hrest₁ hgiven₁ hrestTypes hlength' hnames₁
      refine ⟨o', names', ks', by simpa using hgiven', hnames', fun hall => ?_, ?_⟩
      · rw [hks' (List.cons.inj hall).2]
        simp
      · rw [hlen]
        refine hrun ?_
        rw [if_pos rfl]
        refine (returns_follow.2 ⟨hinsert, rfl⟩).bind ?_
        simpa using hloop
    · obtain ⟨o', names', ks', hgiven', hnames', -, hloop⟩ :=
        @ih _ _ _ _ _ _ _ false hrest₁ hgiven₁ hrestTypes hlength' hnames
      have hne : ¬ (field :: fields).map Field.type = type :: τs := fun hall =>
        heq (List.cons.inj hall).1
      refine ⟨o', names', ks', by simpa using hgiven', hnames', fun hall => absurd hall hne, ?_⟩
      rw [hlen]
      refine hrun ?_
      rw [if_neg (by simpa using heq)]
      simpa [heq] using hloop

/-! ### Declarations of constructors -/

/-- A declaration of a constructor, behind whose opcode the file is at `file`. -/
structure Declaration where
  file : File
  parameters : Counted Field

namespace Declaration

def types (d : Declaration) : List UInt8 := d.parameters.items.map Field.type

def names (d : Declaration) : List CString := d.parameters.items.map (literal ·.name.bytes)

/-- The file in front of the body. -/
def body (d : Declaration) : File := d.file.advance (d.parameters.encode Field.encode).length

/-- The parameters are where the file is. -/
def Stands (d : Declaration) : Prop :=
  ∃ r, d.file.rest = d.parameters.encode Field.encode ++ r

end Declaration

/-- The declarations in a source, the first one where the component is. The bodies are skipped
correctly: behind each body the skipper comes to the next declaration, and behind the last to the
end of the file. -/
inductive Declared (inProject : Bool) : List Declaration → Prop
  | last {d : Declaration} {g : File} (stands : d.Stands)
      (skips : Returns (skipToNext inProject Opcode.constructor.byte) d.body none g) :
      Declared inProject [d]
  | next {d d' : Declaration} {ds : List Declaration} (stands : d.Stands)
      (skips : Returns (skipToNext inProject Opcode.constructor.byte) d.body
        (some Opcode.constructor.byte) d'.file)
      (rest : Declared inProject (d' :: ds)) : Declared inProject (d :: d' :: ds)

variable {d : Declaration} {ds : List Declaration} {inProject : Bool}

theorem Declared.stands (h : Declared inProject (d :: ds)) : d.Stands := by
  cases h with
  | last stands _ => exact stands
  | next stands _ _ => exact stands

theorem Declaration.Stands.length_lt (h : d.Stands) : d.body.rest.length < d.file.rest.length := by
  obtain ⟨r, hr⟩ := h
  have hbody : d.body.rest = r := File.rest_advance hr
  rw [hbody, hr]
  simp only [Counted.encode, List.length_append, List.length_cons]
  omega

theorem Declaration.body_pos (d : Declaration) : d.file.pos < d.body.pos := by
  show d.file.pos < d.file.pos + (UInt8.ofNat _ :: _ : List UInt8).length
  rw [List.length_cons]
  omega

/-- Each declaration takes up a byte at least. -/
theorem Declared.length_le (h : Declared inProject (d :: ds)) :
    (d :: ds).length ≤ d.file.rest.length := by
  generalize hds : d :: ds = all at h
  induction h generalizing d ds with
  | @last d' g stands _ =>
    obtain ⟨rfl, rfl⟩ := List.cons.inj hds
    have := stands.length_lt
    show 1 ≤ _
    omega
  | @next d₁ d₂ ds' stands skips _ ih =>
    obtain ⟨rfl, rfl⟩ := List.cons.inj hds
    have hnext := ih rfl
    have hbody := stands.length_lt
    obtain ⟨n, -, hfile⟩ := forward_skipToNext _ _ _ skips
    have hle : d₂.file.rest.length ≤ d.body.rest.length := by
      rw [hfile]
      simp only [File.rest, File.advance_contents, File.advance_pos, List.length_drop]
      omega
    rw [List.length_cons]
    omega

/-- The bodies of later declarations lie further on. -/
theorem Declared.body_lt (h : Declared inProject (d :: ds)) :
    ∀ d' ∈ ds, d.body.pos < d'.body.pos := by
  generalize hds : d :: ds = all at h
  induction h generalizing d ds with
  | last =>
    obtain ⟨rfl, rfl⟩ := List.cons.inj hds
    simp
  | @next d₁ d₂ ds' stands skips rest ih =>
    obtain ⟨rfl, rfl⟩ := List.cons.inj hds
    obtain ⟨n, -, hfile⟩ := forward_skipToNext _ _ _ skips
    have hle : d.body.pos ≤ d₂.file.pos := by
      rw [hfile]
      exact Nat.le_add_right _ _
    have hlt := d₂.body_pos
    intro d' hd'
    rcases List.mem_cons.1 hd' with rfl | hd'
    · omega
    · have := ih rfl d' hd'
      omega

/-! ### Running the handler -/

variable (this s) in
/-- A constructor is compared with the parameters as they come from the cursor. -/
theorem returns_matchConstructor {k : File} {r : List UInt8}
    (hrest : k.rest = d.parameters.items.flatMap Field.encode ++ r) (hgiven : Given o as ys)
    (htypes : List.Forall₂ w.HasType ys σs) :
    ∃ o' names ks, Given o' as ys ∧ names.Tailed ks ∧ (d.types = σs → ks = d.names) ∧
      Returns (Component.matchConstructor this (some (UInt8.ofNat d.parameters.items.length)) as.length)
        (w.moved this k o s) (names, decide (d.types = σs))
        (w.moved this (k.advance (d.parameters.items.flatMap Field.encode).length) o' s) := by
  have hlength : as.length = ys.length := hgiven.perm.length_eq.symm
  have hcount : ((some (UInt8.ofNat d.parameters.items.length)).map UInt8.toNat = some as.length) ↔
      d.parameters.items.length = as.length := by
    rw [Option.map_some, UInt8.toNat_ofNat_of_lt' d.parameters.few, Option.some.injEq]
  unfold Component.matchConstructor
  by_cases heq : d.parameters.items.length = as.length
  · rw [if_pos (hcount.2 heq), ← heq]
    have hys : Given o as (ys ++ []) := by simpa using hgiven
    obtain ⟨o', names, ks, hgiven', hnames, hks, hrun⟩ :=
      returns_readParameters this s hrest hys htypes (heq.trans hlength)
        (.inl ⟨rfl, rfl⟩)
    exact ⟨o', names, ks, hgiven', hnames, hks, hrun⟩
  · rw [if_neg fun h => heq (hcount.1 h)]
    have hne : ¬ d.types = σs := by
      intro h
      have hlen := congrArg List.length h
      rw [Declaration.types, List.length_map, ← htypes.length_eq, ← hlength] at hlen
      exact heq hlen
    refine ⟨o, _, [], hgiven, .inl ⟨rfl, rfl⟩, fun h => absurd h hne, ?_⟩
    have hread := Reads.times d.parameters.items (fun field _ => reads_field field) k r hrest
    rw [counted_length]
    refine (returns_moved_onSource hread).bind ?_
    rw [decide_eq_false hne]
    exact returns_pure.2 ⟨rfl, rfl⟩

theorem returns_moved_givenParameters (hgiven : Given o as ys) :
    Returns (Component.givenParameters this) (w.moved this f o s) as.length (w.moved this f o s) := by
  unfold Component.givenParameters
  refine returns_self.bind ?_
  rw [World.moved_component]
  cases o with
  | none =>
    rw [hgiven.1]
    exact returns_pure.2 ⟨rfl, rfl⟩
  | some l => exact returns_follow.2 ⟨IteratedList.Turned.length hgiven, rfl⟩

/-- A component that is not running reads the declaration, and goes on as it matches or not. -/
theorem constructorWithin_compare (hstands : d.Stands)
    (hrunning : (w.component this).running = false) (hgiven : Given o as ys)
    (htypes : List.Forall₂ w.HasType ys σs) (rounds : ℕ) :
    ∃ o' names ks, Given o' as ys ∧ names.Tailed ks ∧ (d.types = σs → ks = d.names) ∧
      Component.constructorWithin this (rounds + 1) (w.moved this d.file o s) =
        (if decide (d.types = σs) = true then
          Component.runConstructor this d.parameters.items.length names
        else do
          Component.rewindParameters this
          let c ← self this
          let nextByte ← onSource this (skipToNext c.inProject Opcode.constructor.byte)
          if nextByte = some Opcode.constructor.byte then Component.constructorWithin this rounds
          else fatal "Constructor not found!") (w.moved this d.body o' s) := by
  obtain ⟨r, hr⟩ := hstands
  have hbyte : d.file.rest = UInt8.ofNat d.parameters.items.length ::
      (d.parameters.items.flatMap Field.encode ++ r) := hr
  obtain ⟨o', names, ks, hgiven', hnames, hks, hmatch⟩ :=
    returns_matchConstructor this s (File.rest_advance_one hbyte) hgiven htypes
  have hbody :
      (d.file.advance 1).advance (d.parameters.items.flatMap Field.encode).length = d.body := by
    rw [File.advance_advance]
    show _ = d.file.advance (_ :: _ : List UInt8).length
    rw [List.length_cons, Nat.add_comm]
  rw [hbody] at hmatch
  refine ⟨o', names, ks, hgiven', hnames, hks, ?_⟩
  have hskip : Returns (Component.skipConstructor this) (w.moved this d.file o s) ()
      (w.moved this d.file o s) := by
    unfold Component.skipConstructor
    refine returns_self.bind ?_
    rw [World.moved_component, if_neg (by simp [hrunning])]
    exact returns_pure.2 ⟨rfl, rfl⟩
  have hcounted := counted_length d.parameters
  rw [Component.constructorWithin, hskip.run_bind, (returns_moved_givenParameters hgiven).run_bind,
    (returns_moved_onSource (returns_fgetc_cons hbyte)).run_bind, hmatch.run_bind, hcounted]

/-- The declaration that the code chooses: the first one is compared with `σs`, and those behind it
with `τs`. -/
def chosen (τs σs : List UInt8) : List Declaration → Option Declaration
  | [] => none
  | d :: ds => if d.types = σs then some d else ds.find? fun d => d.types = τs

theorem chosen_self (τs : List UInt8) (ds : List Declaration) :
    chosen τs τs ds = ds.find? fun d => d.types = τs := by
  cases ds with
  | nil => rfl
  | cons d ds =>
    rw [chosen, List.find?_cons]
    by_cases h : d.types = τs <;> simp [h]

/-- The handler runs the constructor that is chosen, or stops when there is none. -/
theorem constructorWithin_chosen (hdeclared : Declared (w.component this).inProject (d :: ds))
    (hrunning : (w.component this).running = false) (hgiven : Given o as ys)
    (hτs : List.Forall₂ w.HasType as τs) (hσs : List.Forall₂ w.HasType ys σs) {rounds : ℕ}
    (hrounds : (d :: ds).length ≤ rounds) :
    match chosen τs σs (d :: ds) with
    | some c => ∃ o' xs names, Given o' as xs ∧ names.Tailed c.names ∧
        Component.constructorWithin this rounds (w.moved this d.file o s) =
          Component.runConstructor this c.parameters.items.length names (w.moved this c.body o' s)
    | none => ∃ o' g, Throws (Component.constructorWithin this rounds) (w.moved this d.file o s)
        (.fatal "Constructor not found!") (w.moved this g o' s) := by
  induction ds generalizing d o ys σs rounds with
  | nil =>
    obtain ⟨rounds, rfl⟩ := Nat.exists_eq_add_one.2 (Nat.zero_lt_of_lt hrounds)
    obtain ⟨o', names, ks, hgiven', hnames, hks, hrun⟩ :=
      constructorWithin_compare (s := s) hdeclared.stands hrunning hgiven hσs rounds
    by_cases h : d.types = σs
    · obtain rfl := hks h
      rw [chosen, if_pos h]
      rw [decide_eq_true h, if_pos rfl] at hrun
      exact ⟨o', ys, names, hgiven', hnames, hrun⟩
    · rw [chosen, if_neg h]
      rw [decide_eq_false h, if_neg (by simp)] at hrun
      cases hdeclared with
      | @last _ g _ skips =>
        refine ⟨o'.map IteratedList.rewind, g, ?_⟩
        unfold Throws
        have hrewind : Returns (Component.rewindParameters this) (w.moved this d.body o' s) ()
            (w.moved this d.body (o'.map IteratedList.rewind) s) := returns_moved_modifySelf rfl
        rw [hrun, hrewind.run_bind, returns_self.run_bind, World.moved_component,
          (returns_moved_onSource skips).run_bind, if_neg (by simp)]
        rfl
  | cons d' ds ih =>
    obtain ⟨rounds, rfl⟩ := Nat.exists_eq_add_one.2 (Nat.zero_lt_of_lt hrounds)
    obtain ⟨o', names, ks, hgiven', hnames, hks, hrun⟩ :=
      constructorWithin_compare (s := s) hdeclared.stands hrunning hgiven hσs rounds
    by_cases h : d.types = σs
    · obtain rfl := hks h
      rw [chosen, if_pos h]
      rw [decide_eq_true h, if_pos rfl] at hrun
      exact ⟨o', ys, names, hgiven', hnames, hrun⟩
    · rw [chosen, if_neg h, ← chosen_self]
      rw [decide_eq_false h, if_neg (by simp)] at hrun
      cases hdeclared with
      | next _ skips rest =>
        have hrewind : Returns (Component.rewindParameters this) (w.moved this d.body o' s) ()
            (w.moved this d.body (o'.map IteratedList.rewind) s) := returns_moved_modifySelf rfl
        rw [hrewind.run_bind, returns_self.run_bind, World.moved_component,
          (returns_moved_onSource skips).run_bind, if_pos rfl] at hrun
        -- the parameters are rewound, so that the next one is compared in order
        have hle : (d' :: ds).length ≤ rounds := by
          rw [List.length_cons] at hrounds
          omega
        have hnext := ih rest hgiven'.rewind hτs hle
        unfold Throws at hnext ⊢
        rw [hrun]
        exact hnext

/-! ### Binding -/

variable (this w f) in
/-- A round of the loop binds the next name to the next parameter. -/
theorem bindParameters_succ {names : IteratedList CString} {x y : CString}
    (hnames : names.Alternates x y) (hgiven : Given o as (b :: ys)) (hs : sc.Holds (a :: levels) es)
    (n : ℕ) :
    ∃ names' o' sc' es', names'.Alternates y x ∧ Given o' as (ys ++ [b]) ∧
      sc'.Holds (a :: levels) es' ∧
      ((∀ e ∈ es a, e.2.key ≠ x) → ScopeStack.Binds es' x a b) ∧
      ScopeStack.SameFor (· ≠ x) (a :: levels) es es' ∧
      Component.bindParameters this (n + 1) names (w.moved this f o (some sc)) =
        Component.bindParameters this n names' (w.moved this f o' (some sc')) := by
  obtain ⟨names', hget, hnames'⟩ := hnames.getNextElement
  obtain ⟨sc₁, sc', es', hdeclare, hstore, hs', hbinds, hsame, -⟩ := hs.bind x b
  obtain ⟨o', hgiven', hnext⟩ := returns_moved_nextParameter this w f (some sc₁) hgiven
  refine ⟨names', o', sc', es', hnames', hgiven', hs', hbinds, hsame, ?_⟩
  have hdeclared : Returns (Component.declareVariable this x) (w.moved this f o (some sc)) ()
      (w.moved this f o (some sc₁)) := returns_moved_onScopes (by rw [hdeclare]; rfl)
  have hname : Returns (follow (names.getNextElement)) (w.moved this f o (some sc))
      (some x, names') (w.moved this f o (some sc)) := returns_follow.2 ⟨hget, rfl⟩
  have hfollow : Returns (follow (some x)) (w.moved this f o (some sc)) x
      (w.moved this f o (some sc)) := returns_follow.2 ⟨rfl, rfl⟩
  rw [Component.bindParameters, hname.run_bind]
  show (follow (some x) >>= _) _ = _
  rw [hfollow.run_bind, hdeclared.run_bind, hnext.run_bind,
    (returns_moved_onScopes hstore).run_bind]

variable (this w f) in
/-- The loop ends, and binds no other names than the two. -/
theorem returns_bindParameters {names : IteratedList CString} {x y : CString}
    (hnames : names.Alternates x y) (hgiven : Given o as (ys ++ zs))
    (hs : sc.Holds (a :: levels) es) :
    ∃ o' sc' es', sc'.Holds (a :: levels) es' ∧
      ScopeStack.SameFor (fun k => k ≠ x ∧ k ≠ y) (a :: levels) es es' ∧
      Returns (Component.bindParameters this ys.length names) (w.moved this f o (some sc)) ()
        (w.moved this f o' (some sc')) := by
  induction ys generalizing o zs sc es names x y with
  | nil => exact ⟨o, sc, es, hs, ScopeStack.SameFor.refl, returns_pure.2 ⟨rfl, rfl⟩⟩
  | cons b ys ih =>
    obtain ⟨names', o₁, sc₁, es₁, hnames', hgiven₁, hs₁, -, hsame, hround⟩ :=
      bindParameters_succ this w f hnames hgiven hs ys.length
    have hgiven₁' : Given o₁ as (ys ++ (zs ++ [b])) := by
      rw [← List.append_assoc]
      exact hgiven₁
    obtain ⟨o', sc', es', hs', hsame', hrun⟩ := ih hnames' hgiven₁' hs₁
    refine ⟨o', sc', es', hs', fun c hc e he => ?_, ?_⟩
    · exact (hsame' c hc e ⟨he.2, he.1⟩).trans (hsame c hc e he.1)
    · unfold Returns
      rw [List.length_cons, hround]
      exact hrun

variable (this w f) in
/-- Up to two new names are bound to the parameters in order. -/
theorem returns_bindParameters_few {names : IteratedList CString} {ks : List CString}
    (hnames : names.Tailed ks) (hgiven : Given o as as) (hlength : ks.length = as.length)
    (hfew : as.length ≤ 2) (hdistinct : ks.Nodup) (hnew : ∀ k ∈ ks, ∀ e ∈ es a, e.2.key ≠ k)
    (hs : sc.Holds (a :: levels) es) :
    ∃ o' sc' es', sc'.Holds (a :: levels) es' ∧
      (∀ p ∈ ks.zip as, ScopeStack.Binds es' p.1 a p.2) ∧
      Returns (Component.bindParameters this as.length names) (w.moved this f o (some sc)) ()
        (w.moved this f o' (some sc')) := by
  match ks, as, hlength with
  | [], [], _ => exact ⟨o, sc, es, hs, by simp, returns_pure.2 ⟨rfl, rfl⟩⟩
  | [x], [b], _ =>
    obtain ⟨names', o', sc', es', -, -, hs', hbinds, -, hround⟩ :=
      bindParameters_succ this w f (hnames.alternates rfl rfl) hgiven hs 0
    refine ⟨o', sc', es', hs', ?_, hround.trans rfl⟩
    intro p hp
    obtain rfl := List.mem_singleton.1 hp
    exact hbinds (hnew x List.mem_cons_self)
  | [x, y], [b, c], _ =>
    obtain ⟨names₁, o₁, sc₁, es₁, hnames₁, hgiven₁, hs₁, hbinds₁, hsame₁, hround₁⟩ :=
      bindParameters_succ this w f (hnames.alternates rfl rfl) hgiven hs 1
    obtain ⟨names', o', sc', es', -, -, hs', hbinds, hsame, hround⟩ :=
      bindParameters_succ this w f hnames₁ hgiven₁ hs₁ 0
    have hne : y ≠ x := by
      rintro rfl
      simp at hdistinct
    refine ⟨o', sc', es', hs', ?_, hround₁.trans (hround.trans rfl)⟩
    intro p hp
    rcases List.mem_cons.1 hp with rfl | hp
    · exact hsame.binds hne.symm List.mem_cons_self (hbinds₁ (hnew x List.mem_cons_self))
    · obtain rfl := List.mem_singleton.1 hp
      refine hbinds fun e he hek => ?_
      have hold := (hsame₁ a List.mem_cons_self e (by rw [hek]; exact hne)).1 he
      exact hnew y (List.mem_cons_of_mem _ List.mem_cons_self) e hold hek
  | _ :: _ :: _ :: _, _ :: _ :: _ :: _, _ => simp at hfew

/-- A component in front of the parameters of its first constructor; the names of the constructors
that match are distinct and not declared in the current scope, whose level is `a`. -/
structure Awaits (this : ℕ) (w : World) (as : List ℕ) (τs : List UInt8) (d : Declaration)
    (ds : List Declaration) (a : ℕ) (levels : List ℕ) (es : ℕ → List (ListMap.Located ℕ)) : Prop where
  source : w.source this = d.file
  declared : Declared (w.component this).inProject (d :: ds)
  running : (w.component this).running = false
  types : List.Forall₂ w.HasType as τs
  scopes : ScopesAre (w.component this).scopeStack (a :: levels) es
  distinct : ∀ c ∈ d :: ds, c.types = τs → c.names.Nodup
  new : ∀ c ∈ d :: ds, c.types = τs → ∀ k ∈ c.names, ∀ e ∈ es a, e.2.key ≠ k

/-- The first constructor with the types of the parameters is chosen and its names are bound to
them; or there is none, and nothing is bound. -/
def Constructs (this : ℕ) (w : World) (as : List ℕ) (τs : List UInt8) (ds : List Declaration)
    (a : ℕ) (levels : List ℕ) : Prop :=
  match ds.find? fun d => d.types = τs with
  | some d => ∃ w' es', Returns (Component.constructor this) w () w' ∧
      (w'.component this).running = true ∧ w'.source this = d.body ∧
      ScopesAre (w'.component this).scopeStack (a :: levels) es' ∧
      ∀ p ∈ d.names.zip as, ScopeStack.Binds es' p.1 a p.2
  | none => ∃ w', Throws (Component.constructor this) w (.fatal "Constructor not found!") w' ∧
      (w'.component this).running = false ∧
      (w'.component this).scopeStack = (w.component this).scopeStack

theorem Declaration.length_names (c : Declaration) : c.names.length = c.types.length := by
  unfold Declaration.names Declaration.types
  rw [List.length_map, List.length_map]

variable (this w f) in
/-- The names are bound in order when there are up to two, and only two of them when there are
more. -/
theorem returns_bindParameters_names {c : Declaration} {names : IteratedList CString}
    (hnames : names.Tailed c.names) (hgiven : Given o as as) (hlength : c.names.length = as.length)
    (hs : sc.Holds (a :: levels) es) (hdistinct : c.types = τs → c.names.Nodup)
    (hnew : c.types = τs → ∀ k ∈ c.names, ∀ e ∈ es a, e.2.key ≠ k) :
    ∃ o' sc' es', sc'.Holds (a :: levels) es' ∧
      (c.types = τs → as.length ≤ 2 → ∀ p ∈ c.names.zip as, ScopeStack.Binds es' p.1 a p.2) ∧
      (2 < as.length → ∃ x y, c.names.head? = some x ∧ c.names.getLast? = some y ∧
        ScopeStack.SameFor (fun k => k ≠ x ∧ k ≠ y) (a :: levels) es es') ∧
      Returns (Component.bindParameters this as.length names) (w.moved this f o (some sc)) ()
        (w.moved this f o' (some sc')) := by
  by_cases hfew : as.length ≤ 2 ∧ c.types = τs
  · obtain ⟨o', sc', es', hs', hbinds, hrun⟩ := returns_bindParameters_few this w f hnames hgiven
      hlength hfew.1 (hdistinct hfew.2) (hnew hfew.2) hs
    exact ⟨o', sc', es', hs', fun _ _ => hbinds, fun h => by omega, hrun⟩
  · cases has : as with
    | nil =>
      subst has
      exact ⟨o, sc, es, hs, by simp, by simp, returns_pure.2 ⟨rfl, rfl⟩⟩
    | cons b bs =>
      rw [← has]
      have hne : c.names ≠ [] := by
        rintro hnil
        rw [hnil, has] at hlength
        cases hlength
      have hhead := List.head?_eq_some_head hne
      have hlast := List.getLast?_eq_some_getLast hne
      have hturned : Given o as (as ++ []) := by rwa [List.append_nil]
      obtain ⟨o', sc', es', hs', hsame, hrun⟩ :=
        returns_bindParameters this w f (hnames.alternates hhead hlast) hturned hs
      exact ⟨o', sc', es', hs', fun htypes hle => absurd ⟨hle, htypes⟩ hfew,
        fun _ => ⟨_, _, hhead, hlast, hsame⟩, hrun⟩

variable (this w f) in
/-- A constructor that is chosen makes the component run. -/
theorem returns_runConstructor {c : Declaration} {names : IteratedList CString}
    (hnames : names.Tailed c.names) (hgiven : Given o as zs) (hlength : c.names.length = as.length)
    (hs : sc.Holds (a :: levels) es) (hdistinct : c.types = τs → c.names.Nodup)
    (hnew : c.types = τs → ∀ k ∈ c.names, ∀ e ∈ es a, e.2.key ≠ k) :
    ∃ w' es', Returns (Component.runConstructor this c.parameters.items.length names)
        (w.moved this f o (some sc)) () w' ∧
      (w'.component this).running = true ∧ w'.source this = f ∧
      ScopesAre (w'.component this).scopeStack (a :: levels) es' ∧
      (c.types = τs → as.length ≤ 2 → ∀ p ∈ c.names.zip as, ScopeStack.Binds es' p.1 a p.2) ∧
      (2 < as.length → ∃ x y, c.names.head? = some x ∧ c.names.getLast? = some y ∧
        ScopeStack.SameFor (fun k => k ≠ x ∧ k ≠ y) (a :: levels) es es') := by
  have hrewind : Returns (Component.rewindParameters this) (w.moved this f o (some sc)) ()
      (w.moved this f (o.map IteratedList.rewind) (some sc)) := returns_moved_modifySelf rfl
  obtain ⟨o', sc', es', hs', hfew, hmany, hbind⟩ :=
    returns_bindParameters_names this w f hnames hgiven.rewind hlength hs hdistinct hnew
  have hcount : c.parameters.items.length = as.length := by
    rw [← hlength, Declaration.names, List.length_map]
  have hrun : Returns (Component.runConstructor this c.parameters.items.length names)
      (w.moved this f o (some sc)) () ((w.moved this f o' (some sc')).setComponent this
        { (w.moved this f o' (some sc')).component this with
          parameters := none, running := true }) := by
    unfold Component.runConstructor
    rw [hcount, hnames.rewind]
    exact hrewind.bind (hbind.bind returns_modifySelf)
  refine ⟨_, es', hrun, ?_, ?_, ?_, hfew, hmany⟩
  · rw [World.setComponent_component]
  · rw [World.source_setComponent (by rfl), World.moved_source]
  · rw [World.setComponent_component, World.moved_component]
    exact hs'

theorem types_of_find {c : Declaration} (h : (ds.find? fun d => d.types = τs) = some c) :
    c.types = τs := by
  simpa using List.find?_some h

theorem chosen_mem {c : Declaration} (h : chosen τs σs ds = some c) : c ∈ ds := by
  cases ds with
  | nil => cases h
  | cons d ds =>
    rw [chosen] at h
    split_ifs at h with hd
    · obtain rfl := Option.some.inj h
      exact List.mem_cons_self
    · exact List.mem_cons_of_mem _ (List.mem_of_find?_eq_some h)

theorem length_of_chosen {c : Declaration} (h : chosen τs σs ds = some c)
    (hlength : σs.length = τs.length) : c.types.length = τs.length := by
  cases ds with
  | nil => cases h
  | cons d ds =>
    rw [chosen] at h
    split_ifs at h with hd
    · obtain rfl := Option.some.inj h
      rw [hd, hlength]
    · rw [types_of_find h]

/-- What the handler does with the constructor it chooses. -/
theorem Awaits.outcome (h : Awaits this w as τs d ds a levels es)
    (hgiven : Given (w.component this).parameters as ys) (hσs : List.Forall₂ w.HasType ys σs) :
    match chosen τs σs (d :: ds) with
    | some c => ∃ w' es', Returns (Component.constructor this) w () w' ∧
        (w'.component this).running = true ∧ w'.source this = c.body ∧
        ScopesAre (w'.component this).scopeStack (a :: levels) es' ∧
        (c.types = τs → as.length ≤ 2 → ∀ p ∈ c.names.zip as, ScopeStack.Binds es' p.1 a p.2) ∧
        (2 < as.length → ∃ x y, c.names.head? = some x ∧ c.names.getLast? = some y ∧
          ScopeStack.SameFor (fun k => k ≠ x ∧ k ≠ y) (a :: levels) es es')
    | none => ∃ w', Throws (Component.constructor this) w (.fatal "Constructor not found!") w' ∧
        (w'.component this).running = false ∧
        (w'.component this).scopeStack = (w.component this).scopeStack := by
  obtain ⟨sc, hsc, hs⟩ :
      ∃ sc, (w.component this).scopeStack = some sc ∧ sc.Holds (a :: levels) es := by
    have hscopes := h.scopes
    cases hsc : (w.component this).scopeStack with
    | none =>
      rw [hsc] at hscopes
      cases hscopes
    | some sc =>
      rw [hsc] at hscopes
      exact ⟨sc, rfl, hscopes⟩
  have hself : w.moved this d.file (w.component this).parameters (some sc) = w := by
    rw [← h.source, ← hsc]
    exact World.moved_self
  -- every declaration takes a byte of the file, so there are rounds enough
  have hrounds : (d :: ds).length ≤ d.file.rounds := Nat.le_succ_of_le h.declared.length_le
  have hchosen := constructorWithin_chosen (s := some sc) h.declared h.running hgiven h.types hσs
    hrounds
  have hrun : Component.constructor this w = Component.constructorWithin this d.file.rounds w := by
    show Component.constructorWithin this (w.source this).rounds w = _
    rw [h.source]
  rw [hself, ← hrun] at hchosen
  cases hc : chosen τs σs (d :: ds) with
  | none =>
    rw [hc] at hchosen
    obtain ⟨o', g, hthrows⟩ := hchosen
    refine ⟨_, hrun.trans hthrows, ?_, ?_⟩
    · rw [World.moved_component]
      exact h.running
    · rw [World.moved_component, hsc]
  | some c =>
    rw [hc] at hchosen
    obtain ⟨o', xs, names, hgiven', hnames, heq⟩ := hchosen
    have hlength : c.names.length = as.length := by
      rw [c.length_names, h.types.length_eq]
      refine length_of_chosen hc ?_
      rw [← hσs.length_eq, hgiven.perm.length_eq, h.types.length_eq]
    obtain ⟨w', es', hreturns, hrest⟩ := returns_runConstructor this w c.body hnames hgiven' hlength
      hs (h.distinct c (chosen_mem hc)) (h.new c (chosen_mem hc))
    refine ⟨w', es', ?_, hrest⟩
    unfold Returns at hreturns ⊢
    rw [← hreturns, ← heq]

/-- The parameters in the order in which the first constructor is compared with them. -/
def lastFirst {α : Type} (xs : List α) : List α := xs.rotate (xs.length - 1)

theorem lastFirst_concat {α : Type} (xs : List α) (x : α) : lastFirst (xs ++ [x]) = x :: xs := by
  unfold lastFirst
  rw [List.length_append, List.length_singleton, Nat.add_sub_cancel]
  exact List.rotate_append_length_eq xs [x]

theorem forall₂_lastFirst {α β : Type} {R : α → β → Prop} {xs : List α} {ys : List β}
    (h : List.Forall₂ R xs ys) : List.Forall₂ R (lastFirst xs) (lastFirst ys) := by
  have hlength := h.length_eq
  unfold lastFirst
  rw [List.rotate_eq_drop_append_take (by omega), List.rotate_eq_drop_append_take (by omega), hlength]
  exact List.rel_append (List.forall₂_drop _ h) (List.forall₂_take _ h)

/-- The first constructor is not taken for another one only if its two comparisons agree. -/
theorem Awaits.first_iff (h : Awaits this w as τs d ds a levels es)
    (hgiven : Given (w.component this).parameters as ys) (hσs : List.Forall₂ w.HasType ys σs)
    (hconstructs : Constructs this w as τs (d :: ds) a levels) :
    d.types = σs ↔ d.types = τs := by
  have houtcome := h.outcome hgiven hσs
  have hlater := h.declared.body_lt
  rw [chosen] at houtcome
  unfold Constructs at hconstructs
  constructor
  · intro hd
    by_contra hne
    rw [if_pos hd] at houtcome
    obtain ⟨w', es', hreturns, -, hsource, -⟩ := houtcome
    rw [List.find?_cons_of_neg (by simpa using hne)] at hconstructs
    -- it is taken when it should not be: a later one, or none, should have been
    cases hfind : ds.find? fun d => d.types = τs with
    | none =>
      rw [hfind] at hconstructs
      obtain ⟨w'', hthrows, -⟩ := hconstructs
      exact hreturns.not_throws hthrows
    | some c =>
      rw [hfind] at hconstructs
      obtain ⟨w'', es'', hreturns', -, hsource', -⟩ := hconstructs
      obtain ⟨-, rfl⟩ := hreturns.unique hreturns'
      have hlt := hlater c (List.mem_of_find?_eq_some hfind)
      rw [← hsource, hsource'] at hlt
      exact Nat.lt_irrefl _ hlt
  · intro hd
    by_contra hne
    rw [if_neg hne] at houtcome
    rw [List.find?_cons_of_pos (by simpa using hd)] at hconstructs
    obtain ⟨w', es', hreturns, -, hsource, -⟩ := hconstructs
    -- it is passed when it should be taken: a later one, or none, is taken
    cases hfind : ds.find? fun d => d.types = τs with
    | none =>
      rw [hfind] at houtcome
      obtain ⟨w'', hthrows, -⟩ := houtcome
      exact hreturns.not_throws hthrows
    | some c =>
      rw [hfind] at houtcome
      obtain ⟨w'', es'', hreturns', -, hsource', -⟩ := houtcome
      obtain ⟨-, rfl⟩ := hreturns.unique hreturns'
      have hlt := hlater c (List.mem_of_find?_eq_some hfind)
      rw [← hsource, hsource'] at hlt
      exact Nat.lt_irrefl _ hlt

theorem chosen_eq_find (hfirst : d.types = σs ↔ d.types = τs) :
    chosen τs σs (d :: ds) = (d :: ds).find? fun d => d.types = τs := by
  rw [chosen, List.find?_cons]
  by_cases hd : d.types = τs
  · rw [if_pos (hfirst.2 hd)]
    simp [hd]
  · rw [if_neg fun h => hd (hfirst.1 h)]
    simp [hd]

/-- The second of three distinct names is neither the first nor the last. -/
theorem exists_second {α : Type} {ks : List α} (h : 2 < ks.length) (hdistinct : ks.Nodup) :
    ∃ k, ks[1]? = some k ∧ ks.head? ≠ some k ∧ ks.getLast? ≠ some k := by
  match ks, h with
  | x :: k :: y :: rest, _ =>
    refine ⟨k, rfl, ?_, ?_⟩
    · rw [List.head?_cons]
      rintro ⟨⟩
      simp at hdistinct
    · intro hlast
      have hmem : k ∈ y :: rest := by
        rw [List.getLast?_cons_cons, List.getLast?_cons_cons] at hlast
        exact List.mem_of_getLast? hlast
      have hk := (List.nodup_cons.1 (List.nodup_cons.1 hdistinct).2).1
      exact hk hmem

theorem Awaits.constructs_iff (h : Awaits this w as τs d ds a levels es)
    (hgiven : Given (w.component this).parameters as ys) (hσs : List.Forall₂ w.HasType ys σs) :
    Constructs this w as τs (d :: ds) a levels ↔
      (d.types = σs ↔ d.types = τs) ∧ (τs.length ≤ 2 ∨ ∀ c ∈ d :: ds, c.types ≠ τs) := by
  have houtcome := h.outcome hgiven hσs
  have hlength := h.types.length_eq
  constructor
  · intro hconstructs
    have hfirst := h.first_iff hgiven hσs hconstructs
    refine ⟨hfirst, ?_⟩
    by_contra hnot
    rw [not_or] at hnot
    obtain ⟨hmany, hexists⟩ := hnot
    unfold Constructs at hconstructs
    rw [chosen_eq_find hfirst] at houtcome
    cases hfind : (d :: ds).find? fun d => d.types = τs with
    | none => exact hexists fun c hc => by simpa using List.find?_eq_none.1 hfind c hc
    | some c =>
      rw [hfind] at houtcome hconstructs
      obtain ⟨w', es', hreturns, -, -, hscopes, -, htwo⟩ := houtcome
      obtain ⟨w'', es'', hreturns', -, -, hscopes', hbinds⟩ := hconstructs
      obtain ⟨-, rfl⟩ := hreturns.unique hreturns'
      obtain ⟨x, y, hx, hy, hsame⟩ := htwo (by omega)
      have htypes := types_of_find hfind
      have hmem := List.mem_of_find?_eq_some hfind
      have hnames : c.names.length = as.length := by
        rw [c.length_names, htypes, hlength]
      -- the second name is not bound
      obtain ⟨k, hk, hkx, hky⟩ := exists_second (by omega) (h.distinct c hmem htypes)
      obtain ⟨b, hb⟩ : ∃ b, as[1]? = some b := ⟨_, List.getElem?_eq_getElem (by omega)⟩
      have hpair : (k, b) ∈ c.names.zip as :=
        List.mem_of_getElem? (List.getElem?_zip_eq_some.2 ⟨hk, hb⟩)
      have hnone : ∀ e ∈ es' a, e.2.key ≠ k := by
        rintro e he rfl
        have hne : e.2.key ≠ x ∧ e.2.key ≠ y := by
          refine ⟨fun hex => hkx (hex ▸ hx), fun hey => hky (hey ▸ hy)⟩
        have hold := (hsame a List.mem_cons_self e hne).1 he
        exact h.new c hmem htypes _ (List.mem_of_getElem? hk) e hold rfl
      have hbound : ScopeStack.Binds es'' k a b := hbinds _ hpair
      cases hsc : (w'.component this).scopeStack with
      | none =>
        rw [hsc] at hscopes
        cases hscopes
      | some sc =>
        rw [hsc] at hscopes hscopes'
        exact ScopeStack.Holds.not_binds hscopes hscopes' List.mem_cons_self hnone hbound
  · rintro ⟨hfirst, hfew⟩
    rw [chosen_eq_find hfirst] at houtcome
    unfold Constructs
    cases hfind : (d :: ds).find? fun d => d.types = τs with
    | none =>
      rw [hfind] at houtcome
      exact houtcome
    | some c =>
      rw [hfind] at houtcome
      obtain ⟨w', es', hreturns, hrunning, hsource, hscopes, hbinds, -⟩ := houtcome
      have htypes := types_of_find hfind
      refine ⟨w', es', hreturns, hrunning, hsource, hscopes, hbinds htypes ?_⟩
      rcases hfew with hle | hnone
      · omega
      · exact absurd htypes (hnone c (List.mem_of_find?_eq_some hfind))

/-! ### Calling a component -/

variable (this) in
theorem returns_popParameters {xs : List (Option ℕ)} {l : IteratedList ℕ}
    (hstack : (w.component this).dataStack.Holds (as.reverse.map some ++ xs)) :
    ∃ st, Returns (Component.popParameters this as.length l) w (l.insertElements as)
      (w.setComponent this { w.component this with dataStack := st }) := by
  induction as using List.reverseRecOn generalizing w l with
  | nil =>
    refine ⟨(w.component this).dataStack, returns_pure.2 ⟨rfl, ?_⟩⟩
    simp [World.setComponent]
  | append_singleton as b ih =>
    rw [List.reverse_append] at hstack
    obtain ⟨st, hpop, hst⟩ := Stack.Holds.pop_cons hstack
    have hst' : ((w.setComponent this { w.component this with dataStack := st }).component
        this).dataStack.Holds (as.reverse.map some ++ xs) := by
      rw [World.setComponent_component]
      exact hst
    obtain ⟨st', hrun⟩ := ih (l := l.insertElement (some b)) hst'
    rw [World.setComponent_component, World.setComponent_setComponent] at hrun
    refine ⟨st', ?_⟩
    have hinsert : l.insertElements (as ++ [b]) = (l.insertElement (some b)).insertElements as := by
      unfold IteratedList.insertElements
      rw [List.foldr_append]
      rfl
    rw [hinsert, List.length_append, List.length_singleton]
    exact (returns_popData.2 ⟨st, hpop, rfl⟩).bind hrun

/-- What a call leaves to the component that it starts. -/
structure Started (w u : World) (child : ℕ) (contents : List UInt8) : Prop where
  source : u.source child = ⟨contents, 0⟩
  running : (u.component child).running = false
  cells : ∀ q c, w.cell q = some c → u.cell q = some c

/-- The list of the parameters, with its cursor at the last one. -/
theorem returns_paramsList {n : UInt8} {xs : List (Option ℕ)} (hlength : as.length = n.toNat)
    (hstack : (w.component this).dataStack.Holds (as.reverse.map some ++ xs)) :
    ∃ o st, Given o as (lastFirst as) ∧ Returns (Component.paramsList this (some n)) w o
      (w.setComponent this { w.component this with dataStack := st }) := by
  have hcounted : counted (some n) = as.length := hlength.symm
  unfold Component.paramsList
  rw [hcounted]
  rcases List.eq_nil_or_concat as with rfl | ⟨bs, b, rfl⟩
  · refine ⟨none, (w.component this).dataStack, ⟨rfl, rfl⟩, ?_⟩
    rw [if_pos List.length_nil]
    exact returns_pure.2 ⟨rfl, by simp [World.setComponent]⟩
  · rw [List.concat_eq_append] at hstack ⊢
    obtain ⟨st, hrun⟩ := returns_popParameters this (l := IteratedList.constructList) hstack
    refine ⟨some (IteratedList.constructList.insertElements (bs ++ [b])), st, ?_, ?_⟩
    · rw [lastFirst_concat]
      exact IteratedList.turned_insertElements bs b
    · rw [if_neg (by simp)]
      exact returns_map.2 ⟨_, hrun, rfl⟩

theorem returns_newComponent (name : CString) {path : CString} {contents : List UInt8}
    (hdisk : w.disk path = some contents) :
    ∃ u, Returns (Component.newComponent name path o) w w.components u ∧
      Started w u w.components contents ∧ (u.component w.components).parameters = o ∧
      u.cell = w.cell ∧ u.fresh = w.fresh := by
  have hopen : Returns (fopen path) w (some w.handles)
      { w with file := Function.update w.file w.handles ⟨contents, 0⟩, handles := w.handles + 1 } := by
    unfold fopen
    rw [returns_get_bind, hdisk]
    rfl
  refine ⟨_, hopen.bind (returns_get_bind.2 (returns_set_bind.2 (returns_pure.2 ⟨rfl, rfl⟩))),
    ⟨?_, ?_, fun q c h => h⟩, ?_, rfl, rfl⟩
  · show Function.update w.file w.handles _
      (Function.update w.component w.components _ w.components).sourceFile = _
    rw [Function.update_self]
    exact Function.update_self ..
  · show (Function.update w.component w.components _ w.components).running = false
    rw [Function.update_self]
  · show (Function.update w.component w.components _ w.components).parameters = o
    rw [Function.update_self]

variable (this w) in
/-- What the caller does once the component is there. -/
theorem returns_recorded {child : ℕ} (hne : child ≠ this) :
    ∃ u, Returns (do
        modify fun w => { w with started := child :: w.started }
        let pointer ← alloc (.component child)
        let newObject ← construct typeComponent (some pointer)
        pushData this (some newObject)
        modifySelf this fun c => { c with
          waitComponents := some ((c.waitComponents.getD Stack.constructor).push (some newObject)) }
        return child) w child u ∧
      u.component child = w.component child ∧ u.file = w.file ∧
      ∀ q < w.fresh, u.cell q = w.cell q := by
  refine ⟨_, returns_modify.bind (returns_boxed.2 (returns_pushData.bind (returns_modifySelf.bind
    (returns_pure.2 ⟨rfl, rfl⟩)))), ?_, rfl, fun q hq => ?_⟩
  · show Function.update (Function.update w.component this _) this _ child = _
    rw [Function.update_of_ne hne, Function.update_of_ne hne]
  · exact World.boxed_old (w := { w with started := child :: w.started }) hq

/-- A call starts a component whose parameters are turned to the last one. -/
theorem returns_call {name : Name} {n : UInt8} {r : List UInt8} {xs : List (Option ℕ)}
    {contents : List UInt8} (hw : Settled this w)
    (hrest : (w.source this).rest = (Instruction.call name n).operands ++ r)
    (hlength : as.length = n.toNat)
    (hstack : (w.component this).dataStack.Holds (as.reverse.map some ++ xs))
    (hdisk : w.disk (getFilePath w.directory (getSourceFile (literal name.bytes))) = some contents) :
    ∃ u, Returns (Component.call this) w w.components u ∧ Started w u w.components contents ∧
      Given (u.component w.components).parameters as (lastFirst as) := by
  have hrest' : (w.source this).rest = name.encode ++ (n :: r) := by
    rw [hrest]
    exact List.append_assoc ..
  obtain ⟨v, hv⟩ : ∃ v, v = w.setSource this ((w.source this).advance name.encode.length) := ⟨_, rfl⟩
  obtain ⟨x, hx⟩ : ∃ x, x = v.setSource this ((v.source this).advance 1) := ⟨_, rfl⟩
  have hname : Returns (onSource this readString) w (literal name.bytes) v :=
    returns_onSource.2 ⟨_, reads_name name _ _ hrest', hv⟩
  have hbyte : (v.source this).rest = n :: r := by
    rw [hv, World.source_setSource]
    exact File.rest_advance hrest'
  have hcount : Returns (onSource this fgetc) v (some n) x :=
    returns_onSource.2 ⟨_, returns_fgetc_cons hbyte, hx⟩
  have hstack' : (x.component this).dataStack.Holds (as.reverse.map some ++ xs) := by
    rw [hx, hv]
    exact hstack
  obtain ⟨o, st, hgiven, hparams⟩ := returns_paramsList hlength hstack'
  obtain ⟨y, hy⟩ : ∃ y, y = x.setComponent this { x.component this with dataStack := st } := ⟨_, rfl⟩
  rw [← hy] at hparams
  -- decoding and popping change neither the disk nor the heap
  have hfiles : y.disk = w.disk ∧ y.directory = w.directory ∧ y.components = w.components ∧
      y.cell = w.cell ∧ y.fresh = w.fresh := by
    rw [hy, hx, hv]
    exact ⟨rfl, rfl, rfl, rfl, rfl⟩
  obtain ⟨hdisk', hdirectory, hcomponents, hold, hend⟩ := hfiles
  rw [← hdisk', ← hdirectory] at hdisk
  obtain ⟨u, hnew, hstarted, hparameters, hcell, hfresh⟩ :=
    returns_newComponent (o := o) (literal name.bytes) hdisk
  rw [hcomponents] at hnew hstarted hparameters
  obtain ⟨u', hrecorded, hcomponent, hfile, hcells⟩ :=
    returns_recorded this u (Nat.ne_of_gt hw.component)
  refine ⟨u', hname.bind (hcount.bind (hparams.bind (returns_get_bind.2 (hnew.bind hrecorded)))),
    ⟨?_, ?_, fun q c hq => ?_⟩, ?_⟩
  · unfold World.source
    rw [hcomponent, hfile]
    exact hstarted.source
  · rw [hcomponent]
    exact hstarted.running
  · have hlt : q < u.fresh := by
      rw [hfresh, hend]
      by_contra hle
      rw [hw.cells q (Nat.not_lt.1 hle)] at hq
      cases hq
    rw [hcells q hlt, hcell, hold]
    exact hq
  · rw [hcomponent, hparameters]
    exact hgiven

/-- **A constructor is chosen and its names are bound as its types say if and only if the first
constructor matches the parameters turned by one exactly when it matches them, and there are no more
than two parameters or no constructor matches.** -/
theorem call_constructs_iff {name : Name} {n : UInt8} {r : List UInt8} {xs : List (Option ℕ)}
    {contents : List UInt8} (hw : Settled this w)
    (hrest : (w.source this).rest = (Instruction.call name n).operands ++ r)
    (hlength : as.length = n.toNat)
    (hstack : (w.component this).dataStack.Holds (as.reverse.map some ++ xs))
    (hdisk : w.disk (getFilePath w.directory (getSourceFile (literal name.bytes))) = some contents) :
    ∃ u, Returns (Component.call this) w w.components u ∧ Started w u w.components contents ∧
      ∀ (v : World) (τs : List UInt8) (d : Declaration) (ds : List Declaration) (a : ℕ)
        (levels : List ℕ) (es : ℕ → List (ListMap.Located ℕ)),
        (v.component w.components).parameters = (u.component w.components).parameters →
        Awaits w.components v as τs d ds a levels es →
        (Constructs w.components v as τs (d :: ds) a levels ↔
          (d.types = lastFirst τs ↔ d.types = τs) ∧
            (τs.length ≤ 2 ∨ ∀ c ∈ d :: ds, c.types ≠ τs)) := by
  obtain ⟨u, hcall, hstarted, hgiven⟩ := returns_call hw hrest hlength hstack hdisk
  refine ⟨u, hcall, hstarted, fun v τs d ds a levels es hparameters hawaits => ?_⟩
  rw [← hparameters] at hgiven
  exact hawaits.constructs_iff hgiven (forall₂_lastFirst hawaits.types)

/-! ### One call -/

def componentA : Name := ⟨[65], by decide⟩

def fieldX (type : UInt8) : Field := ⟨type, ⟨[120], nulFree_x⟩⟩

def fieldY (type : UInt8) : Field := ⟨type, ⟨[121], nulFree_y⟩⟩

/-- A machine in front of a call of a component whose source is the one constructor; a truth value
and an integer are at `2` and `3`. -/
def inFrontOfComponent (parameters : Counted Field) (dataStack : Stack ℕ) : World :=
  { World.atCode (Instruction.call componentA (UInt8.ofNat parameters.items.length)).operands
      (some (ScopeStack.enterScope none)) dataStack
      [boolCell true, .bytes [1, 0, 0, 0], .typed typeBool (some 0), .typed typeInteger (some 1)] with
    disk := fun _ => some (parameters.encode Field.encode) }

theorem inFrontOfComponent_settled (parameters : Counted Field) (dataStack : Stack ℕ) :
    Settled 0 (inFrontOfComponent parameters dataStack) := by
  have hw : Settled 0 (World.atCode
      (Instruction.call componentA (UInt8.ofNat parameters.items.length)).operands
      (some (ScopeStack.enterScope none)) dataStack [boolCell true, .bytes [1, 0, 0, 0],
        .typed typeBool (some 0), .typed typeInteger (some 1)]) := by
    refine settled_atCode fun c hc => ?_
    simp only [List.mem_cons, List.not_mem_nil, or_false] at hc
    rcases hc with rfl | rfl | rfl | rfl
    · exact fun h => h
    · exact fun h => h
    · exact fun h => h
    · exact fun h => h
  exact ⟨hw.component, hw.sourceFile, hw.files, hw.cells⟩

theorem inFrontOfComponent_rest (parameters : Counted Field) (dataStack : Stack ℕ) :
    ((inFrontOfComponent parameters dataStack).source 0).rest =
      (Instruction.call componentA (UInt8.ofNat parameters.items.length)).operands ++ [] :=
  (List.append_nil _).symm

/-- The component that was called has entered a scope. -/
theorem Started.awaits {parameters : Counted Field} {dataStack : Stack ℕ}
    (h : Started (inFrontOfComponent parameters dataStack) u 1 (parameters.encode Field.encode))
    (htypes : List.Forall₂ (inFrontOfComponent parameters dataStack).HasType as τs)
    (hdistinct : (parameters.items.map fun field => literal field.name.bytes).Nodup) :
    Awaits 1 (u.setComponent 1 { u.component 1 with
      scopeStack := some (ScopeStack.enterScope none) }) as τs
      ⟨⟨parameters.encode Field.encode, 0⟩, parameters⟩ [] 0 [] fun _ => [] where
  source := by
    rw [World.source_setComponent (by rfl)]
    exact h.source
  declared := by
    refine .last (g := ⟨parameters.encode Field.encode, (parameters.encode Field.encode).length⟩)
      ⟨[], (List.append_nil _).symm⟩ ?_
    have hend :
        (⟨parameters.encode Field.encode, (parameters.encode Field.encode).length⟩ : File).rest = [] :=
      List.drop_length
    have hbody : Declaration.body ⟨⟨parameters.encode Field.encode, 0⟩, parameters⟩ =
        ⟨parameters.encode Field.encode, (parameters.encode Field.encode).length⟩ := by
      unfold Declaration.body File.advance
      rw [Nat.zero_add]
    rw [hbody]
    unfold skipToNext
    rw [returns_get_bind]
    refine (returns_fgetc_nil hend).bind (Returns.iterate_inr ?_)
    exact returns_pure.2 ⟨rfl, rfl⟩
  running := by
    rw [World.setComponent_component]
    exact h.running
  types := htypes.imp fun _ _ ⟨object, hcell⟩ => ⟨object, h.cells _ _ hcell⟩
  scopes := by
    rw [World.setComponent_component]
    exact ScopeStack.enterScope_null
  distinct := by
    intro c hc _
    obtain rfl := List.mem_singleton.1 hc
    exact hdistinct
  new := by simp

/-- A truth value, for a constructor that has one. -/
theorem call_constructs_iff_bool :
    ∃ u, Returns (Component.call 0) (inFrontOfComponent ⟨[fieldX typeBool], by decide⟩
      (Stack.constructor.push (some 2))) 1 u ∧
      Constructs 1 (u.setComponent 1 { u.component 1 with
        scopeStack := some (ScopeStack.enterScope none) }) [2] [typeBool]
        [⟨⟨Counted.encode Field.encode ⟨[fieldX typeBool], by decide⟩, 0⟩,
          ⟨[fieldX typeBool], by decide⟩⟩] 0 [] := by
  have htypes : List.Forall₂ (inFrontOfComponent ⟨[fieldX typeBool], by decide⟩
      (Stack.constructor.push (some 2))).HasType [2] [typeBool] :=
    .cons ⟨some 0, rfl⟩ .nil
  have hrest := inFrontOfComponent_rest ⟨[fieldX typeBool], by decide⟩
    (Stack.constructor.push (some 2))
  have hstack : (Stack.constructor.push (some 2)).Holds ([2].reverse.map some ++ []) :=
    Stack.constructor_holds.push (some 2)
  obtain ⟨u, hcall, hstarted, hconstructs⟩ :=
    call_constructs_iff (inFrontOfComponent_settled _ _) hrest (by decide) hstack rfl
  refine ⟨u, hcall, (hconstructs _ _ _ _ _ _ _ ?_ (hstarted.awaits htypes (by simp))).2 ⟨?_, ?_⟩⟩
  · show ((World.setComponent u 1 _).component 1).parameters = (u.component 1).parameters
    rw [World.setComponent_component]
  · decide
  · exact .inl (by decide)

/-- A truth value and an integer, for a constructor that has these two: it is not found. -/
theorem matching_constructor_not_found :
    ∃ u, Returns (Component.call 0) (inFrontOfComponent
      ⟨[fieldX typeBool, fieldY typeInteger], by decide⟩
      ((Stack.constructor.push (some 2)).push (some 3))) 1 u ∧
      ¬ Constructs 1 (u.setComponent 1 { u.component 1 with
        scopeStack := some (ScopeStack.enterScope none) }) [2, 3] [typeBool, typeInteger]
        [⟨⟨Counted.encode Field.encode ⟨[fieldX typeBool, fieldY typeInteger], by decide⟩, 0⟩,
          ⟨[fieldX typeBool, fieldY typeInteger], by decide⟩⟩] 0 [] := by
  have htypes : List.Forall₂ (inFrontOfComponent
      ⟨[fieldX typeBool, fieldY typeInteger], by decide⟩
      ((Stack.constructor.push (some 2)).push (some 3))).HasType [2, 3] [typeBool, typeInteger] :=
    .cons ⟨some 0, rfl⟩ (.cons ⟨some 1, rfl⟩ .nil)
  have hrest := inFrontOfComponent_rest ⟨[fieldX typeBool, fieldY typeInteger], by decide⟩
    ((Stack.constructor.push (some 2)).push (some 3))
  have hstack : ((Stack.constructor.push (some 2)).push (some 3)).Holds
      ([2, 3].reverse.map some ++ []) :=
    (Stack.constructor_holds.push (some 2)).push (some 3)
  obtain ⟨u, hcall, hstarted, hgiven⟩ :=
    returns_call (inFrontOfComponent_settled _ _) hrest (by decide) hstack rfl
  have hawaits := hstarted.awaits htypes (by decide)
  have hgiven' : Given ((u.setComponent 1 { u.component 1 with
      scopeStack := some (ScopeStack.enterScope none) }).component 1).parameters [2, 3]
      (lastFirst [2, 3]) := by
    rw [World.setComponent_component]
    exact hgiven
  refine ⟨u, hcall, fun hconstructs => ?_⟩
  have hfirst := hawaits.first_iff hgiven' (forall₂_lastFirst hawaits.types) hconstructs
  exact absurd hfirst (by decide)

end InsenseCVM
