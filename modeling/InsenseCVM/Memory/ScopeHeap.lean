import InsenseCVM.Memory.CountedScopes

/-!
# The heap of a scope stack

`Shape` says what the objects of a scope stack look like between two calls: a node and a level have
a count of 1, an entry one of 2 while it is in its level and of 1 later, and values point to values
only. One lemma for each thing that is done to the heap.
-/

namespace InsenseCVM

namespace GC

open RefHeap

variable {V : Type} [DecidableEq V]

namespace CountedScopes

/-! ### The shape of the heap -/

def IsValue : ScopePiece V → Prop
  | .value _ => True
  | _ => False

/-- An entry of a map whose value, if any, is one of the values. -/
def IsEntry (o : Object (ScopePiece V)) : Prop :=
  ∃ key value, o = .listMapEntry key value ∧ ∀ x ∈ value, IsValue x

structure Shape (allocated : ℕ × ℕ → Prop) (heap : ScopeHeap V) : Prop where
  leaked : Leaked (scopeEntries V) IsEntry allocated heap
  values : ClosedIn heap IsValue
  level : ∀ a c, heap.lookup (.level a) = some c → c.refCount = 1 ∧
    ∃ nodes, c.object = .iteratedList nodes ∧ ∀ x ∈ nodes, ∃ e, x = .node a e
  scopeNode : ∀ a c, heap.lookup (.scopeNode a) = some c →
    c = ⟨1, .iteratedListNode (some (.level a))⟩

variable {n m : ℕ} {allocated : ℕ × ℕ → Prop} {heap heap' : ScopeHeap V} {a e : ℕ}
  {x : ScopePiece V}

theorem closedIn_values_of_same (h : ClosedIn heap (IsValue (V := V)))
    (hsame : ∀ v, heap'.lookup (.value v) = heap.lookup (.value v)) : ClosedIn heap' IsValue := by
  intro y x hy hx
  cases y with
  | value v =>
    rw [pointers_congr (congrArg (Option.map Allocation.object) (hsame v))] at hx
    exact h _ x hy hx
  | _ => cases hy

/-- The nodes of a level's list are released, and their entries stay. -/
theorem leaked_foldlM (h : Leaked (scopeEntries V) IsEntry allocated heap)
    {nodes : List (ScopePiece V)} (hnodes : ∀ x ∈ nodes, ∃ e, x = .node a e)
    (hrun : (nodes.map some).foldlM (decRef m) heap = .ok heap') :
    Leaked (scopeEntries V) IsEntry allocated heap' ∧
      ∀ x, (∀ e, x ≠ .node a e) → (∀ e, x ≠ .entry a e) → heap'.lookup x = heap.lookup x := by
  induction nodes generalizing heap with
  | nil =>
    cases hrun
    exact ⟨h, fun _ _ _ => rfl⟩
  | cons y nodes ih =>
    obtain ⟨e, rfl⟩ := hnodes y List.mem_cons_self
    obtain ⟨heap₁, hfirst, hrest⟩ := bind_ok hrun
    obtain ⟨hleaked, hsame⟩ := Leaked.remove (P := scopeEntries V) (i := (a, e)) h hfirst
    obtain ⟨hleaked', hsame'⟩ := ih hleaked (fun x hx => hnodes x (List.mem_cons_of_mem _ hx)) hrest
    exact ⟨hleaked', fun x hx hx' => (hsame' x hx hx').trans (hsame x (hx e) (hx' e))⟩

/-- A level is left. -/
theorem Shape.exit (h : Shape allocated heap)
    (hrun : decRef n heap (some (.scopeNode a)) = .ok heap') :
    Shape allocated heap' ∧ ∀ v, heap'.lookup (.value v) = heap.lookup (.value v) := by
  obtain ⟨c, hc⟩ := exists_of_decRef_ok hrun
  obtain rfl := h.scopeNode a c hc
  obtain ⟨m, heap₃, hfinalise, hfree⟩ := decRef_last hrun hc rfl
  obtain ⟨heap₂, hlevel, hnil⟩ := bind_ok hfinalise
  cases hnil
  -- the level has no other reference
  obtain ⟨c, hc'⟩ := exists_of_decRef_ok hlevel
  have hc₀ := hc'
  rw [Finmap.lookup_insert_of_ne _ (by simp)] at hc₀
  obtain ⟨hcount, nodes, hobject, hnodes⟩ := h.level a c hc₀
  obtain ⟨count, object⟩ := c
  cases hcount
  cases hobject
  obtain ⟨m, heap₁, hfold, hfree'⟩ := decRef_last hlevel hc' rfl
  have hsame₀ : ∀ x, x ≠ .scopeNode a → x ≠ .level a →
      ((heap.insert (.scopeNode a) ⟨0, .iteratedListNode (some (.level a))⟩).insert (.level a)
        ⟨0, .iteratedList nodes⟩).lookup x = heap.lookup x := by
    intro x hx hx'
    rw [Finmap.lookup_insert_of_ne _ hx', Finmap.lookup_insert_of_ne _ hx]
  have hleaked₀ := h.leaked.congr
    (fun i => hsame₀ _ (by simp [scopeEntries]) (by simp [scopeEntries]))
    (fun i => hsame₀ _ (by simp [scopeEntries]) (by simp [scopeEntries]))
  obtain ⟨hleaked₁, hsame₁⟩ := leaked_foldlM hleaked₀ hnodes hfold
  have hlevel₁ : heap₁.lookup (.level a) = some ⟨0, .iteratedList nodes⟩ := by
    rw [hsame₁ _ (by simp) (by simp), Finmap.lookup_insert]
  obtain rfl := free_ok hfree' hlevel₁
  have hnode₁ : (heap₁.erase (.level a)).lookup (.scopeNode a) =
      some ⟨0, .iteratedListNode (some (.level a))⟩ := by
    rw [Finmap.lookup_erase_ne (by simp), hsame₁ _ (by simp) (by simp),
      Finmap.lookup_insert_of_ne _ (by simp), Finmap.lookup_insert]
  obtain rfl := free_ok hfree hnode₁
  have hsame₂ : ∀ x, x ≠ .scopeNode a → x ≠ .level a →
      ((heap₁.erase (.level a)).erase (.scopeNode a)).lookup x = heap₁.lookup x := by
    intro x hx hx'
    rw [Finmap.lookup_erase_ne hx, Finmap.lookup_erase_ne hx']
  have hvalues : ∀ v, ((heap₁.erase (.level a)).erase (.scopeNode a)).lookup (.value v) =
      heap.lookup (.value v) := by
    intro v
    rw [hsame₂ _ (by simp) (by simp), hsame₁ _ (by simp) (by simp), hsame₀ _ (by simp) (by simp)]
  refine ⟨⟨hleaked₁.congr (fun i => hsame₂ _ (by simp [scopeEntries]) (by simp [scopeEntries]))
    (fun i => hsame₂ _ (by simp [scopeEntries]) (by simp [scopeEntries])),
    closedIn_values_of_same h.values hvalues, fun b c hc => ?_, fun b c hc => ?_⟩, hvalues⟩
  · by_cases hb : b = a
    · subst hb
      rw [Finmap.lookup_erase_ne (by simp), Finmap.lookup_erase] at hc
      cases hc
    · rw [hsame₂ _ (by simp) (by simpa using hb), hsame₁ _ (by simp) (by simp),
        hsame₀ _ (by simp) (by simpa using hb)] at hc
      exact h.level b c hc
  · by_cases hb : b = a
    · subst hb
      rw [Finmap.lookup_erase] at hc
      cases hc
    · rw [hsame₂ _ (by simpa using hb) (by simp), hsame₁ _ (by simp) (by simp),
        hsame₀ _ (by simpa using hb) (by simp)] at hc
      exact h.scopeNode b c hc

/-- A level is entered. -/
theorem Shape.enter (h : Shape allocated heap) {heap₁ : ScopeHeap V}
    (hinsert : insertNode n (heap.insert (.level a) ⟨1, .iteratedList []⟩) (.scopeNode a)
      (.level a) = .ok heap₁) (hdecRef : decRef n heap₁ (some (.level a)) = .ok heap') :
    Shape allocated heap' ∧ ∀ v, heap'.lookup (.value v) = heap.lookup (.value v) := by
  obtain ⟨c, hc, hnode, hlevel, hrest⟩ := insertNode_ok (by simp) hinsert
  rw [Finmap.lookup_insert] at hc
  cases hc
  obtain rfl := decRef_kept hdecRef hlevel (by simp)
  have hsame : ∀ x, x ≠ .scopeNode a → x ≠ .level a →
      (heap₁.insert (.level a) ⟨1, .iteratedList []⟩).lookup x = heap.lookup x := by
    intro x hx hx'
    rw [Finmap.lookup_insert_of_ne _ hx', hrest x hx hx', Finmap.lookup_insert_of_ne _ hx']
  have hvalues := fun v : V => hsame (.value v) (by simp) (by simp)
  refine ⟨⟨h.leaked.congr (fun i => hsame _ (by simp [scopeEntries]) (by simp [scopeEntries]))
    (fun i => hsame _ (by simp [scopeEntries]) (by simp [scopeEntries])),
    closedIn_values_of_same h.values hvalues, fun b c hc => ?_, fun b c hc => ?_⟩, hvalues⟩
  · by_cases hb : b = a
    · subst hb
      rw [Finmap.lookup_insert] at hc
      cases hc
      exact ⟨rfl, [], rfl, fun x hx => by cases hx⟩
    · have hc' := (hsame (.level b) (by simp) (by simpa using hb)).symm.trans hc
      exact h.level b c hc'
  · by_cases hb : b = a
    · subst hb
      have hc' := (Finmap.lookup_insert_of_ne heap₁ (by simp)).symm.trans hc
      rw [hnode] at hc'
      cases hc'
      rfl
    · have hc' := (hsame (.scopeNode b) (by simpa using hb) (by simp)).symm.trans hc
      exact h.scopeNode b c hc'

omit [DecidableEq V] in
theorem isEntry_key (a e : ℕ) :
    IsEntry (.listMapEntry (some (.key a e)) none : Object (ScopePiece V)) :=
  ⟨_, _, rfl, fun _ hx => absurd hx (Option.not_mem_none _)⟩

theorem linkNode_ok {l node : ScopePiece V} (h : linkNode heap l node = .ok heap') :
    ∃ count nodes, heap.lookup l = some ⟨count, .iteratedList nodes⟩ ∧
      heap' = heap.insert l ⟨count, .iteratedList (node :: nodes)⟩ := by
  unfold linkNode at h
  split at h
  case h_1 count nodes hl =>
    cases h
    exact ⟨count, nodes, hl, rfl⟩
  case h_2 => cases h

/-- An entry is declared. -/
theorem Shape.insertEntry (h : Shape allocated heap) (hnew : ¬ allocated (a, e))
    (hrun : insertEntry n heap a e = .ok heap') :
    Shape (fun i => i = (a, e) ∨ allocated i) heap' ∧
      ∀ v, heap'.lookup (.value v) = heap.lookup (.value v) := by
  obtain ⟨heap₁, hinsert, hlink⟩ := bind_ok hrun
  obtain ⟨c, hc, hnode, hentry, hrest⟩ := insertNode_ok (by simp) hinsert
  rw [Finmap.lookup_insert] at hc
  cases hc
  obtain ⟨count, nodes, hlevel, rfl⟩ := linkNode_ok hlink
  have hsame : ∀ x, x ≠ .node a e → x ≠ .entry a e → x ≠ .key a e → x ≠ .level a →
      (heap₁.insert (.level a) ⟨count, .iteratedList (.node a e :: nodes)⟩).lookup x =
        heap.lookup x := by
    intro x hx hentry hkey hlevel
    rw [Finmap.lookup_insert_of_ne _ hlevel, hrest x hx hentry, Finmap.lookup_insert_of_ne _ hentry,
      Finmap.lookup_insert_of_ne _ hkey, Finmap.lookup_insert_of_ne _ hentry]
  have hvalues := fun v : V => hsame (.value v) (by simp) (by simp) (by simp) (by simp)
  refine ⟨⟨?_, closedIn_values_of_same h.values hvalues, fun b c hc => ?_, fun b c hc => ?_⟩,
    hvalues⟩
  · have hbehind : ∀ x, x ≠ .level a →
        (heap₁.insert (.level a) ⟨count, .iteratedList (.node a e :: nodes)⟩).lookup x =
          heap₁.lookup x := fun x hx => Finmap.lookup_insert_of_ne _ hx
    have hentry' := (hbehind (.entry a e) (by simp)).trans hentry
    have hnode' := (hbehind (.node a e) (by simp)).trans hnode
    refine Leaked.insert h.leaked hnew hentry' (isEntry_key a e) hnode'
      (fun j hj => ?_) fun j hj => ?_
    · exact hsame _ ((scopeEntries V).node_injective.ne hj) (by simp [scopeEntries])
        (by simp [scopeEntries]) (by simp [scopeEntries])
    · exact hsame _ (by simp [scopeEntries]) ((scopeEntries V).entry_injective.ne hj)
        (by simp [scopeEntries]) (by simp [scopeEntries])
  · by_cases hb : b = a
    · subst hb
      rw [Finmap.lookup_insert] at hc
      cases hc
      have hold : heap.lookup (.level b) = some ⟨count, .iteratedList nodes⟩ := by
        rw [← hlevel, hrest _ (by simp) (by simp), Finmap.lookup_insert_of_ne _ (by simp),
          Finmap.lookup_insert_of_ne _ (by simp), Finmap.lookup_insert_of_ne _ (by simp)]
      obtain ⟨hcount, nodes', hobject, hnodes⟩ := h.level b _ hold
      cases hobject
      refine ⟨hcount, _, rfl, fun x hx => ?_⟩
      rcases List.mem_cons.1 hx with rfl | hx
      · exact ⟨e, rfl⟩
      · exact hnodes x hx
    · rw [hsame _ (by simp) (by simp) (by simp) (by simpa using hb)] at hc
      exact h.level b c hc
  · rw [hsame _ (by simp) (by simp) (by simp) (by simp)] at hc
    exact h.scopeNode b c hc

/-! ### Storing -/

theorem assign_ok {mem mem' : Memory (ScopePiece V)} {slot : Slot (ScopePiece V)}
    {new : Option (ScopePiece V)} (h : assign n mem slot new = .ok mem') :
    ∃ old, mem.read slot = some old ∧ (old = new ∧ mem' = mem ∨ ∃ heap₁ heap₂,
      (old = none ∧ heap₁ = mem.heap ∨ decRef n mem.heap old = .ok heap₁) ∧
      (new = none ∧ heap₂ = heap₁ ∨ incRef heap₁ new = .ok heap₂) ∧
      Memory.write { mem with heap := heap₂ } slot new = .ok mem') := by
  unfold assign at h
  cases hread : mem.read slot with
  | none =>
    rw [hread] at h
    cases h
  | some old =>
    refine ⟨old, rfl, ?_⟩
    simp only [hread] at h
    by_cases hsame : old = new
    · rw [if_pos hsame] at h
      cases h
      exact .inl ⟨hsame, rfl⟩
    · rw [if_neg hsame] at h
      obtain ⟨heap₁, h₁, h⟩ := bind_ok h
      obtain ⟨heap₂, h₂, h⟩ := bind_ok h
      refine .inr ⟨heap₁, heap₂, ?_, ?_, h⟩
      · split_ifs at h₁ with hold
        · cases h₁
          exact .inl ⟨hold, rfl⟩
        · exact .inr h₁
      · split_ifs at h₂ with hnew
        · cases h₂
          exact .inl ⟨hnew, rfl⟩
        · exact .inr h₂

theorem incRef_staysIn {p : Option (ScopePiece V)} (hp : ∀ a ∈ p, IsValue a)
    (h : incRef heap p = .ok heap') : StaysIn IsValue heap heap' := by
  cases p with
  | none =>
    cases h
    exact .refl
  | some p =>
    obtain ⟨c, hc, rfl⟩ := incRef_ok h
    exact staysIn_insert (hp p rfl) hc _

theorem Shape.stays (h : Shape allocated heap) (hstays : StaysIn IsValue heap heap') :
    Shape allocated heap' where
  leaked := h.leaked.congr (fun i => hstays.outside _ id) fun i => hstays.outside _ id
  values := h.values.stays hstays
  level := by
    intro a c hc
    rw [hstays.outside _ id] at hc
    exact h.level a c hc
  scopeNode := by
    intro a c hc
    rw [hstays.outside _ id] at hc
    exact h.scopeNode a c hc

/-- A value is put into an entry. -/
theorem Shape.assign (h : Shape allocated heap) {value : Option V}
    {mem : Memory (ScopePiece V)}
    (hrun : assign n ⟨[], heap⟩ (.field (.entry a e) .value) (value.map .value) = .ok mem) :
    Shape allocated mem.heap := by
  have hvalue : ∀ x ∈ value.map ScopePiece.value, IsValue x := by
    intro x hx
    obtain ⟨v, -, rfl⟩ := Option.mem_map.1 hx
    exact trivial
  obtain ⟨old, hread, ⟨-, rfl⟩ | ⟨heap₁, heap₂, hold, hnew, hwrite⟩⟩ := assign_ok hrun
  · exact h
  obtain ⟨c, hc, hget⟩ := Option.bind_eq_some_iff.1 hread
  have hi := h.leaked.only (a, e) (Finmap.mem_of_lookup_eq_some hc)
  obtain ⟨d, hd, -, hshape⟩ := h.leaked.entry (a, e) hi
  obtain rfl : c = d := Option.some.inj (hc.symm.trans hd)
  obtain ⟨count, object⟩ := c
  obtain ⟨key, value', rfl, hvalue'⟩ := hshape
  cases hget
  have hstays₁ : StaysIn IsValue heap heap₁ := by
    rcases hold with ⟨-, rfl⟩ | hdecRef
    · exact .refl
    · exact decRef_staysIn h.values hvalue' hdecRef
  have hstays₂ : StaysIn IsValue heap₁ heap₂ := by
    rcases hnew with ⟨-, rfl⟩ | hincRef
    · exact .refl
    · exact incRef_staysIn hvalue hincRef
  have h₂ := h.stays (hstays₁.trans hstays₂)
  have hc₂ : heap₂.lookup (.entry a e) = some ⟨count, .listMapEntry key old⟩ :=
    ((hstays₁.trans hstays₂).outside _ id).trans hc
  simp only [Memory.write, hc₂] at hwrite
  cases hwrite
  have hrest : ∀ x, x ≠ .entry a e → (heap₂.insert (.entry a e)
      ⟨count, .listMapEntry key (value.map .value)⟩).lookup x = heap₂.lookup x :=
    fun x hx => Finmap.lookup_insert_of_ne _ hx
  refine ⟨h₂.leaked.write (i := (a, e)) hc₂ (Finmap.lookup_insert _) ⟨key, _, rfl, hvalue⟩
    (fun j => ⟨hrest _ (by simp [scopeEntries]), fun hj => ?_⟩), ?_, fun b c hc => ?_,
    fun b c hc => ?_⟩
  · exact hrest _ ((scopeEntries V).entry_injective.ne hj)
  · exact closedIn_values_of_same h₂.values fun v => hrest _ (by simp)
  · have hc' := (hrest (.level b) (by simp)).symm.trans hc
    exact h₂.level b c hc'
  · have hc' := (hrest (.scopeNode b) (by simp)).symm.trans hc
    exact h₂.scopeNode b c hc'

end CountedScopes

end GC

end InsenseCVM
