import InsenseCVM.Memory.ScopeHeap

/-!
# What collections release

The invariant of a scope stack with counts over whole runs, and `releases_iff`: stacks and scope
stacks release all that they have allocated exactly when they have never allocated an entry.
-/

namespace InsenseCVM

namespace GC

open RefHeap

variable {V : Type} [DecidableEq V]

namespace CountedScopes

variable {n : ℕ} {allocated : ℕ × ℕ → Prop} {heap heap' : ScopeHeap V} {a : ℕ}

/-! ### What the scope stack does -/

variable {m m' : ListMap V} {name : CString} {value element : Option V} {found : Bool}
  {scopes scopes' : ScopeStack V} {first p : Option ℕ} {fuel : ℕ}

omit [DecidableEq V] in
theorem fresh_put {key : CString} (h : m.put key value = some (found, m')) :
    m'.fresh = m.fresh := by
  obtain ⟨⟨e, m₁⟩, hsearch, h⟩ := Option.bind_eq_some_iff.1 h
  cases e with
  | none =>
    cases h
    exact (ListMap.keeps_search hsearch).2
  | some e =>
    obtain ⟨entry, -, h⟩ := Option.bind_eq_some_iff.1 h
    cases h
    show m₁.fresh = m.fresh
    exact (ListMap.keeps_search hsearch).2

/-- The addresses of levels and entries that have been given out are the same. -/
structure SameFresh (s s' : ScopeStack V) : Prop where
  list : s'.list = s.list
  fresh : s'.fresh = s.fresh
  level : ∀ a, (s'.level a).fresh = (s.level a).fresh

omit [DecidableEq V] in
theorem SameFresh.trans {s s' s'' : ScopeStack V} (h : SameFresh s s') (h' : SameFresh s' s'') :
    SameFresh s s'' :=
  ⟨h'.list.trans h.list, h'.fresh.trans h.fresh, fun a => (h'.level a).trans (h.level a)⟩

omit [DecidableEq V] in
theorem sameFresh_update (hm : m.fresh = (scopes.level a).fresh) :
    SameFresh scopes { scopes with level := Function.update scopes.level a m } where
  list := rfl
  fresh := rfl
  level := by
    intro b
    show (Function.update scopes.level a m b).fresh = _
    by_cases hb : b = a
    · subst hb
      rw [Function.update_self, hm]
    · rw [Function.update_of_ne hb]

omit [DecidableEq V] in
theorem sameFresh_putAt (h : scopes.putAt a name value = some (found, scopes')) :
    SameFresh scopes scopes' := by
  obtain ⟨⟨found', m⟩, hput, h⟩ := Option.bind_eq_some_iff.1 h
  cases h
  exact sameFresh_update (fresh_put hput)

theorem sameFresh_storeFrom
    (h : storeFrom n first name value fuel p scopes heap = .ok (found, scopes', heap')) :
    SameFresh scopes scopes' := by
  induction fuel generalizing p scopes heap with
  | zero => cases h
  | succ fuel ih =>
    rw [storeFrom] at h
    split_ifs at h with hp
    · cases h
      exact ⟨rfl, rfl, fun _ => rfl⟩
    · obtain ⟨a, ha, h⟩ := bind_ok h
      obtain ⟨node, hnode, h⟩ := bind_ok h
      obtain ⟨⟨found', scopes₁, heap₁⟩, hput, h⟩ := bind_ok h
      have hfirst := sameFresh_putAt (putAt_scopes hput)
      cases found' with
      | true =>
        cases h
        exact hfirst
      | false => exact hfirst.trans (ih h)

/-! ### Runs -/

/-- The entries that have been allocated, by their level. -/
def Allocated (scopes : Option (ScopeStack V)) (i : ℕ × ℕ) : Prop :=
  ∃ s ∈ scopes, i.1 < s.fresh ∧ i.2 < (s.level i.1).fresh

/-- The list of levels has only levels in it. -/
def Inside (scopes : Option (ScopeStack V)) : Prop :=
  ∀ s ∈ scopes, ∀ i node, s.list.heap i = some node → node.payload < s.fresh

structure Inv (s : CountedScopes V) : Prop where
  inside : Inside s.scopes
  shape : Shape (Allocated s.scopes) s.heap

omit [DecidableEq V] in
theorem SameFresh.allocated_eq {s s' : ScopeStack V} (h : SameFresh s s') :
    Allocated (some s') = Allocated (some s) := by
  funext i
  simp only [Allocated, Option.mem_some_iff, exists_eq_left', h.fresh, h.level]

omit [DecidableEq V] in
theorem SameFresh.inside {s s' : ScopeStack V} (h : SameFresh s s') (hinside : Inside (some s)) :
    Inside (some s') := by
  intro t ht
  obtain rfl := Option.mem_some_iff.1 ht
  rw [h.list, h.fresh]
  exact hinside s rfl

theorem Shape.putAt (h : Shape allocated heap)
    (hput : putAt n scopes heap a name value = .ok (found, scopes', heap')) :
    Shape allocated heap' := by
  obtain ⟨⟨e, m⟩, -, hput⟩ := bind_ok hput
  obtain ⟨⟨found', s₁⟩, -, hput⟩ := bind_ok hput
  cases e with
  | none =>
    cases hput
    exact h
  | some e =>
    obtain ⟨mem, hassign, hput⟩ := bind_ok hput
    cases hput
    exact h.assign hassign

theorem Shape.storeFrom (h : Shape allocated heap)
    (hstore : storeFrom n first name value fuel p scopes heap = .ok (found, scopes', heap')) :
    Shape allocated heap' := by
  induction fuel generalizing p scopes heap with
  | zero => cases hstore
  | succ fuel ih =>
    rw [CountedScopes.storeFrom] at hstore
    split_ifs at hstore with hp
    · cases hstore
      exact h
    · obtain ⟨a, ha, hstore⟩ := bind_ok hstore
      obtain ⟨node, hnode, hstore⟩ := bind_ok hstore
      obtain ⟨⟨found', scopes₁, heap₁⟩, hput, hstore⟩ := bind_ok hstore
      have hshape := h.putAt hput
      cases found' with
      | true =>
        cases hstore
        exact hshape
      | false => exact ih hshape hstore

variable {s s' u : CountedScopes V} {op : ScopeOp V} {ops : List (ScopeOp V)}

omit [DecidableEq V] in
theorem allocated_enterScope (scopes : Option (ScopeStack V)) :
    Allocated (some (ScopeStack.enterScope scopes)) = Allocated scopes := by
  funext i
  cases scopes with
  | none =>
    simp only [Allocated, Option.mem_some_iff, exists_eq_left', Option.not_mem_none, false_and,
      exists_false, eq_iff_iff, iff_false, not_and, not_lt]
    intro hi
    obtain hzero : i.1 = 0 := Nat.lt_one_iff.1 hi
    rw [hzero]
    exact Nat.zero_le _
  | some s =>
    simp only [Allocated, Option.mem_some_iff, exists_eq_left', eq_iff_iff]
    show i.1 < s.fresh + 1 ∧ i.2 < (Function.update s.level s.fresh _ i.1).fresh ↔ _
    by_cases hi : i.1 = s.fresh
    · rw [hi, Function.update_self]
      simp [ListMap.constructor]
    · rw [Function.update_of_ne hi]
      have hlt : i.1 < s.fresh + 1 ↔ i.1 < s.fresh := by omega
      rw [hlt]

omit [DecidableEq V] in
theorem Inside.enterScope {scopes : Option (ScopeStack V)} (h : Inside scopes) :
    Inside (some (ScopeStack.enterScope scopes)) := by
  intro s hs i node hnode
  obtain rfl := Option.mem_some_iff.1 hs
  cases scopes with
  | none =>
    have hheap : (ScopeStack.enterScope (none : Option (ScopeStack V))).list.heap =
        Function.update (fun _ => none) 0 (some ⟨0, none⟩) := by
      show ((IteratedList.constructList : IteratedList ℕ).insertElement (some 0)).heap = _
      rw [IteratedList.insertElement_eq]
      rfl
    rw [hheap] at hnode
    by_cases hi : i = 0
    · subst hi
      rw [Function.update_self] at hnode
      cases hnode
      exact Nat.zero_lt_one
    · rw [Function.update_of_ne hi] at hnode
      cases hnode
  | some s =>
    have hheap : (ScopeStack.enterScope (some s)).list.heap =
        Function.update s.list.heap s.list.fresh (some ⟨s.fresh, s.list.first⟩) := by
      show (s.list.insertElement (some s.fresh)).heap = _
      rw [IteratedList.insertElement_eq]
    rw [hheap] at hnode
    show node.payload < s.fresh + 1
    by_cases hi : i = s.list.fresh
    · subst hi
      rw [Function.update_self] at hnode
      cases hnode
      exact Nat.lt_succ_self _
    · rw [Function.update_of_ne hi] at hnode
      exact Nat.lt_succ_of_lt (h s rfl i node hnode)

theorem Inv.enterScope (h : Inv s) (hop : s.enterScope n = .ok s') :
    Inv s' ∧ ∀ v, s'.heap.lookup (.value v) = s.heap.lookup (.value v) := by
  have hscopes := enterScope_scopes hop
  obtain ⟨heap₁, hinsert, hop⟩ := bind_ok hop
  obtain ⟨heap₂, hdecRef, hop⟩ := bind_ok hop
  cases hop
  obtain ⟨hshape, hvalues⟩ := h.shape.enter hinsert hdecRef
  refine ⟨⟨h.inside.enterScope, ?_⟩, hvalues⟩
  rw [allocated_enterScope]
  exact hshape

omit [DecidableEq V] in
theorem Inside.exitScope (h : Inside (some scopes)) (hexit : scopes.exitScope = some scopes') :
    Inside (some scopes') ∧ Allocated (some scopes') = Allocated (some scopes) ∧
      scopes'.level = scopes.level := by
  unfold ScopeStack.exitScope at hexit
  cases hfirst : scopes.list.first with
  | none =>
    simp only [hfirst] at hexit
    cases hexit
    exact ⟨h, rfl, rfl⟩
  | some first =>
    simp only [hfirst] at hexit
    obtain ⟨node, hnode, hexit⟩ := Option.bind_eq_some_iff.1 hexit
    obtain ⟨list, hlist, hexit⟩ := Option.bind_eq_some_iff.1 hexit
    cases hexit
    simp only [IteratedList.removeElement, hfirst, hnode, Option.bind_eq_bind, Option.bind_some,
      if_true] at hlist
    cases hlist
    refine ⟨fun s hs i node' hnode' => ?_, ?_, rfl⟩
    swap
    · funext i
      simp only [Allocated, Option.mem_some_iff, exists_eq_left']
    obtain rfl := Option.mem_some_iff.1 hs
    have hi : i ≠ first := by
      rintro rfl
      simp [IteratedList.freeNode] at hnode'
    simp only [IteratedList.freeNode, Function.update_of_ne hi] at hnode'
    exact h scopes rfl i node' hnode'

theorem Inv.exitScope (h : Inv s) (hop : s.exitScope n = .ok s') :
    Inv s' ∧ Allocated s'.scopes = Allocated s.scopes ∧
      ∀ v, s'.heap.lookup (.value v) = s.heap.lookup (.value v) := by
  obtain ⟨scopes, hscopes, hop⟩ := bind_ok hop
  have hscopes := followed_ok hscopes
  cases hfirst : scopes.list.first with
  | none =>
    simp only [hfirst] at hop
    cases hop
    exact ⟨h, rfl, fun _ => rfl⟩
  | some first =>
    simp only [hfirst] at hop
    obtain ⟨node, -, hop⟩ := bind_ok hop
    obtain ⟨scopes', hexit, hop⟩ := bind_ok hop
    obtain ⟨heap, hdecRef, hop⟩ := bind_ok hop
    cases hop
    obtain ⟨hshape, hvalues⟩ := h.shape.exit hdecRef
    have hinside := h.inside
    rw [hscopes] at hinside hshape ⊢
    obtain ⟨hinside', hsame, -⟩ := hinside.exitScope (followed_ok hexit)
    refine ⟨⟨hinside', ?_⟩, hsame, hvalues⟩
    show Shape (Allocated (some scopes')) heap
    rw [hsame]
    exact hshape

/-- A level gets an entry, unless the name has a value there. -/
theorem Inv.declare (h : Inv s) (hop : s.declare n name = .ok s') :
    Inv s' ∧ ∀ i, Allocated s.scopes i → Allocated s'.scopes i := by
  obtain ⟨scopes, hscopes, hop⟩ := bind_ok hop
  obtain ⟨first, hfirst, hop⟩ := bind_ok hop
  obtain ⟨node, hnode, hop⟩ := bind_ok hop
  obtain ⟨⟨element, m⟩, hget, hop⟩ := bind_ok hop
  obtain ⟨scopes', hdeclare, hop⟩ := bind_ok hop
  obtain ⟨heap, hinsert, hop⟩ := bind_ok hop
  cases hop
  have hget := followed_ok hget
  have hdeclare := followed_ok hdeclare
  obtain ⟨hinside, hshape⟩ := h
  rw [followed_ok hscopes] at hinside hshape ⊢
  have hm := (ListMap.keeps_get hget).2
  have ha := hinside scopes rfl first node (followed_ok hnode)
  simp only [ScopeStack.declare, followed_ok hfirst, followed_ok hnode, Option.bind_eq_bind,
    Option.bind_some, ListMap.declare, hget] at hdeclare
  cases element with
  | some v =>
    cases hdeclare
    cases hinsert
    -- the name has a value: only the cursor of the level has moved
    have hsame := sameFresh_update hm
    refine ⟨⟨hsame.inside hinside, ?_⟩, fun i hi => ?_⟩
    · show Shape (Allocated (some _)) s.heap
      rw [hsame.allocated_eq]
      exact hshape
    · rw [hsame.allocated_eq]
      exact hi
  | none =>
    cases hdeclare
    -- the new entry has the next address, which has not been given out
    have hnew : ¬ Allocated (some scopes) (node.payload, m.fresh) := by
      rintro ⟨t, ht, -, hlt⟩
      obtain rfl := Option.mem_some_iff.1 ht
      exact absurd hlt (by rw [hm]; exact lt_irrefl _)
    have hallocated : Allocated (some { scopes with
        level := Function.update scopes.level node.payload (m.insertEntry name) }) =
        fun i => i = (node.payload, m.fresh) ∨ Allocated (some scopes) i := by
      funext i
      simp only [Allocated, Option.mem_some_iff, exists_eq_left', eq_iff_iff, Prod.ext_iff]
      by_cases hi : i.1 = node.payload
      · rw [hi, Function.update_self]
        simp only [ListMap.insertEntry, hm, ha, true_and]
        omega
      · rw [Function.update_of_ne hi]
        simp [hi]
    rw [if_pos rfl] at hinsert
    have hinside' : Inside (some { scopes with
        level := Function.update scopes.level node.payload (m.insertEntry name) }) := by
      intro t ht
      obtain rfl := Option.mem_some_iff.1 ht
      exact hinside scopes rfl
    refine ⟨⟨hinside', ?_⟩, fun i hi => ?_⟩
    · show Shape (Allocated (some _)) heap
      rw [hallocated]
      exact (hshape.insertEntry hnew hinsert).1
    · show Allocated (some _) i
      rw [hallocated]
      exact .inr hi

theorem Inv.store (h : Inv s) (hop : s.store n name value = .ok (found, s')) :
    Inv s' ∧ Allocated s'.scopes = Allocated s.scopes := by
  obtain ⟨scopes, hscopes, hop⟩ := bind_ok hop
  obtain ⟨first, -, hop⟩ := bind_ok hop
  obtain ⟨node, -, hop⟩ := bind_ok hop
  obtain ⟨⟨found', scopes₁, heap₁⟩, hput, hop⟩ := bind_ok hop
  obtain ⟨hinside, hshape⟩ := h
  rw [followed_ok hscopes] at hinside hshape ⊢
  have hsame₁ := sameFresh_putAt (putAt_scopes hput)
  have hshape₁ := hshape.putAt hput
  have hend : ∀ {scopes₂ : ScopeStack V} {heap₂ : ScopeHeap V}, SameFresh scopes scopes₂ →
      Shape (Allocated (some scopes)) heap₂ → Inv ⟨some scopes₂, heap₂⟩ ∧
        Allocated (some scopes₂) = Allocated (some scopes) := by
    intro scopes₂ heap₂ hsame hheap
    rw [← hsame.allocated_eq] at hheap
    exact ⟨⟨hsame.inside hinside, hheap⟩, hsame.allocated_eq⟩
  cases found' with
  | true =>
    cases hop
    exact hend hsame₁ hshape₁
  | false =>
    obtain ⟨⟨found', scopes₂, heap₂⟩, hstore, hop⟩ := bind_ok hop
    cases hop
    exact hend (hsame₁.trans (sameFresh_storeFrom hstore)) (hshape₁.storeFrom hstore)

theorem Inv.apply (h : Inv s) (hop : s.apply n op = .ok s') :
    Inv s' ∧ ∀ i, Allocated s.scopes i → Allocated s'.scopes i := by
  cases op with
  | enterScope =>
    refine ⟨(h.enterScope hop).1, fun i hi => ?_⟩
    rw [enterScope_scopes hop, allocated_enterScope]
    exact hi
  | exitScope =>
    obtain ⟨hinv, hsame, -⟩ := h.exitScope hop
    exact ⟨hinv, fun i hi => hsame ▸ hi⟩
  | declare name => exact h.declare hop
  | store name value =>
    obtain ⟨⟨found, s₁⟩, hstore, hs'⟩ := bind_ok hop
    cases hs'
    obtain ⟨hinv, hsame⟩ := h.store hstore
    exact ⟨hinv, fun i hi => hsame ▸ hi⟩

theorem Inv.run (h : Inv s) (hrun : run n ops s = .ok u) :
    Inv u ∧ ∀ i, Allocated s.scopes i → Allocated u.scopes i := by
  induction ops generalizing s with
  | nil =>
    cases hrun
    exact ⟨h, fun _ => id⟩
  | cons op ops ih =>
    obtain ⟨s', hop, hrest⟩ := bind_ok hrun
    obtain ⟨hinv, hstays⟩ := h.apply hop
    obtain ⟨hinv', hstays'⟩ := ih hinv hrest
    exact ⟨hinv', fun i hi => hstays' i (hstays i hi)⟩

/-! ### Runs without a declaration -/

/-- No level has an entry. -/
def Bare (scopes : Option (ScopeStack V)) : Prop :=
  ∀ s ∈ scopes, ∀ a, s.level a = ListMap.constructor

omit [DecidableEq V] in
theorem Bare.enterScope {scopes : Option (ScopeStack V)} (h : Bare scopes) :
    Bare (some (ScopeStack.enterScope scopes)) := by
  intro s hs a
  obtain rfl := Option.mem_some_iff.1 hs
  cases scopes with
  | none =>
    show Function.update (fun _ => ListMap.constructor) 0 ListMap.constructor a = _
    rw [Function.update_eq_self]
  | some s =>
    show Function.update s.level s.fresh ListMap.constructor a = _
    by_cases ha : a = s.fresh
    · rw [ha, Function.update_self]
    · rw [Function.update_of_ne ha, h s rfl]

theorem Bare.putAt (h : Bare (some scopes))
    (hput : putAt n scopes heap a name value = .ok (found, scopes', heap')) :
    found = false ∧ scopes' = scopes ∧ heap' = heap := by
  have hlevel := h scopes rfl a
  have hsearch : (scopes.level a).search name = some (none, ListMap.constructor) := by
    rw [hlevel]
    rfl
  have hputAt : scopes.putAt a name value = some (false, scopes) := by
    have hput' : (scopes.level a).put name value = some (false, scopes.level a) := by
      rw [hlevel]
      rfl
    simp only [ScopeStack.putAt, hput', Option.bind_eq_bind, Option.bind_some,
      Function.update_eq_self]
    rfl
  simp only [CountedScopes.putAt, hsearch, hputAt, followed] at hput
  cases hput
  exact ⟨rfl, rfl, rfl⟩

theorem Bare.storeFrom (h : Bare (some scopes))
    (hstore : storeFrom n first name value fuel p scopes heap = .ok (found, scopes', heap')) :
    scopes' = scopes ∧ heap' = heap := by
  induction fuel generalizing p with
  | zero => cases hstore
  | succ fuel ih =>
    rw [CountedScopes.storeFrom] at hstore
    split_ifs at hstore with hp
    · cases hstore
      exact ⟨rfl, rfl⟩
    · obtain ⟨a, -, hstore⟩ := bind_ok hstore
      obtain ⟨node, -, hstore⟩ := bind_ok hstore
      obtain ⟨⟨found', scopes₁, heap₁⟩, hput, hrest⟩ := bind_ok hstore
      obtain ⟨rfl, rfl, rfl⟩ := h.putAt hput
      exact ih hrest

theorem Bare.store (h : Bare s.scopes) (hop : s.store n name value = .ok (found, s')) :
    s' = s := by
  obtain ⟨scopes, hscopes, hop⟩ := bind_ok hop
  obtain ⟨first, -, hop⟩ := bind_ok hop
  obtain ⟨node, -, hop⟩ := bind_ok hop
  obtain ⟨⟨found', scopes₁, heap₁⟩, hput, hrest⟩ := bind_ok hop
  obtain ⟨old, heap⟩ := s
  obtain rfl : old = some scopes := followed_ok hscopes
  obtain ⟨rfl, rfl, rfl⟩ := h.putAt hput
  obtain ⟨⟨found', scopes₂, heap₂⟩, hstore, hend⟩ := bind_ok hrest
  cases hend
  obtain ⟨rfl, rfl⟩ := h.storeFrom hstore
  rfl

theorem Bare.apply (h : Bare s.scopes) (hinv : Inv s) (hop : s.apply n op = .ok s')
    (hnone : ∀ name, op ≠ .declare name) :
    Bare s'.scopes ∧ ∀ v, s'.heap.lookup (.value v) = s.heap.lookup (.value v) := by
  cases op with
  | enterScope =>
    refine ⟨?_, (hinv.enterScope hop).2⟩
    rw [enterScope_scopes hop]
    exact h.enterScope
  | exitScope =>
    refine ⟨?_, (hinv.exitScope hop).2.2⟩
    obtain ⟨scopes, hscopes, hexit⟩ := exitScope_scopes hop
    have hinside := hinv.inside
    rw [hscopes] at h hinside
    rw [hexit]
    intro t ht a
    obtain ⟨-, -, hlevel⟩ := hinside.exitScope ht
    rw [hlevel]
    exact h scopes rfl a
  | declare name => exact absurd rfl (hnone name)
  | store name value =>
    obtain ⟨⟨found, s₁⟩, hstore, hs'⟩ := bind_ok hop
    cases hs'
    rw [h.store hstore]
    exact ⟨h, fun _ => rfl⟩

theorem Bare.run (h : Bare s.scopes) (hinv : Inv s) (hrun : run n ops s = .ok u)
    (hnone : ∀ op ∈ ops, ∀ name, op ≠ .declare name) :
    Bare u.scopes ∧ ∀ v, u.heap.lookup (.value v) = s.heap.lookup (.value v) := by
  induction ops generalizing s with
  | nil =>
    cases hrun
    exact ⟨h, fun _ => rfl⟩
  | cons op ops ih =>
    obtain ⟨s', hop, hrest⟩ := bind_ok hrun
    obtain ⟨hbare, hvalues⟩ := h.apply hinv hop (hnone op List.mem_cons_self)
    obtain ⟨hbare', hvalues'⟩ := ih hbare (hinv.apply hop).1 hrest
      fun op hop => hnone op (List.mem_cons_of_mem _ hop)
    exact ⟨hbare', fun v => (hvalues' v).trans (hvalues v)⟩

/-! ### From the first scope on -/

/-- Nothing but values is in the heap, and they have pointers to values only. -/
def OnlyValues (heap : ScopeHeap V) : Prop := (∀ x ∈ heap, IsValue x) ∧ ClosedIn heap IsValue

theorem inv_created (h : OnlyValues heap) : Inv (created heap) where
  inside := fun s hs => by cases hs
  shape :=
    { leaked :=
        { node := fun i c hc => (h.1 _ (Finmap.mem_of_lookup_eq_some hc)).elim
          entry := by
            rintro i ⟨s, hs, -⟩
            cases hs
          only := fun i hi => (h.1 _ hi).elim }
      values := h.2
      level := fun a c hc => (h.1 _ (Finmap.mem_of_lookup_eq_some hc)).elim
      scopeNode := fun a c hc => (h.1 _ (Finmap.mem_of_lookup_eq_some hc)).elim }

omit [DecidableEq V] in
theorem bare_created {heap : ScopeHeap V} : Bare (created heap).scopes := fun s hs => by cases hs

/-- The first declaration allocates an entry. -/
theorem exists_allocated (hinv : Inv s) (hbare : Bare s.scopes)
    (hop : s.declare n name = .ok s') : ∃ i, Allocated s'.scopes i := by
  obtain ⟨scopes, hscopes, hrest⟩ := bind_ok hop
  obtain ⟨first, hfirst, hrest⟩ := bind_ok hrest
  obtain ⟨node, hnode, -⟩ := bind_ok hrest
  obtain ⟨scopes', hscopes', hdeclare⟩ := declare_scopes hop
  obtain rfl : scopes' = scopes := by
    rw [followed_ok hscopes] at hscopes'
    exact (Option.some.inj hscopes').symm
  have hinside := hinv.inside
  rw [hscopes'] at hbare hinside
  have ha := hinside scopes' rfl first node (followed_ok hnode)
  have hget : (scopes'.level node.payload).declare name =
      some ((ListMap.constructor : ListMap V).insertEntry name) := by
    rw [hbare scopes' rfl]
    rfl
  rw [hdeclare]
  simp only [ScopeStack.declare, followed_ok hfirst, followed_ok hnode, Option.bind_eq_bind,
    Option.bind_some, hget]
  refine ⟨(node.payload, 0), _, rfl, ha, ?_⟩
  show 0 < (Function.update scopes'.level node.payload _ node.payload).fresh
  rw [Function.update_self]
  exact Nat.zero_lt_one

theorem entriesFreed_iff (h : Inv u) : u.EntriesFreed ↔ ∀ i, ¬ Allocated u.scopes i := by
  constructor
  · rintro hfreed i ⟨scopes, hscopes, ha, he⟩
    exact (hfreed scopes hscopes i.1 ha i.2 he).1 (h.shape.leaked.mem ⟨scopes, hscopes, ha, he⟩)
  · intro hnone scopes hscopes a ha e he
    exact absurd ⟨scopes, hscopes, ha, he⟩ (hnone (a, e))

omit [DecidableEq V] in
theorem exists_first_declare (h : ¬ ∀ op ∈ ops, ∀ name, op ≠ .declare name) :
    ∃ pre name post, ops = pre ++ .declare name :: post ∧
      ∀ op ∈ pre, ∀ name, op ≠ .declare name := by
  induction ops with
  | nil => exact absurd (fun op hop => by cases hop) h
  | cons op ops ih =>
    by_cases hop : ∃ name, op = .declare name
    · obtain ⟨name, rfl⟩ := hop
      exact ⟨[], name, ops, rfl, fun op hop => by cases hop⟩
    · have hne : ∀ name, op ≠ .declare name := fun name h => hop ⟨name, h⟩
      have hrest : ¬ ∀ op ∈ ops, ∀ name, op ≠ .declare name := by
        intro hall
        refine h fun op' hop' => ?_
        rcases List.mem_cons.1 hop' with rfl | hop'
        · exact hne
        · exact hall op' hop'
      obtain ⟨pre, name, post, rfl, hpre⟩ := ih hrest
      refine ⟨op :: pre, name, post, rfl, fun op' hop' => ?_⟩
      rcases List.mem_cons.1 hop' with rfl | hop'
      · exact hne
      · exact hpre op' hop'

theorem run_append_ok {pre post : List (ScopeOp V)} (h : run n (pre ++ post) s = .ok u) :
    ∃ w, run n pre s = .ok w ∧ run n post w = .ok u := by
  unfold run at h
  rw [List.foldlM_append] at h
  exact bind_ok h

theorem not_entriesFreed (h : OnlyValues heap) (hrun : run n ops (created heap) = .ok u)
    (hdeclared : ¬ ∀ op ∈ ops, ∀ name, op ≠ .declare name) : ¬ u.EntriesFreed := by
  have hinv := inv_created h
  obtain ⟨pre, name, post, rfl, hpre⟩ := exists_first_declare hdeclared
  obtain ⟨w, hfirst, hrest⟩ := run_append_ok hrun
  obtain ⟨w', hop, hrest⟩ := bind_ok hrest
  have hinv₁ := (hinv.run hfirst).1
  obtain ⟨hbare, -⟩ := Bare.run bare_created hinv hfirst hpre
  obtain ⟨i, hi⟩ := exists_allocated hinv₁ hbare hop
  have hinv₂ := (hinv₁.apply hop).1.run hrest
  exact fun hfreed => (entriesFreed_iff hinv₂.1).1 hfreed i (hinv₂.2 i hi)

/-- Everything is released exactly when nothing has been declared. -/
theorem released_iff (h : OnlyValues heap) (hrun : run n ops (created heap) = .ok u) :
    u.EntriesFreed ∧ ValuesRestored n ops (created heap) u ↔
      ∀ op ∈ ops, ∀ name, op ≠ .declare name := by
  have hinv := inv_created h
  constructor
  · rintro ⟨hfreed, -⟩
    by_contra hdeclared
    exact not_entriesFreed h hrun hdeclared hfreed
  · intro hnone
    obtain ⟨hbare, hvalues⟩ := Bare.run bare_created hinv hrun hnone
    refine ⟨(entriesFreed_iff (hinv.run hrun).1).2 ?_, ?_⟩
    · rintro i ⟨scopes, hscopes, -, he⟩
      rw [hbare scopes hscopes] at he
      exact absurd he (Nat.not_lt_zero _)
    · rintro pre name v post w rfl - hw
      obtain ⟨-, hvalues'⟩ := Bare.run bare_created hinv hw
        fun op hop => hnone op (List.mem_append_left _ hop)
      unfold countOf
      rw [hvalues, hvalues']

/-- The first node of the list of levels. -/
def firstLevel (s : CountedScopes V) : Option (Option ℕ) := s.scopes.map fun t => t.list.first

omit [DecidableEq V] in
theorem exited_of_firstLevel (h : u.firstLevel = some none) : u.Exited := by
  intro scopes hscopes
  unfold firstLevel at h
  rw [Option.mem_def.1 hscopes] at h
  exact Option.some.inj h

end CountedScopes

/-- **An emptied stack has released its entries exactly when nothing was ever pushed, and a scope
stack whose levels have all been left has released its entries and keys and given back the values
exactly when nothing was ever declared.** -/
theorem releases_iff :
    (∀ (n : ℕ) (heap : ObjectHeap (StackPiece V)) (ops : List (StackOp V)) (u : CountedStack V),
      CountedStack.OnlyItems heap → CountedStack.run n ops (.created heap) = .ok u →
      u.stack.stackTop = 0 → (u.EntriesFreed ↔ ∀ op ∈ ops, op = .pop)) ∧
    ∀ (n : ℕ) (heap : ScopeHeap V) (ops : List (ScopeOp V)) (u : CountedScopes V),
      CountedScopes.OnlyValues heap → CountedScopes.run n ops (.created heap) = .ok u →
      u.Exited → (u.EntriesFreed ∧ CountedScopes.ValuesRestored n ops (.created heap) u ↔
        ∀ op ∈ ops, ∀ name, op ≠ .declare name) :=
  ⟨fun _ _ _ _ honly hrun _ => CountedStack.entriesFreed_iff honly hrun,
    fun _ _ _ _ honly hrun _ => CountedScopes.released_iff honly hrun⟩

/-- One value that is referenced from outside. -/
def oneItem : ObjectHeap (StackPiece ℕ) := Finmap.singleton (.item 0) ⟨1, .plain⟩

def oneValue : ScopeHeap ℕ := Finmap.singleton (.value 0) ⟨1, .plain⟩

def pushPop : List (StackOp ℕ) := [.push (some 0), .pop]

/-- A scope in which the variable `x` is declared and stored to. -/
def oneVariableScope : List (ScopeOp ℕ) :=
  [.enterScope, .declare [120], .store [120] (some 0), .exitScope]

theorem onlyItems_oneItem : CountedStack.OnlyItems oneItem := by
  intro x hx
  exact ⟨0, (Finmap.mem_singleton ..).1 hx⟩

theorem onlyValues_oneValue : CountedScopes.OnlyValues oneValue := by
  refine ⟨fun x hx => ?_, fun y x hy hx => ?_⟩
  · rw [(Finmap.mem_singleton ..).1 hx]
    exact trivial
  · obtain rfl := (Finmap.mem_singleton ..).1 (mem_of_pointers hx)
    have hnone : pointers Object.references oneValue (.value 0) = 0 := by decide +kernel
    rw [hnone] at hx
    cases hx

/-- A stack that is only popped, and scopes that are entered and left. -/
theorem releases_iff_nothing :
    (∃ u, CountedStack.run 3 [.pop] (.created oneItem) = .ok u ∧ u.stack.stackTop = 0 ∧
      u.EntriesFreed) ∧
    ∃ u, CountedScopes.run 4 [.enterScope, .exitScope] (.created oneValue) = .ok u ∧ u.Exited ∧
      u.EntriesFreed := by
  obtain ⟨u, hu, hempty⟩ : ∃ u, CountedStack.run 3 [.pop] (.created oneItem) = .ok u ∧
    u.stack.stackTop = 0 := ⟨_, rfl, rfl⟩
  obtain ⟨w, hw⟩ : ∃ w, CountedScopes.run 4 [.enterScope, .exitScope] (.created oneValue) = .ok w :=
    ⟨_, rfl⟩
  have hfirst : (CountedScopes.run 4 [.enterScope, .exitScope]
      (.created oneValue)).toOption.map CountedScopes.firstLevel = some (some none) := by
    decide +kernel
  rw [hw] at hfirst
  have hexited := CountedScopes.exited_of_firstLevel (Option.some.inj hfirst)
  refine ⟨⟨u, hu, hempty, ?_⟩, w, hw, hexited, ?_⟩
  · exact (releases_iff.1 3 oneItem [.pop] u onlyItems_oneItem hu hempty).2 (by simp)
  · exact ((releases_iff.2 4 oneValue [.enterScope, .exitScope] w onlyValues_oneValue hw
      hexited).2 (by simp)).1

/-- An item is pushed and popped; a variable is declared, stored to and left. The entries are still
there, and the value has one reference more. -/
theorem pushed_not_released :
    (CountedStack.OnlyItems oneItem ∧ ∃ u, CountedStack.run 3 pushPop (.created oneItem) = .ok u ∧
      u.stack.stackTop = 0 ∧ ¬ u.EntriesFreed) ∧
    CountedScopes.OnlyValues oneValue ∧ ∃ u,
      CountedScopes.run 4 oneVariableScope (.created oneValue) = .ok u ∧ u.Exited ∧
      ¬ u.EntriesFreed ∧
      ¬ CountedScopes.ValuesRestored 4 oneVariableScope (.created oneValue) u := by
  obtain ⟨u, hu, hempty⟩ : ∃ u, CountedStack.run 3 pushPop (.created oneItem) = .ok u ∧
    u.stack.stackTop = 0 := ⟨_, rfl, rfl⟩
  obtain ⟨w, hw⟩ : ∃ w, CountedScopes.run 4 oneVariableScope (.created oneValue) = .ok w :=
    ⟨_, rfl⟩
  have hfirst : (CountedScopes.run 4 oneVariableScope
      (.created oneValue)).toOption.map CountedScopes.firstLevel = some (some none) := by
    decide +kernel
  have hcount : (CountedScopes.run 4 oneVariableScope
      (.created oneValue)).toOption.map (fun w => w.countOf 0) = some (some 2) := by
    decide +kernel
  rw [hw] at hfirst hcount
  refine ⟨⟨onlyItems_oneItem, u, hu, hempty, fun hfreed => ?_⟩, onlyValues_oneValue, w, hw,
    CountedScopes.exited_of_firstLevel (Option.some.inj hfirst), fun hfreed => ?_,
    fun hrestored => ?_⟩
  · have hpush := (CountedStack.entriesFreed_iff onlyItems_oneItem hu).1 hfreed (.push (some 0))
      List.mem_cons_self
    cases hpush
  · refine CountedScopes.not_entriesFreed onlyValues_oneValue hw (fun hnone => ?_) hfreed
    exact hnone (.declare [120]) (by simp [oneVariableScope]) [120] rfl
  · obtain ⟨t, ht⟩ : ∃ t, CountedScopes.run 4 [.enterScope, .declare [120]]
        (.created oneValue) = .ok t := ⟨_, rfl⟩
    have hbefore : (CountedScopes.run 4 [.enterScope, .declare [120]]
        (.created oneValue)).toOption.map (fun w => w.countOf 0) = some (some 1) := by
      decide +kernel
    rw [ht] at hbefore
    have hsame := hrestored [.enterScope, .declare [120]] [120] 0 [.exitScope] t rfl (by simp) ht
    have hafter : w.countOf 0 = some 2 := Option.some.inj hcount
    have hone : t.countOf 0 = some 1 := Option.some.inj hbefore
    rw [hafter, hone] at hsame
    cases hsame

end GC

end InsenseCVM
