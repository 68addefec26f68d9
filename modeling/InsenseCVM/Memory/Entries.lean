import InsenseCVM.Memory.Assignment

/-!
# Entries in a list

`Stack_push` and `ListMap_declare` allocate an entry and insert it into an iterated list. The
entry has the count of its creator, 1, and `IteratedList_insertElement` takes another reference to
it. The creator's reference is not given up, so that the removal of the node, which gives up the
other one, leaves the entry with a count of 1.

* `Entries`: the addresses of entries and of the nodes that hold them;
* `Leaked`: the invariant, that an entry has a count of 2 while its node is there and of 1 later;
* `Leaked.insert`, `Leaked.remove`: insertion and removal keep it.
-/

namespace InsenseCVM

namespace GC

open RefHeap

variable {α : Type} [DecidableEq α]

/-- `IteratedList_constructNode` and the assignment of the payload. -/
def insertNode (n : ℕ) (heap : ObjectHeap α) (node element : α) :
    Except (Fault α) (ObjectHeap α) :=
  assign n ⟨[], heap.insert node ⟨1, .iteratedListNode none⟩⟩ (.field node .payload)
    (some element) >>= fun m => .ok m.heap

/-- A pointer is followed that the code takes to be good. -/
def followed {β : Type} : Option β → Except (Fault α) β
  | none => .error .nowhere
  | some b => .ok b

/-! ### What a call that returns has done -/

variable {n : ℕ} {heap heap' : ObjectHeap α} {p x node element : α}
  {c d : Allocation (Object α)} {o : Object α}

omit [DecidableEq α] in
theorem followed_ok {β : Type} {b : Option β} {r : β}
    (h : (followed b : Except (Fault α) β) = .ok r) : b = some r := by
  cases b with
  | none => cases h
  | some b =>
    cases h
    rfl

omit [DecidableEq α] in
theorem bind_ok {β γ : Type} {f : Except (Fault α) β} {g : β → Except (Fault α) γ} {r : γ}
    (h : (f >>= g) = .ok r) : ∃ b, f = .ok b ∧ g b = .ok r := by
  cases f with
  | error e => cases h
  | ok b => exact ⟨b, rfl, h⟩

theorem incRef_ok (h : incRef heap (some p) = .ok heap') :
    ∃ c, heap.lookup p = some c ∧ heap' = heap.insert p ⟨c.refCount + 1, c.object⟩ := by
  unfold incRef at h
  cases hc : heap.lookup p with
  | none =>
    simp only [hc] at h
    cases h
  | some c =>
    simp only [hc] at h
    cases h
    exact ⟨c, rfl, rfl⟩

/-- Where the slot was null, nothing is given up. -/
theorem assign_null {m : Memory α} {slot : Slot α} (hread : m.read slot = some none) (p : α) :
    assign n m slot (some p) =
      (incRef m.heap (some p) >>= fun heap =>
        Memory.write { m with heap := heap } slot (some p)) := by
  simp only [assign, hread, reduceCtorEq, if_false, if_true]
  rfl

theorem insertNode_ok (hne : node ≠ element) (h : insertNode n heap node element = .ok heap') :
    ∃ c, heap.lookup element = some c ∧
      heap'.lookup node = some ⟨1, .iteratedListNode (some element)⟩ ∧
      heap'.lookup element = some ⟨c.refCount + 1, c.object⟩ ∧
      ∀ x, x ≠ node → x ≠ element → heap'.lookup x = heap.lookup x := by
  have hread : Memory.read ⟨[], heap.insert node ⟨1, .iteratedListNode none⟩⟩
      (.field node .payload) = some none := by
    simp [Memory.read, Object.get]
  obtain ⟨m, hassign, hm⟩ := bind_ok h
  cases hm
  rw [assign_null hread] at hassign
  obtain ⟨heap₁, hincRef, hwrite⟩ := bind_ok hassign
  obtain ⟨c, hc, rfl⟩ := incRef_ok hincRef
  rw [Finmap.lookup_insert_of_ne _ hne.symm] at hc
  have hnode : (Finmap.insert element ⟨c.refCount + 1, c.object⟩
      (heap.insert node ⟨1, .iteratedListNode none⟩)).lookup node =
        some ⟨1, .iteratedListNode none⟩ := by
    rw [Finmap.lookup_insert_of_ne _ hne, Finmap.lookup_insert]
  simp only [Memory.write, hnode] at hwrite
  cases hwrite
  refine ⟨c, hc, Finmap.lookup_insert _, ?_, fun x hx hx' => ?_⟩
  · rw [Finmap.lookup_insert_of_ne _ hne.symm, Finmap.lookup_insert]
  · rw [Finmap.lookup_insert_of_ne _ hx, Finmap.lookup_insert_of_ne _ hx',
      Finmap.lookup_insert_of_ne _ hx]

theorem decRef_ok (h : decRef n heap (some p) = .ok heap') (hc : heap.lookup p = some c) :
    ∃ m, n = m + 1 ∧
      (if c.refCount - 1 ≤ 0 then
        (if c.object.memContainsPointers = true then
            c.object.decRef.foldlM (decRef m) (heap.insert p ⟨c.refCount - 1, c.object⟩)
          else .ok (heap.insert p ⟨c.refCount - 1, c.object⟩)) >>= fun heap => free heap p
      else .ok (heap.insert p ⟨c.refCount - 1, c.object⟩)) = .ok heap' := by
  cases n with
  | zero => cases h
  | succ n =>
    simp only [decRef, hc] at h
    exact ⟨n, rfl, h⟩

theorem exists_of_decRef_ok (h : decRef n heap (some p) = .ok heap') :
    ∃ c, heap.lookup p = some c := by
  cases n with
  | zero => cases h
  | succ n =>
    cases hc : heap.lookup p with
    | none =>
      simp only [decRef, hc] at h
      cases h
    | some c => exact ⟨c, rfl⟩

/-- A reference is given up that is not the last one. -/
theorem decRef_kept (h : decRef n heap (some p) = .ok heap') (hc : heap.lookup p = some c)
    (hmore : 2 ≤ c.refCount) : heap' = heap.insert p ⟨c.refCount - 1, c.object⟩ := by
  obtain ⟨m, rfl, hrun⟩ := decRef_ok h hc
  rw [if_neg (by omega)] at hrun
  cases hrun
  rfl

/-- The last reference is given up: the finaliser has run, then the object has been freed, unless
it was taken again. -/
theorem decRef_last (h : decRef n heap (some p) = .ok heap') (hc : heap.lookup p = some ⟨1, o⟩)
    (hpointers : o.memContainsPointers = true) :
    ∃ m heap₁, o.decRef.foldlM (decRef m) (heap.insert p ⟨0, o⟩) = .ok heap₁ ∧
      free heap₁ p = .ok heap' := by
  obtain ⟨m, rfl, hrun⟩ := decRef_ok h hc
  rw [if_pos (by simp), if_pos hpointers] at hrun
  obtain ⟨heap₁, hfinalise, hfree⟩ := bind_ok hrun
  exact ⟨m, heap₁, hfinalise, hfree⟩

theorem free_ok (h : free heap p = .ok heap') (hc : heap.lookup p = some ⟨0, o⟩) :
    heap' = heap.erase p := by
  simp only [free, hc] at h
  rw [if_neg (by simp)] at h
  cases h
  rfl

/-- The node of an element that is referenced from elsewhere goes, and the element stays. -/
theorem decRef_node (h : decRef n heap (some node) = .ok heap') (hne : node ≠ element)
    (hnode : heap.lookup node = some ⟨1, .iteratedListNode (some element)⟩)
    (hc : heap.lookup element = some c) (hmore : 2 ≤ c.refCount) :
    heap'.lookup node = none ∧ heap'.lookup element = some ⟨c.refCount - 1, c.object⟩ ∧
      ∀ x, x ≠ node → x ≠ element → heap'.lookup x = heap.lookup x := by
  obtain ⟨m, heap₁, hfinalise, hfree⟩ := decRef_last h hnode rfl
  obtain ⟨heap₂, hdecRef, hnil⟩ := bind_ok hfinalise
  cases hnil
  have hc' : (heap.insert node ⟨0, .iteratedListNode (some element)⟩).lookup element = some c := by
    rw [Finmap.lookup_insert_of_ne _ hne.symm, hc]
  obtain rfl := decRef_kept hdecRef hc' hmore
  have hnode' : (Finmap.insert element ⟨c.refCount - 1, c.object⟩
      (heap.insert node ⟨0, .iteratedListNode (some element)⟩)).lookup node =
        some ⟨0, .iteratedListNode (some element)⟩ := by
    rw [Finmap.lookup_insert_of_ne _ hne, Finmap.lookup_insert]
  obtain rfl := free_ok hfree hnode'
  refine ⟨Finmap.lookup_erase .., ?_, fun x hx hx' => ?_⟩
  · rw [Finmap.lookup_erase_ne hne.symm, Finmap.lookup_insert]
  · rw [Finmap.lookup_erase_ne hx, Finmap.lookup_insert_of_ne _ hx',
      Finmap.lookup_insert_of_ne _ hx]

/-! ### The invariant -/

/-- The addresses of entries and of the nodes that hold them. -/
structure Entries (ι α : Type) where
  node : ι → α
  entry : ι → α
  node_injective : Function.Injective node
  entry_injective : Function.Injective entry
  disjoint : ∀ i j, node i ≠ entry j

variable {ι : Type} {P : Entries ι α} {shape : Object α → Prop} {allocated : ι → Prop} {i : ι}

/-- What has been allocated is there, and its creator's reference has not been given up. -/
structure Leaked (P : Entries ι α) (shape : Object α → Prop) (allocated : ι → Prop)
    (heap : ObjectHeap α) : Prop where
  node : ∀ i c, heap.lookup (P.node i) = some c →
    allocated i ∧ c = ⟨1, .iteratedListNode (some (P.entry i))⟩
  entry : ∀ i, allocated i → ∃ c, heap.lookup (P.entry i) = some c ∧
    c.refCount = (if P.node i ∈ heap then 2 else 1) ∧ shape c.object
  only : ∀ i, P.entry i ∈ heap → allocated i

theorem mem_of_lookup_eq (h : heap'.lookup x = heap.lookup x) : x ∈ heap' ↔ x ∈ heap := by
  rw [← Finmap.lookup_isSome, ← Finmap.lookup_isSome, h]

theorem Leaked.congr (h : Leaked P shape allocated heap)
    (hnode : ∀ i, heap'.lookup (P.node i) = heap.lookup (P.node i))
    (hentry : ∀ i, heap'.lookup (P.entry i) = heap.lookup (P.entry i)) :
    Leaked P shape allocated heap' where
  node := by
    intro i c hc
    rw [hnode] at hc
    exact h.node i c hc
  entry := by
    intro i hi
    obtain ⟨c, hc, hcount, hshape⟩ := h.entry i hi
    refine ⟨c, (hentry i).trans hc, ?_, hshape⟩
    simp only [mem_of_lookup_eq (hnode i)]
    exact hcount
  only := fun i hi => h.only i ((mem_of_lookup_eq (hentry i)).1 hi)

theorem Leaked.mem (h : Leaked P shape allocated heap) (hi : allocated i) :
    P.entry i ∈ heap := by
  obtain ⟨c, hc, -⟩ := h.entry i hi
  exact Finmap.mem_of_lookup_eq_some hc

/-- A new entry is allocated and inserted. -/
theorem Leaked.insert (h : Leaked P shape allocated heap) (hi : ¬ allocated i)
    (hentry : heap'.lookup (P.entry i) = some ⟨2, o⟩) (hshape : shape o)
    (hnode : heap'.lookup (P.node i) = some ⟨1, .iteratedListNode (some (P.entry i))⟩)
    (hnodes : ∀ j ≠ i, heap'.lookup (P.node j) = heap.lookup (P.node j))
    (hentries : ∀ j ≠ i, heap'.lookup (P.entry j) = heap.lookup (P.entry j)) :
    Leaked P shape (fun j => j = i ∨ allocated j) heap' where
  node := by
    intro j c hc
    by_cases hj : j = i
    · subst hj
      rw [hnode] at hc
      cases hc
      exact ⟨.inl rfl, rfl⟩
    · rw [hnodes j hj] at hc
      obtain ⟨hallocated, hobject⟩ := h.node j c hc
      exact ⟨.inr hallocated, hobject⟩
  entry := by
    intro j hj
    by_cases hji : j = i
    · subst hji
      refine ⟨_, hentry, ?_, hshape⟩
      rw [if_pos (Finmap.mem_of_lookup_eq_some hnode)]
    · obtain ⟨c, hc, hcount, hc'⟩ := h.entry j (hj.resolve_left hji)
      refine ⟨c, (hentries j hji).trans hc, ?_, hc'⟩
      simp only [mem_of_lookup_eq (hnodes j hji)]
      exact hcount
  only := by
    intro j hj
    by_cases hji : j = i
    · exact .inl hji
    · exact .inr (h.only j ((mem_of_lookup_eq (hentries j hji)).1 hj))

/-- One entry is given other pointers. -/
theorem Leaked.write (h : Leaked P shape allocated heap)
    (hc : heap.lookup (P.entry i) = some c) (hentry : heap'.lookup (P.entry i) =
      some ⟨c.refCount, o⟩) (hshape : shape o)
    (hrest : ∀ j, heap'.lookup (P.node j) = heap.lookup (P.node j) ∧
      (j ≠ i → heap'.lookup (P.entry j) = heap.lookup (P.entry j))) :
    Leaked P shape allocated heap' where
  node := by
    intro j d hd
    rw [(hrest j).1] at hd
    exact h.node j d hd
  entry := by
    intro j hj
    obtain ⟨d, hd, hcount, hd'⟩ := h.entry j hj
    simp only [mem_of_lookup_eq (hrest j).1]
    by_cases hji : j = i
    · subst hji
      rw [hc] at hd
      cases hd
      exact ⟨_, hentry, hcount, hshape⟩
    · exact ⟨d, ((hrest j).2 hji).trans hd, hcount, hd'⟩
  only := by
    intro j hj
    by_cases hji : j = i
    · subst hji
      exact h.only j (Finmap.mem_of_lookup_eq_some hc)
    · exact h.only j ((mem_of_lookup_eq ((hrest j).2 hji)).1 hj)

/-- A node is removed. -/
theorem Leaked.remove (h : Leaked P shape allocated heap)
    (hrun : decRef n heap (some (P.node i)) = .ok heap') :
    Leaked P shape allocated heap' ∧
      ∀ x, x ≠ P.node i → x ≠ P.entry i → heap'.lookup x = heap.lookup x := by
  obtain ⟨c, hc⟩ := exists_of_decRef_ok hrun
  obtain ⟨hi, rfl⟩ := h.node i c hc
  obtain ⟨d, hd, hcount, hshape⟩ := h.entry i hi
  rw [if_pos (Finmap.mem_of_lookup_eq_some hc)] at hcount
  obtain ⟨hnode, hentry, hrest⟩ := decRef_node hrun (P.disjoint i i) hc hd (by omega)
  have hnodes : ∀ j ≠ i, heap'.lookup (P.node j) = heap.lookup (P.node j) := fun j hj =>
    hrest _ (P.node_injective.ne hj) (P.disjoint j i)
  have hentries : ∀ j ≠ i, heap'.lookup (P.entry j) = heap.lookup (P.entry j) := fun j hj =>
    hrest _ (P.disjoint i j).symm (P.entry_injective.ne hj)
  refine ⟨⟨fun j e he => ?_, fun j hj => ?_, fun j hj => ?_⟩, hrest⟩
  · by_cases hji : j = i
    · subst hji
      rw [hnode] at he
      cases he
    · rw [hnodes j hji] at he
      exact h.node j e he
  · by_cases hji : j = i
    · subst hji
      refine ⟨_, hentry, ?_, hshape⟩
      rw [if_neg (Finmap.lookup_eq_none.1 hnode)]
      show d.refCount - 1 = 1
      omega
    · obtain ⟨e, he, hcount', he'⟩ := h.entry j hj
      refine ⟨e, (hentries j hji).trans he, ?_, he'⟩
      simp only [mem_of_lookup_eq (hnodes j hji)]
      exact hcount'
  · by_cases hji : j = i
    · exact hji ▸ hi
    · exact h.only j ((mem_of_lookup_eq (hentries j hji)).1 hj)

/-! ### What a call cannot reach -/

/-- A set of objects that the pointers of its members do not leave. -/
def ClosedIn (heap : ObjectHeap α) (Q : α → Prop) : Prop :=
  ∀ y x, Q y → x ∈ pointers Object.references heap y → Q x

/-- Nothing outside of `Q` has changed, and no object has got other pointers. -/
structure StaysIn (Q : α → Prop) (heap heap' : ObjectHeap α) : Prop where
  outside : ∀ x, ¬ Q x → heap'.lookup x = heap.lookup x
  pointers : ∀ y x, x ∈ pointers Object.references heap' y →
    x ∈ RefHeap.pointers Object.references heap y

variable {Q : α → Prop} {heap'' : ObjectHeap α}

theorem StaysIn.refl : StaysIn Q heap heap := ⟨fun _ _ => rfl, fun _ _ => id⟩

theorem StaysIn.trans (h : StaysIn Q heap heap') (h' : StaysIn Q heap' heap'') :
    StaysIn Q heap heap'' where
  outside := fun x hx => (h'.outside x hx).trans (h.outside x hx)
  pointers := fun y x hx => h.pointers y x (h'.pointers y x hx)

theorem ClosedIn.stays (h : ClosedIn heap Q) (hstays : StaysIn Q heap heap') :
    ClosedIn heap' Q :=
  fun y x hy hx => h y x hy (hstays.pointers y x hx)

theorem staysIn_insert (hp : Q p) (hc : heap.lookup p = some c) (count : ℤ) :
    StaysIn Q heap (heap.insert p ⟨count, c.object⟩) where
  outside := by
    intro x hx
    refine Finmap.lookup_insert_of_ne _ ?_
    rintro rfl
    exact hx hp
  pointers := by
    intro y x hx
    rwa [pointers_congr (lookup_insert_object hc count y)] at hx

theorem staysIn_free (hp : Q p) (h : free heap p = .ok heap') : StaysIn Q heap heap' := by
  unfold free at h
  cases hc : heap.lookup p with
  | none =>
    simp only [hc] at h
    cases h
  | some c =>
    simp only [hc] at h
    split_ifs at h with hpos
    · cases h
      exact .refl
    · cases h
      refine ⟨fun x hx => Finmap.lookup_erase_ne ?_, fun y x hx => ?_⟩
      · rintro rfl
        exact hx hp
      · have hy := Finmap.mem_erase.1 (mem_of_pointers hx)
        have hsame := Finmap.lookup_erase_ne (s := heap) hy.1
        rwa [pointers_congr (congrArg (Option.map Allocation.object) hsame)] at hx

theorem staysIn_foldlM {f : ObjectHeap α → Option α → Except (Fault α) (ObjectHeap α)}
    (h : ∀ heap p heap', ClosedIn heap Q → (∀ a ∈ p, Q a) → f heap p = .ok heap' →
      StaysIn Q heap heap') {ps : List (Option α)} (hps : ∀ p ∈ ps, ∀ a ∈ p, Q a)
    (hclosed : ClosedIn heap Q) (hrun : ps.foldlM f heap = .ok heap') :
    StaysIn Q heap heap' := by
  induction ps generalizing heap with
  | nil =>
    cases hrun
    exact .refl
  | cons p ps ih =>
    obtain ⟨heap₁, hp, hrest⟩ := bind_ok hrun
    have hstays := h heap p heap₁ hclosed (hps p List.mem_cons_self) hp
    exact hstays.trans (ih (fun q hq => hps q (List.mem_cons_of_mem _ hq))
      (hclosed.stays hstays) hrest)

omit [DecidableEq α] in
theorem mem_live {ps : List (Option α)} (hp : some x ∈ ps) : x ∈ live ps := by
  induction ps with
  | nil => cases hp
  | cons q ps ih =>
    rw [live_cons]
    rcases List.mem_cons.1 hp with rfl | hp
    · exact Multiset.mem_add.2 (.inl (Multiset.mem_singleton_self x))
    · exact Multiset.mem_add.2 (.inr (ih hp))

/-- Releasing what is in a closed set stays in it. -/
theorem decRef_staysIn {p : Option α} (hclosed : ClosedIn heap Q) (hp : ∀ a ∈ p, Q a)
    (h : decRef n heap p = .ok heap') : StaysIn Q heap heap' := by
  induction n generalizing heap p heap' with
  | zero => cases h
  | succ n ih =>
    cases p with
    | none =>
      cases h
      exact .refl
    | some p =>
      have hQ := hp p rfl
      obtain ⟨c, hc⟩ := exists_of_decRef_ok h
      obtain ⟨m, hm, hrun⟩ := decRef_ok h hc
      cases hm
      have hfirst := staysIn_insert hQ hc (c.refCount - 1)
      split_ifs at hrun with hzero hpointers
      · obtain ⟨heap₁, hfinalise, hfree⟩ := bind_ok hrun
        have hps : ∀ q ∈ c.object.decRef, ∀ a ∈ q, Q a := by
          rintro q hq a rfl
          refine hclosed p a hQ ?_
          rw [pointers_of_lookup hc]
          exact mem_live hq
        have hsecond := staysIn_foldlM (fun heap p heap' hclosed hp => ih hclosed hp) hps
          (hclosed.stays hfirst) hfinalise
        exact hfirst.trans (hsecond.trans (staysIn_free hQ hfree))
      · obtain ⟨heap₁, hnone, hfree⟩ := bind_ok hrun
        cases hnone
        exact hfirst.trans (staysIn_free hQ hfree)
      · cases hrun
        exact hfirst

end GC

end InsenseCVM
