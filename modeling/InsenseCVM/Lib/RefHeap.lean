import Mathlib.Data.Finmap
import Mathlib.Algebra.BigOperators.Group.Finset.Basic
import Mathlib.Algebra.Order.BigOperators.Group.Finset
import Mathlib.Algebra.Order.Group.Multiset
import Mathlib.Order.WellFoundedSet

/-!
# Heaps with reference counts

An object has a count and references to other objects, given by `out`.

* `references out heap S R`: the references there are, those in `R` and those of the objects in
  `S`. An object outside of `S` does not hold its references: it is being collected, or they are
  in `R`.
* `Balanced out heap S R`: each count is the number of references to the object, and there are
  references only to what is allocated. One lemma for each primitive change of the heap.
* `Acyclic`: no object reaches itself; `Acyclic.induction` goes along the pointers.
* `Released`: from a counted heap to one with fewer references some objects have been freed, which
  were referenced before, and no object that has lost its last reference is left.
-/

namespace RefHeap

/-- An allocated object with its count. -/
structure Allocation (O : Type*) where
  refCount : ℤ
  object : O
  deriving DecidableEq

/-- The allocated objects by address. -/
abbrev Heap (α O : Type*) := Finmap fun _ : α => Allocation O

variable {α O : Type*} [DecidableEq α] (out : O → Multiset α)

/-- The references of the object at `y`. -/
def pointers (heap : Heap α O) (y : α) : Multiset α :=
  (heap.lookup y).elim 0 fun c => out c.object

def references (heap : Heap α O) (S : Finset α) (R : Multiset α) : Multiset α :=
  R + ∑ y ∈ S, pointers out heap y

structure Balanced (heap : Heap α O) (S : Finset α) (R : Multiset α) : Prop where
  mem : ∀ y ∈ S, y ∈ heap
  count : ∀ x c, heap.lookup x = some c →
    c.refCount = ((references out heap S R).count x : ℕ)
  live : ∀ x ∈ references out heap S R, x ∈ heap

structure Released (heap : Heap α O) (S : Finset α) (R : Multiset α)
    (heap' : Heap α O) (S' : Finset α) (R' : Multiset α) : Prop where
  subset : S' ⊆ S
  allocated : ∀ x, x ∈ heap' ↔ x ∈ heap ∧ (x ∈ S → x ∈ S')
  object : ∀ x c', heap'.lookup x = some c' → ∃ c, heap.lookup x = some c ∧ c.object = c'.object
  le : references out heap' S' R' ≤ references out heap S R
  freed : ∀ x ∈ S, x ∉ S' → x ∈ references out heap S R
  kept : ∀ x ∈ heap', x ∈ references out heap S R → x ∈ references out heap' S' R'

variable {out} {heap heap' heap'' : Heap α O} {S S' S'' : Finset α} {R R' R'' : Multiset α}
  {p x y : α} {c : Allocation O} {o : O}

/-! ### References -/

theorem pointers_of_lookup (h : heap.lookup y = some c) : pointers out heap y = out c.object := by
  unfold pointers
  rw [h]
  rfl

theorem pointers_congr (h : (heap.lookup y).map Allocation.object = (heap'.lookup y).map Allocation.object) :
    pointers out heap y = pointers out heap' y := by
  unfold pointers
  cases hy : heap.lookup y with
  | none =>
    cases hy' : heap'.lookup y with
    | none => rfl
    | some c' => simp [hy, hy'] at h
  | some c =>
    cases hy' : heap'.lookup y with
    | none => simp [hy, hy'] at h
    | some c' =>
      have hobject : c.object = c'.object := by simpa [hy, hy'] using h
      simp [hobject]

theorem mem_of_pointers (h : x ∈ pointers out heap y) : y ∈ heap := by
  by_contra hy
  unfold pointers at h
  rw [Finmap.lookup_eq_none.2 hy] at h
  simp at h

theorem mem_references : x ∈ references out heap S R ↔
    x ∈ R ∨ ∃ y ∈ S, x ∈ pointers out heap y := by
  unfold references
  rw [Multiset.mem_add, Multiset.mem_sum]

theorem references_cons : references out heap S (p ::ₘ R) = p ::ₘ references out heap S R := by
  unfold references
  exact Multiset.cons_add ..

theorem references_congr (h : ∀ y ∈ S, pointers out heap y = pointers out heap' y) :
    references out heap S R = references out heap' S R := by
  unfold references
  rw [Finset.sum_congr rfl h]

/-- The references of one object in `S`, counted with those in `R`. -/
theorem references_erase (h : p ∈ S) :
    references out heap (S.erase p) (pointers out heap p + R) = references out heap S R := by
  unfold references
  rw [← Finset.add_sum_erase S _ h, add_comm _ R, add_assoc]

/-! ### Acyclic heaps -/

variable (out) in
def PointsTo (heap : Heap α O) (y x : α) : Prop := x ∈ pointers out heap y

variable (out) in
def Acyclic (heap : Heap α O) : Prop := ∀ x, ¬ Relation.TransGen (PointsTo out heap) x x

/-- What passes on along pointers, and holds where none lead to, holds of all objects. -/
theorem Acyclic.induction (h : Acyclic out heap) {P : α → Prop}
    (hstep : ∀ x ∈ heap, (∀ y, PointsTo out heap y x → P y) → P x) : ∀ x ∈ heap, P x := by
  have hirrefl : Std.Irrefl (Relation.TransGen (PointsTo out heap)) := ⟨h⟩
  have htrans : IsTrans α (Relation.TransGen (PointsTo out heap)) :=
    ⟨fun _ _ _ hxy hyz => hxy.trans hyz⟩
  have horder : IsStrictOrder α (Relation.TransGen (PointsTo out heap)) := {}
  have hwf : (heap.keys : Set α).WellFoundedOn (Relation.TransGen (PointsTo out heap)) :=
    heap.keys.finite_toSet.wellFoundedOn
  intro x hx
  refine hwf.induction (P := P) (Finmap.mem_keys.2 hx) fun x hx ih => ?_
  refine hstep x (Finmap.mem_keys.1 hx) fun y hy => ?_
  exact ih y (Finmap.mem_keys.2 (mem_of_pointers hy)) (.single hy)

/-- A new pointer closes no cycle when what it leads to does not lead back. -/
theorem Acyclic.add_pointer {a b : α} (h : Acyclic out heap)
    (hpointer : ∀ y x, PointsTo out heap' y x → PointsTo out heap y x ∨ y = a ∧ x = b)
    (hback : ¬ Relation.ReflTransGen (PointsTo out heap) b a) : Acyclic out heap' := by
  -- a path with the new pointer in it goes to `a` first, and on from `b`
  have hpath : ∀ y x, Relation.TransGen (PointsTo out heap') y x →
      Relation.TransGen (PointsTo out heap) y x ∨
        Relation.ReflTransGen (PointsTo out heap) y a ∧
          Relation.ReflTransGen (PointsTo out heap) b x := by
    intro y x hyx
    induction hyx with
    | single hstep =>
      rcases hpointer _ _ hstep with hold | ⟨rfl, rfl⟩
      · exact .inl (.single hold)
      · exact .inr ⟨.refl, .refl⟩
    | tail _ hstep ih =>
      rcases hpointer _ _ hstep with hold | ⟨rfl, rfl⟩
      · rcases ih with hyx | ⟨hya, hbx⟩
        · exact .inl (hyx.tail hold)
        · exact .inr ⟨hya, hbx.tail hold⟩
      · rcases ih with hyx | ⟨hya, hbx⟩
        · exact .inr ⟨hyx.to_reflTransGen, .refl⟩
        · exact absurd hbx hback
  intro x hx
  rcases hpath x x hx with hcycle | ⟨hxa, hbx⟩
  · exact h x hcycle
  · exact hback (hbx.trans hxa)

/-- Where every object is referenced, each can be reached from the references outside of the
heap. -/
theorem Acyclic.reachable (h : Acyclic out heap)
    (hreferenced : ∀ x ∈ heap, x ∈ references out heap S R) :
    ∀ x ∈ heap, ∃ r ∈ R, Relation.ReflTransGen (PointsTo out heap) r x := by
  refine h.induction fun x hx ih => ?_
  rcases mem_references.1 (hreferenced x hx) with hroot | ⟨y, -, hpointer⟩
  · exact ⟨x, hroot, .refl⟩
  · obtain ⟨r, hr, hpath⟩ := ih y hpointer
    exact ⟨r, hr, hpath.tail hpointer⟩

/-- What can be reached from the references outside of the heap is allocated. -/
theorem Balanced.mem_of_reachable (h : Balanced out heap heap.keys R) (hp : p ∈ R)
    (hpath : Relation.ReflTransGen (PointsTo out heap) p x) : x ∈ heap := by
  cases hpath with
  | refl => exact h.live _ (mem_references.2 (.inl hp))
  | tail _ hpointer =>
    have hy := Finmap.mem_keys.2 (mem_of_pointers hpointer)
    exact h.live _ (mem_references.2 (.inr ⟨_, hy, hpointer⟩))

/-- Along each pointer the rank grows. -/
theorem acyclic_of_rank (rank : α → ℕ)
    (h : ∀ y ∈ heap.keys, ∀ x ∈ pointers out heap y, rank y < rank x) : Acyclic out heap := by
  have hlt : ∀ {y x}, Relation.TransGen (PointsTo out heap) y x → rank y < rank x := by
    intro y x hyx
    induction hyx with
    | single hpointer => exact h y (Finmap.mem_keys.2 (mem_of_pointers hpointer)) _ hpointer
    | tail _ hpointer ih =>
      exact ih.trans (h _ (Finmap.mem_keys.2 (mem_of_pointers hpointer)) _ hpointer)
  exact fun x hx => (hlt hx).false

/-! ### Changes of the heap -/

theorem lookup_insert_object (h : heap.lookup p = some c) (n : ℤ) (y : α) :
    ((heap.insert p ⟨n, c.object⟩).lookup y).map Allocation.object =
      (heap.lookup y).map Allocation.object := by
  by_cases hy : y = p
  · subst hy
    rw [Finmap.lookup_insert, h]
    rfl
  · rw [Finmap.lookup_insert_of_ne _ hy]

/-- A count is no reference. -/
theorem references_insert_count (h : heap.lookup p = some c) (n : ℤ) :
    references out (heap.insert p ⟨n, c.object⟩) S R = references out heap S R :=
  references_congr fun y _ => pointers_congr (lookup_insert_object h n y)

theorem mem_insert_of_lookup (h : heap.lookup p = some c) {c' : Allocation O} :
    x ∈ heap.insert p c' ↔ x ∈ heap := by
  rw [Finmap.mem_insert]
  constructor
  · rintro (rfl | hx)
    · exact Finmap.mem_of_lookup_eq_some h
    · exact hx
  · exact .inr

/-- One reference to `p` is given up. -/
theorem Balanced.decrement (h : Balanced out heap S (p ::ₘ R)) (hc : heap.lookup p = some c) :
    Balanced out (heap.insert p ⟨c.refCount - 1, c.object⟩) S R where
  mem := fun y hy => (mem_insert_of_lookup hc).2 (h.mem y hy)
  count := by
    intro x d hd
    rw [references_insert_count hc]
    by_cases hx : x = p
    · subst hx
      rw [Finmap.lookup_insert] at hd
      cases hd
      have hcount := h.count x c hc
      rw [references_cons, Multiset.count_cons_self] at hcount
      show c.refCount - 1 = _
      push_cast at hcount
      omega
    · rw [Finmap.lookup_insert_of_ne _ hx] at hd
      have hcount := h.count x d hd
      rwa [references_cons, Multiset.count_cons_of_ne hx] at hcount
  live := by
    intro x hx
    rw [references_insert_count hc] at hx
    refine (mem_insert_of_lookup hc).2 (h.live x ?_)
    rw [references_cons]
    exact Multiset.mem_cons_of_mem hx

/-- One more reference to `p` is taken. -/
theorem Balanced.increment (h : Balanced out heap S R) (hc : heap.lookup p = some c) :
    Balanced out (heap.insert p ⟨c.refCount + 1, c.object⟩) S (p ::ₘ R) where
  mem := fun y hy => (mem_insert_of_lookup hc).2 (h.mem y hy)
  count := by
    intro x d hd
    rw [references_insert_count hc, references_cons]
    by_cases hx : x = p
    · subst hx
      rw [Finmap.lookup_insert] at hd
      cases hd
      have hcount := h.count x c hc
      rw [Multiset.count_cons_self]
      show c.refCount + 1 = _
      push_cast
      omega
    · rw [Finmap.lookup_insert_of_ne _ hx] at hd
      rw [Multiset.count_cons_of_ne hx]
      exact h.count x d hd
  live := by
    intro x hx
    rw [references_insert_count hc, references_cons, Multiset.mem_cons] at hx
    refine (mem_insert_of_lookup hc).2 ?_
    rcases hx with rfl | hx
    · exact Finmap.mem_of_lookup_eq_some hc
    · exact h.live x hx

/-- The references of `p` are put with those in `R`. -/
theorem Balanced.open (h : Balanced out heap S R) (hp : p ∈ S) :
    Balanced out heap (S.erase p) (pointers out heap p + R) where
  mem := fun y hy => h.mem y (Finset.mem_of_mem_erase hy)
  count := by
    rw [references_erase hp]
    exact h.count
  live := by
    rw [references_erase hp]
    exact h.live

theorem pointers_insert_of_ne (h : y ≠ p) {c' : Allocation O} :
    pointers out (heap.insert p c') y = pointers out heap y := by
  refine pointers_congr ?_
  rw [Finmap.lookup_insert_of_ne _ h]

/-- An object that does not hold its references may change them. -/
theorem Balanced.write (h : Balanced out heap S R) (hc : heap.lookup p = some c) (hp : p ∉ S)
    (o : O) : Balanced out (heap.insert p ⟨c.refCount, o⟩) S R := by
  have hreferences : references out (heap.insert p ⟨c.refCount, o⟩) S R =
      references out heap S R :=
    references_congr fun y hy => pointers_insert_of_ne (ne_of_mem_of_not_mem hy hp)
  refine ⟨fun y hy => (mem_insert_of_lookup hc).2 (h.mem y hy), fun x d hd => ?_, fun x hx => ?_⟩
  · rw [hreferences]
    by_cases hx : x = p
    · subst hx
      rw [Finmap.lookup_insert] at hd
      cases hd
      exact h.count x c hc
    · rw [Finmap.lookup_insert_of_ne _ hx] at hd
      exact h.count x d hd
  · rw [hreferences] at hx
    exact (mem_insert_of_lookup hc).2 (h.live x hx)

theorem references_erase_heap (hp : p ∉ S) :
    references out (heap.erase p) S R = references out heap S R := by
  refine references_congr fun y hy => pointers_congr ?_
  rw [Finmap.lookup_erase_ne (ne_of_mem_of_not_mem hy hp)]

/-- What nobody refers to can be freed. -/
theorem Balanced.free (h : Balanced out heap S R) (hp : p ∉ S) (hunreferenced :
    p ∉ references out heap S R) : Balanced out (heap.erase p) S R where
  mem := fun y hy => Finmap.mem_erase.2 ⟨ne_of_mem_of_not_mem hy hp, h.mem y hy⟩
  count := by
    intro x d hd
    rw [references_erase_heap hp]
    have hx : x ≠ p := by
      rintro rfl
      rw [Finmap.lookup_erase] at hd
      cases hd
    rw [Finmap.lookup_erase_ne hx] at hd
    exact h.count x d hd
  live := by
    intro x hx
    rw [references_erase_heap hp] at hx
    exact Finmap.mem_erase.2 ⟨ne_of_mem_of_not_mem hx hunreferenced, h.live x hx⟩

/-- An object that has no pointers yet. -/
theorem pointsTo_insert_new (hp : p ∉ heap) (ho : out o = 0) (n : ℤ) :
    PointsTo out (heap.insert p ⟨n, o⟩) y x ↔ PointsTo out heap y x := by
  unfold PointsTo
  by_cases hy : y = p
  · subst hy
    rw [pointers_of_lookup (Finmap.lookup_insert ..), ho]
    exact ⟨fun hx => absurd hx (Multiset.notMem_zero x), fun hx => absurd (mem_of_pointers hx) hp⟩
  · rw [pointers_insert_of_ne hy]

theorem references_insert_new (h : Balanced out heap S R) (hp : p ∉ heap) (ho : out o = 0) (n : ℤ) :
    references out (heap.insert p ⟨n, o⟩) (insert p S) (p ::ₘ R) =
      p ::ₘ references out heap S R := by
  have hS : p ∉ S := fun hmem => hp (h.mem p hmem)
  have hsum : ∑ y ∈ S, pointers out (heap.insert p ⟨n, o⟩) y = ∑ y ∈ S, pointers out heap y :=
    Finset.sum_congr rfl fun y hy => pointers_insert_of_ne (ne_of_mem_of_not_mem hy hS)
  unfold references
  rw [Finset.sum_insert hS, pointers_of_lookup (Finmap.lookup_insert ..), ho, zero_add, hsum,
    Multiset.cons_add]

/-- A new object with the one reference that there is to it. -/
theorem Balanced.alloc (h : Balanced out heap S R) (hp : p ∉ heap) (ho : out o = 0) :
    Balanced out (heap.insert p ⟨1, o⟩) (insert p S) (p ::ₘ R) where
  mem := by
    intro y hy
    rw [Finmap.mem_insert]
    exact (Finset.mem_insert.1 hy).imp_right (h.mem y)
  count := by
    intro x c hc
    rw [references_insert_new h hp ho]
    by_cases hx : x = p
    · subst hx
      rw [Finmap.lookup_insert] at hc
      cases hc
      rw [Multiset.count_cons_self, Multiset.count_eq_zero.2 fun hmem => hp (h.live x hmem)]
      rfl
    · rw [Finmap.lookup_insert_of_ne _ hx] at hc
      rw [Multiset.count_cons_of_ne hx]
      exact h.count x c hc
  live := by
    intro x hx
    rw [references_insert_new h hp ho, Multiset.mem_cons] at hx
    rw [Finmap.mem_insert]
    exact hx.imp_right (h.live x)

/-! ### Releasing references -/

theorem Released.refl : Released out heap S R heap S R where
  subset := Finset.Subset.refl S
  allocated := fun _ => ⟨fun hx => ⟨hx, id⟩, And.left⟩
  object := fun _ c hc => ⟨c, hc, rfl⟩
  le := le_refl _
  freed := fun _ hx hnot => absurd hx hnot
  kept := fun _ _ hx => hx

theorem Released.mem (h : Released out heap S R heap' S' R') (hx : x ∈ heap') : x ∈ heap :=
  ((h.allocated x).1 hx).1

theorem Released.pointers_eq (h : Released out heap S R heap' S' R') (hy : y ∈ heap') :
    pointers out heap' y = pointers out heap y := by
  obtain ⟨c', hc'⟩ := Finmap.mem_iff.1 hy
  obtain ⟨c, hc, hobject⟩ := h.object y c' hc'
  rw [pointers_of_lookup hc', pointers_of_lookup hc, hobject]

theorem Released.mem_pointers (h : Released out heap S R heap' S' R')
    (hx : x ∈ pointers out heap' y) : x ∈ pointers out heap y := by
  rwa [h.pointers_eq (mem_of_pointers hx)] at hx

theorem Released.mem_references (h : Released out heap S R heap' S' R')
    (hx : x ∈ references out heap' S' R') : x ∈ references out heap S R :=
  Multiset.mem_of_le h.le hx

theorem Released.trans (h : Released out heap S R heap' S' R')
    (h' : Released out heap' S' R' heap'' S'' R'') : Released out heap S R heap'' S'' R'' where
  subset := h'.subset.trans h.subset
  allocated := by
    intro x
    rw [h'.allocated, h.allocated]
    constructor
    · rintro ⟨⟨hx, hS⟩, hS'⟩
      exact ⟨hx, fun hmem => hS' (hS hmem)⟩
    · rintro ⟨hx, hS⟩
      exact ⟨⟨hx, fun hmem => h'.subset (hS hmem)⟩, fun hmem => hS (h.subset hmem)⟩
  object := by
    intro x c'' hc''
    obtain ⟨c', hc', hobject'⟩ := h'.object x c'' hc''
    obtain ⟨c, hc, hobject⟩ := h.object x c' hc'
    exact ⟨c, hc, hobject.trans hobject'⟩
  le := h'.le.trans h.le
  freed := by
    intro x hx hnot
    by_cases hmem : x ∈ S'
    · exact h.mem_references (h'.freed x hmem hnot)
    · exact h.freed x hx hmem
  kept := fun x hx hmem => h'.kept x hx (h.kept x (h'.mem hx) hmem)

/-- A reference is given up that was not the last one. -/
theorem Released.decrement (hc : heap.lookup p = some c)
    (hp : p ∈ references out heap S R) :
    Released out heap S (p ::ₘ R) (heap.insert p ⟨c.refCount - 1, c.object⟩) S R where
  subset := Finset.Subset.refl S
  allocated := fun x => (mem_insert_of_lookup hc).trans ⟨fun hx => ⟨hx, id⟩, And.left⟩
  object := by
    intro x c' hc'
    have hobject := lookup_insert_object hc (c.refCount - 1) x
    rw [hc'] at hobject
    cases hx : heap.lookup x with
    | none => simp [hx] at hobject
    | some d =>
      refine ⟨d, rfl, ?_⟩
      simpa [hx] using hobject.symm
  le := by
    rw [references_insert_count hc, references_cons]
    exact Multiset.le_cons_self ..
  freed := fun x hx hnot => absurd hx hnot
  kept := by
    intro x _ hx
    rw [references_insert_count hc]
    rw [references_cons, Multiset.mem_cons] at hx
    rcases hx with rfl | hx
    · exact hp
    · exact hx

/-- The last reference to `p` is given up, then those that `p` has, and `p` is freed. -/
theorem Released.collect (hc : heap.lookup p = some c) (hp : p ∈ S)
    (hlast : p ∉ references out heap S R)
    (h : Released out (heap.insert p ⟨c.refCount - 1, c.object⟩) (S.erase p)
      (pointers out heap p + R) heap' S' R) :
    Released out heap S (p ::ₘ R) (heap'.erase p) S' R := by
  have hS' : p ∉ S' := fun hmem => (Finset.mem_erase.1 (h.subset hmem)).1 rfl
  -- until `p` is freed, its references are among those that are there
  have hsame : references out (heap.insert p ⟨c.refCount - 1, c.object⟩) (S.erase p)
      (pointers out heap p + R) = references out heap S R := by
    rw [references_insert_count hc, references_erase hp]
  refine ⟨fun x hx => Finset.mem_of_mem_erase (h.subset hx), fun x => ?_, fun x c' hc' => ?_, ?_,
    fun x hx hnot => ?_, fun x hx hmem => ?_⟩
  · rw [Finmap.mem_erase, h.allocated, mem_insert_of_lookup hc, Finset.mem_erase]
    constructor
    · rintro ⟨hne, hx, hS⟩
      exact ⟨hx, fun hmem => hS ⟨hne, hmem⟩⟩
    · rintro ⟨hx, hS⟩
      have hne : x ≠ p := by
        rintro rfl
        exact hS' (hS hp)
      exact ⟨hne, hx, fun hmem => hS hmem.2⟩
  · have hne : x ≠ p := by
      rintro rfl
      rw [Finmap.lookup_erase] at hc'
      cases hc'
    rw [Finmap.lookup_erase_ne hne] at hc'
    obtain ⟨d, hd, hobject⟩ := h.object x c' hc'
    rw [Finmap.lookup_insert_of_ne _ hne] at hd
    exact ⟨d, hd, hobject⟩
  · rw [references_erase_heap hS', references_cons]
    refine h.le.trans ?_
    rw [hsame]
    exact Multiset.le_cons_self ..
  · rw [references_cons, Multiset.mem_cons]
    by_cases hne : x = p
    · exact .inl hne
    · right
      rw [← hsame]
      exact h.freed x (Finset.mem_erase.2 ⟨hne, hx⟩) hnot
  · obtain ⟨hne, hx⟩ := Finmap.mem_erase.1 hx
    rw [references_erase_heap hS']
    rw [references_cons, Multiset.mem_cons] at hmem
    refine h.kept x hx ?_
    rw [hsame]
    exact hmem.resolve_left hne

end RefHeap
