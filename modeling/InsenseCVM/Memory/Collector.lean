import InsenseCVM.Lib.RefHeap

/-!
# The collector

`GC/GC_mem_common.c` over a heap of the structures that contain counted pointers. `decRef`
recurses through the finalisers of these structures; `fuel` bounds its depth, and
`decRef_released` says that one more than the number of objects is enough.

Each structure has as its finaliser a function that calls `GC_decRef` on its pointers, one after
the other. The nodes of an `IteratedList` are referenced by the list: its finaliser releases them in
the order of the chain, that of a node only the payload.
-/

namespace InsenseCVM

namespace GC

open RefHeap

/-- What `GC_alloc` is called for. -/
inductive Object (α : Type)
  /-- Memory without pointers: numbers and strings. -/
  | plain
  | typedObject (type : UInt8) (object : Option α)
  | listMapEntry (key value : Option α)
  | stackEntry (object : Option α)
  | iteratedListNode (payload : Option α)
  | iteratedList (nodes : List α)
  | procedure (name parameterNames : Option α)
  deriving DecidableEq

variable {α : Type}

/-- The second argument of `GC_alloc`. -/
def Object.memContainsPointers : Object α → Bool
  | .plain => false
  | _ => true

/-- The pointers that the function in the field `decRef` releases. -/
def Object.decRef : Object α → List (Option α)
  | .plain => []
  | .typedObject _ object => [object]
  | .listMapEntry key value => [key, value]
  | .stackEntry object => [object]
  | .iteratedListNode payload => [payload]
  | .iteratedList nodes => nodes.map some
  | .procedure name parameterNames => [name, parameterNames]

/-- The references among some pointers: those that are not null. -/
def live (pointers : List (Option α)) : Multiset α := pointers.reduceOption

def Object.references (o : Object α) : Multiset α := live o.decRef

inductive Fault (α : Type)
  /-- Memory is used that is not allocated, or no longer. -/
  | freed (pntr : α)
  /-- A pointer is followed that does not lead where it should. -/
  | nowhere
  /-- The recursion is deeper than the model follows it. -/
  | depth
  deriving DecidableEq

variable [DecidableEq α]

abbrev ObjectHeap (α : Type) := Heap α (Object α)

def free (heap : ObjectHeap α) (pntr : α) : Except (Fault α) (ObjectHeap α) :=
  match heap.lookup pntr with
  | none => .error (.freed pntr)
  | some c => if 0 < c.refCount then .ok heap else .ok (heap.erase pntr)

def decRef : ℕ → ObjectHeap α → Option α → Except (Fault α) (ObjectHeap α)
  | 0, _, _ => .error .depth
  | _ + 1, heap, none => .ok heap
  | n + 1, heap, some pntr =>
    match heap.lookup pntr with
    | none => .error (.freed pntr)
    | some c =>
      let heap := heap.insert pntr ⟨c.refCount - 1, c.object⟩
      if c.refCount - 1 ≤ 0 then
        (if c.object.memContainsPointers = true then c.object.decRef.foldlM (decRef n) heap
          else .ok heap) >>= fun heap => free heap pntr
      else .ok heap

def incRef (heap : ObjectHeap α) : Option α → Except (Fault α) (ObjectHeap α)
  | none => .ok heap
  | some pntr =>
    match heap.lookup pntr with
    | none => .error (.freed pntr)
    | some c => .ok (heap.insert pntr ⟨c.refCount + 1, c.object⟩)

/-! ### Live pointers -/

omit [DecidableEq α] in
@[simp] theorem live_nil : live ([] : List (Option α)) = 0 := rfl

omit [DecidableEq α] in
@[simp] theorem live_cons_none (ps : List (Option α)) : live (none :: ps) = live ps := rfl

omit [DecidableEq α] in
@[simp] theorem live_cons_some (p : α) (ps : List (Option α)) :
    live (some p :: ps) = p ::ₘ live ps := rfl

omit [DecidableEq α] in
theorem live_cons (p : Option α) (ps : List (Option α)) : live (p :: ps) = live [p] + live ps := by
  cases p with
  | none => simp
  | some p => simp

omit [DecidableEq α] in
theorem Object.references_of_plain {o : Object α} (h : o.memContainsPointers = false) :
    o.decRef = [] := by
  cases o with
  | plain => rfl
  | _ => cases h

/-! ### What `GC_decRef` does -/

/-- The cascade meets only objects that satisfy `Q`, and those of them that are referenced hold
their own references. -/
structure Meets (Q : α → Prop) (heap : ObjectHeap α) (S : Finset α) (R : Multiset α) : Prop where
  closed : ∀ y x, Q y → x ∈ pointers Object.references heap y → Q x
  holds : ∀ x ∈ references Object.references heap S R, Q x → x ∈ S

variable {Q : α → Prop} {heap heap' : ObjectHeap α} {S S' : Finset α} {R R' : Multiset α} {p : α}

theorem Meets.released (h : Meets Q heap S R)
    (hreleased : Released Object.references heap S R heap' S' R')
    (hcounted : Balanced Object.references heap' S' R') : Meets Q heap' S' R' where
  closed := fun y x hy hx => h.closed y x hy (hreleased.mem_pointers hx)
  holds := by
    intro x hx hQ
    have hS := h.holds x (hreleased.mem_references hx) hQ
    exact ((hreleased.allocated x).1 (hcounted.live x hx)).2 hS

/-- What a call of `GC_decRef` is to do, however deep it may recurse from `n` on. -/
def Decrements (n : ℕ) (Q : α → Prop) : Prop :=
  ∀ (heap : ObjectHeap α) (S : Finset α) (R : Multiset α) (p : α), S.card < n → Q p →
    Balanced Object.references heap S (p ::ₘ R) → Meets Q heap S (p ::ₘ R) →
    ∃ heap' S', (∀ k ≥ n, decRef k heap (some p) = .ok heap') ∧
      Balanced Object.references heap' S' R ∧
      Released Object.references heap S (p ::ₘ R) heap' S' R

theorem Decrements.foldlM {n : ℕ} (h : Decrements n Q) {ps : List (Option α)} (hn : S.card < n)
    (hQ : ∀ p ∈ live ps, Q p) (hcounted : Balanced Object.references heap S (live ps + R))
    (hmeets : Meets Q heap S (live ps + R)) :
    ∃ heap' S', (∀ k ≥ n, ps.foldlM (decRef k) heap = .ok heap') ∧
      Balanced Object.references heap' S' R ∧
      Released Object.references heap S (live ps + R) heap' S' R := by
  induction ps generalizing heap S with
  | nil =>
    rw [live_nil, zero_add] at hcounted ⊢
    exact ⟨heap, S, fun _ _ => rfl, hcounted, .refl⟩
  | cons p ps ih =>
    cases p with
    | none =>
      rw [live_cons_none] at hQ hcounted hmeets ⊢
      obtain ⟨heap', S', hrun, hcounted', hreleased⟩ := ih hn hQ hcounted hmeets
      refine ⟨heap', S', fun k hk => ?_, hcounted', hreleased⟩
      obtain ⟨k, rfl⟩ := Nat.exists_eq_add_one.2 (by omega : 0 < k)
      exact hrun (k + 1) hk
    | some p =>
      rw [live_cons_some] at hQ hcounted hmeets ⊢
      rw [Multiset.cons_add] at hcounted hmeets ⊢
      obtain ⟨heap₁, S₁, hrun₁, hcounted₁, hreleased₁⟩ :=
        h heap S (live ps + R) p hn (hQ p (Multiset.mem_cons_self ..)) hcounted hmeets
      have hn₁ := (Finset.card_le_card hreleased₁.subset).trans_lt hn
      obtain ⟨heap', S', hrun, hcounted', hreleased⟩ := ih hn₁
        (fun q hq => hQ q (Multiset.mem_cons_of_mem hq)) hcounted₁
        (hmeets.released hreleased₁ hcounted₁)
      refine ⟨heap', S', fun k hk => ?_, hcounted', hreleased₁.trans hreleased⟩
      rw [List.foldlM_cons, hrun₁ k hk]
      exact hrun k hk

/-- The finaliser of an object runs, or there is none. -/
theorem Decrements.finalise {n : ℕ} (h : Decrements n Q) {o : Object α} (hn : S.card < n)
    (hQ : ∀ p ∈ o.references, Q p) (hcounted : Balanced Object.references heap S (o.references + R))
    (hmeets : Meets Q heap S (o.references + R)) :
    ∃ heap' S', (∀ k ≥ n,
      (if o.memContainsPointers = true then o.decRef.foldlM (decRef k) heap else .ok heap) =
        .ok heap') ∧
      Balanced Object.references heap' S' R ∧
      Released Object.references heap S (o.references + R) heap' S' R := by
  obtain ⟨heap', S', hrun, hcounted', hreleased⟩ := h.foldlM hn hQ hcounted hmeets
  refine ⟨heap', S', fun k hk => ?_, hcounted', hreleased⟩
  by_cases hpointers : o.memContainsPointers = true
  · rw [if_pos hpointers]
    exact hrun k hk
  · rw [if_neg hpointers, ← hrun k hk, Object.references_of_plain (by simpa using hpointers)]
    rfl

theorem free_unreferenced (h : Balanced Object.references heap S R) (hp : p ∈ heap)
    (hunreferenced : p ∉ references Object.references heap S R) :
    free heap p = .ok (heap.erase p) := by
  obtain ⟨c, hc⟩ := Finmap.mem_iff.1 hp
  have hcount := h.count p c hc
  rw [Multiset.count_eq_zero.2 hunreferenced] at hcount
  simp only [free, hc]
  rw [if_neg (by simp [hcount])]

/-- The last reference to an object is given up: while its finaliser runs, it is taken out of the
objects that hold their references. -/
theorem Decrements.collect {n : ℕ} (h : Decrements n Q) {c : Allocation (Object α)} (hn : S.card ≤ n)
    (hQ : Q p) (hcounted : Balanced Object.references heap S (p ::ₘ R))
    (hmeets : Meets Q heap S (p ::ₘ R)) (hc : heap.lookup p = some c) (hS : p ∈ S)
    (hlast : p ∉ references Object.references heap S R) :
    ∃ heap' S', (∀ k ≥ n, ((if c.object.memContainsPointers = true then
          c.object.decRef.foldlM (decRef k) (heap.insert p ⟨c.refCount - 1, c.object⟩)
        else .ok (heap.insert p ⟨c.refCount - 1, c.object⟩)) >>=
          fun heap => free heap p) = .ok heap') ∧
      Balanced Object.references heap' S' R ∧
      Released Object.references heap S (p ::ₘ R) heap' S' R := by
  have hsame := lookup_insert_object hc (c.refCount - 1)
  have hpointers : pointers Object.references (heap.insert p ⟨c.refCount - 1, c.object⟩) p =
      c.object.references := by
    rw [pointers_congr (hsame p), pointers_of_lookup hc]
  -- the references of the object are now those of its finaliser
  have hopen := (hcounted.decrement hc).open hS
  rw [hpointers] at hopen
  have hreferences : references Object.references (heap.insert p ⟨c.refCount - 1, c.object⟩)
      (S.erase p) (c.object.references + R) = references Object.references heap S R := by
    rw [← hpointers, references_erase hS, references_insert_count hc]
  have hmeets' : Meets Q (heap.insert p ⟨c.refCount - 1, c.object⟩) (S.erase p)
      (c.object.references + R) := by
    refine ⟨fun y x hy hx => ?_, fun x hx hQx => ?_⟩
    · rw [pointers_congr (hsame y)] at hx
      exact hmeets.closed y x hy hx
    · rw [hreferences] at hx
      refine Finset.mem_erase.2 ⟨ne_of_mem_of_not_mem hx hlast, hmeets.holds x ?_ hQx⟩
      rw [references_cons]
      exact Multiset.mem_cons_of_mem hx
  have hcard : (S.erase p).card < n := (Finset.card_erase_lt_of_mem hS).trans_le hn
  have hQ' : ∀ x ∈ c.object.references, Q x := by
    intro x hx
    refine hmeets.closed p x hQ ?_
    rw [pointers_of_lookup hc]
    exact hx
  obtain ⟨heap', S', hrun, hcounted', hreleased⟩ := h.finalise hcard hQ' hopen hmeets'
  have hS' : p ∉ S' := fun hmem => (Finset.mem_erase.1 (hreleased.subset hmem)).1 rfl
  -- what the finaliser runs does not come back to the object, so nothing refers to it at the free
  have hunreferenced : p ∉ references Object.references heap' S' R := by
    intro hmem
    rw [← hreferences] at hlast
    exact hlast (hreleased.mem_references hmem)
  have hp : p ∈ heap' := by
    refine (hreleased.allocated p).2 ⟨Finmap.mem_insert.2 (.inl rfl), fun hmem => ?_⟩
    exact absurd rfl (Finset.mem_erase.1 hmem).1
  refine ⟨heap'.erase p, S', fun k hk => ?_, hcounted'.free hS' hunreferenced, ?_⟩
  · rw [hrun k hk]
    exact free_unreferenced hcounted' hp hunreferenced
  · refine Released.collect hc hS hlast ?_
    rw [pointers_of_lookup hc]
    exact hreleased

theorem decrements (n : ℕ) : Decrements n Q := by
  induction n with
  | zero => exact fun heap S R p hn => absurd hn (Nat.not_lt_zero _)
  | succ n ih =>
    intro heap S R p hn hQ hcounted hmeets
    have hmem : p ∈ references Object.references heap S (p ::ₘ R) := by
      rw [references_cons]
      exact Multiset.mem_cons_self ..
    have hS := hmeets.holds p hmem hQ
    obtain ⟨c, hc⟩ := Finmap.mem_iff.1 (hcounted.live p hmem)
    have hcount := hcounted.count p c hc
    rw [references_cons, Multiset.count_cons_self] at hcount
    by_cases hlast : p ∈ references Object.references heap S R
    · have hpos := Multiset.count_pos.2 hlast
      refine ⟨_, S, fun k hk => ?_, hcounted.decrement hc, Released.decrement hc hlast⟩
      obtain ⟨k, rfl⟩ := Nat.exists_eq_add_one.2 (Nat.zero_lt_of_lt hk)
      simp only [decRef, hc]
      rw [if_neg (by omega)]
    · obtain ⟨heap', S', hrun, hcounted', hreleased⟩ :=
        ih.collect (Nat.le_of_lt_succ hn) hQ hcounted hmeets hc hS hlast
      refine ⟨heap', S', fun k hk => ?_, hcounted', hreleased⟩
      obtain ⟨k, rfl⟩ := Nat.exists_eq_add_one.2 (Nat.zero_lt_of_lt hk)
      have hzero : c.refCount - 1 ≤ 0 := by
        rw [Multiset.count_eq_zero.2 hlast] at hcount
        omega
      simp only [decRef, hc]
      rw [if_pos hzero]
      exact hrun k (by omega)

/-- **Giving up one of the references of a heap in which the counts are exact leaves one in which
they are exact, and frees what has lost its last reference, however deep that goes.** -/
theorem decRef_released (hQ : Q p) (h : Balanced Object.references heap S (p ::ₘ R))
    (hmeets : Meets Q heap S (p ::ₘ R)) :
    ∃ heap' S', (∀ k > S.card, decRef k heap (some p) = .ok heap') ∧
      Balanced Object.references heap' S' R ∧
      Released Object.references heap S (p ::ₘ R) heap' S' R :=
  decrements (S.card + 1) heap S R p (Nat.lt_succ_self _) hQ h hmeets

end GC

end InsenseCVM
