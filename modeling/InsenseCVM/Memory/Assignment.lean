import InsenseCVM.Memory.Collector

/-!
# Assignments

`GC_assign` on a variable or on a field of a structure. The reference to the old memory is given up
before one to the new memory is taken, so that an object goes away that only the old one referred
to. `assign_keeps_counts_iff` says exactly when the new object is still there.
-/

namespace InsenseCVM

namespace GC

open RefHeap Relation

/-- The fields that a structure declares for its pointers. -/
inductive Field
  | object
  | key
  | value
  | payload
  | name
  | parameterNames
  deriving DecidableEq

variable {α : Type}

def Object.get : Object α → Field → Option (Option α)
  | .typedObject _ object, .object => some object
  | .listMapEntry key _, .key => some key
  | .listMapEntry _ value, .value => some value
  | .stackEntry object, .object => some object
  | .iteratedListNode payload, .payload => some payload
  | .procedure name _, .name => some name
  | .procedure _ parameterNames, .parameterNames => some parameterNames
  | _, _ => none

def Object.set : Object α → Field → Option α → Object α
  | .typedObject type _, .object, p => .typedObject type p
  | .listMapEntry _ value, .key, p => .listMapEntry p value
  | .listMapEntry key _, .value, p => .listMapEntry key p
  | .stackEntry _, .object, p => .stackEntry p
  | .iteratedListNode _, .payload, p => .iteratedListNode p
  | .procedure _ parameterNames, .name, p => .procedure p parameterNames
  | .procedure name _, .parameterNames, p => .procedure name p
  | o, _, _ => o

/-- The variables of the program and the heap. -/
structure Memory (α : Type) where
  vars : List (Option α)
  heap : ObjectHeap α
  deriving DecidableEq

/-- What `generic_var_pntr` points to. -/
inductive Slot (α : Type)
  | var (i : ℕ)
  | field (pntr : α) (f : Field)

variable [DecidableEq α]

def Memory.read (m : Memory α) : Slot α → Option (Option α)
  | .var i => m.vars[i]?
  | .field pntr f => (m.heap.lookup pntr).bind fun c => c.object.get f

def Memory.write (m : Memory α) : Slot α → Option α → Except (Fault α) (Memory α)
  | .var i, p => .ok { m with vars := m.vars.set i p }
  | .field pntr f, p =>
    match m.heap.lookup pntr with
    | none => .error (.freed pntr)
    | some c => .ok { m with heap := m.heap.insert pntr ⟨c.refCount, c.object.set f p⟩ }

def assign (n : ℕ) (m : Memory α) (slot : Slot α) (new : Option α) :
    Except (Fault α) (Memory α) :=
  match m.read slot with
  | none => .error .nowhere
  | some old =>
    if old = new then .ok m
    else
      (if old = none then .ok m.heap else decRef n m.heap old) >>= fun heap =>
      (if new = none then .ok heap else incRef heap new) >>= fun heap =>
      Memory.write { m with heap := heap } slot new

/-- The call returns with `m'`. -/
def Assigns (m : Memory α) (slot : Slot α) (new : Option α) (m' : Memory α) : Prop :=
  ∃ n, ∀ k ≥ n, assign k m slot new = .ok m'

/-- What the variables and the fields of all objects point to. -/
def Memory.references (m : Memory α) : Multiset α :=
  RefHeap.references Object.references m.heap m.heap.keys (live m.vars)

/-- Each count is the number of slots that point to the object. -/
def Memory.Exact (m : Memory α) : Prop :=
  Balanced Object.references m.heap m.heap.keys (live m.vars)

/-- The memory with a null pointer in the slot. -/
def Memory.clear (m : Memory α) : Slot α → Memory α
  | .var i => { m with vars := m.vars.set i none }
  | .field pntr f =>
    match m.heap.lookup pntr with
    | none => m
    | some c => { m with heap := m.heap.insert pntr ⟨c.refCount, c.object.set f none⟩ }

/-- The object can be reached without the slot, from a variable or from an object to which no slot
points. -/
def HeldWithout (m : Memory α) (slot : Slot α) (x : α) : Prop :=
  ∃ s, (s ∈ live (m.clear slot).vars ∨ s ∈ m.heap ∧ s ∉ m.references) ∧
    ReflTransGen (PointsTo Object.references (m.clear slot).heap) s x

/-! ### The slot and the others -/

/-- The objects whose fields are all other slots. -/
def Memory.others (m : Memory α) : Slot α → Finset α
  | .var _ => m.heap.keys
  | .field pntr _ => m.heap.keys.erase pntr

/-- What the other slots outside of these objects point to. -/
def Memory.rest (m : Memory α) : Slot α → Multiset α
  | .var i => live (m.vars.set i none)
  | .field pntr f =>
    (m.heap.lookup pntr).elim 0 (fun c => (c.object.set f none).references) + live m.vars

omit [DecidableEq α] in
theorem live_set {ps : List (Option α)} {i : ℕ} {old : Option α} (h : ps[i]? = some old)
    (p : Option α) : live (ps.set i p) = live [p] + live (ps.set i none) := by
  induction ps generalizing i with
  | nil => cases h
  | cons q ps ih =>
    cases i with
    | zero => rw [List.set_cons_zero, List.set_cons_zero, live_cons, live_cons_none]
    | succ i =>
      rw [List.set_cons_succ, List.set_cons_succ, live_cons, ih h, live_cons q (ps.set i none)]
      exact add_left_comm ..

omit [DecidableEq α] in
theorem live_of_getElem {ps : List (Option α)} {i : ℕ} {old : Option α} (h : ps[i]? = some old) :
    live ps = live [old] + live (ps.set i none) := by
  have hset : ps.set i old = ps := by
    obtain ⟨hi, hget⟩ := List.getElem?_eq_some_iff.1 h
    rw [← hget, List.set_getElem_self]
  rw [← live_set h, hset]

omit [DecidableEq α] in
theorem Object.get_set {o : Object α} {f : Field} {old : Option α} (h : o.get f = some old)
    (p : Option α) : (o.set f p).get f = some p := by
  cases o <;> cases f <;> first | rfl | cases h

omit [DecidableEq α] in
@[simp] theorem Object.set_set (o : Object α) (f : Field) (p q : Option α) :
    (o.set f p).set f q = o.set f q := by
  cases o <;> cases f <;> rfl

omit [DecidableEq α] in
/-- A field is one of the pointers that the finaliser releases. -/
theorem Object.exists_index {o : Object α} {f : Field} {old : Option α} (h : o.get f = some old) :
    ∃ i, o.decRef[i]? = some old ∧ ∀ p, (o.set f p).decRef = o.decRef.set i p := by
  cases o <;> cases f <;> cases h
  case listMapEntry.value => exact ⟨1, rfl, fun _ => rfl⟩
  case procedure.parameterNames => exact ⟨1, rfl, fun _ => rfl⟩
  all_goals exact ⟨0, rfl, fun _ => rfl⟩

omit [DecidableEq α] in
theorem Object.references_of_get {o : Object α} {f : Field} {old : Option α}
    (h : o.get f = some old) :
    o.references = live [old] + (o.set f none).references := by
  obtain ⟨i, hi, hset⟩ := Object.exists_index h
  unfold Object.references
  rw [hset]
  exact live_of_getElem hi

variable {m m' : Memory α} {slot : Slot α} {old new : Option α} {x y : α}

theorem Memory.references_others (h : m.read slot = some old) :
    RefHeap.references Object.references m.heap (m.others slot) (live [old] + m.rest slot) =
      m.references := by
  cases slot with
  | var i =>
    unfold Memory.references
    rw [live_of_getElem h]
    rfl
  | field pntr f =>
    obtain ⟨c, hc, hget⟩ := Option.bind_eq_some_iff.1 h
    have hmem : pntr ∈ m.heap.keys := Finmap.mem_keys.2 (Finmap.mem_of_lookup_eq_some hc)
    have hpointers : live [old] + m.rest (.field pntr f) =
        pointers Object.references m.heap pntr + live m.vars := by
      rw [pointers_of_lookup hc, Object.references_of_get hget]
      simp only [Memory.rest, hc, Option.elim_some]
      exact (add_assoc ..).symm
    rw [hpointers]
    exact references_erase hmem

theorem mem_others (h : x ∈ m.heap) (hne : ∀ f, slot ≠ .field x f) : x ∈ m.others slot := by
  cases slot with
  | var i => exact Finmap.mem_keys.2 h
  | field pntr f =>
    refine Finset.mem_erase.2 ⟨?_, Finmap.mem_keys.2 h⟩
    rintro rfl
    exact hne f rfl

theorem mem_heap_of_mem_others (h : x ∈ m.others slot) : x ∈ m.heap := by
  cases slot with
  | var i => exact Finmap.mem_keys.1 h
  | field pntr f => exact Finmap.mem_keys.1 (Finset.mem_of_mem_erase h)

/-- The slot is one reference, and the others are the rest. -/
theorem Memory.exact_iff (h : m.read slot = some old) :
    m.Exact ↔ Balanced Object.references m.heap (m.others slot) (live [old] + m.rest slot) := by
  have hsame := Memory.references_others h
  have hall : ∀ y ∈ m.heap.keys, y ∈ m.heap := fun y hy => Finmap.mem_keys.1 hy
  constructor
  · intro hexact
    refine ⟨fun y hy => mem_heap_of_mem_others hy, ?_, ?_⟩
    · rw [hsame]
      exact hexact.count
    · rw [hsame]
      exact hexact.live
  · intro hcounted
    refine ⟨hall, ?_, ?_⟩
    · show ∀ x c, m.heap.lookup x = some c → c.refCount = (m.references.count x : ℕ)
      rw [← hsame]
      exact hcounted.count
    · show ∀ x ∈ m.references, x ∈ m.heap
      rw [← hsame]
      exact hcounted.live

/-- The object that has the slot, if one has, is the same in both heaps. -/
def SameOwner (slot : Slot α) (heap heap' : ObjectHeap α) : Prop :=
  ∀ pntr f, slot = .field pntr f →
    (heap.lookup pntr).map Allocation.object = (heap'.lookup pntr).map Allocation.object

theorem SameOwner.read {vars : List (Option α)} {heap heap' : ObjectHeap α}
    (h : SameOwner slot heap heap') :
    Memory.read ⟨vars, heap⟩ slot = Memory.read ⟨vars, heap'⟩ slot := by
  cases slot with
  | var i => rfl
  | field pntr f =>
    have hobject := h pntr f rfl
    have hread : ∀ heap : ObjectHeap α, Memory.read ⟨vars, heap⟩ (.field pntr f) =
        ((heap.lookup pntr).map Allocation.object).bind fun o => o.get f := by
      intro heap
      cases hc : heap.lookup pntr <;> simp [Memory.read, hc]
    rw [hread, hread, hobject]

theorem SameOwner.rest {vars : List (Option α)} {heap heap' : ObjectHeap α}
    (h : SameOwner slot heap heap') :
    Memory.rest ⟨vars, heap⟩ slot = Memory.rest ⟨vars, heap'⟩ slot := by
  cases slot with
  | var i => rfl
  | field pntr f =>
    have hobject := h pntr f rfl
    have hrest : ∀ heap : ObjectHeap α, Memory.rest ⟨vars, heap⟩ (.field pntr f) =
        ((heap.lookup pntr).map Allocation.object).elim 0 (fun o => (o.set f none).references) +
          live vars := by
      intro heap
      cases hc : heap.lookup pntr <;> simp [Memory.rest, hc]
    rw [hrest, hrest, hobject]

theorem Memory.others_congr {vars : List (Option α)} {heap heap' : ObjectHeap α}
    (h : ∀ x, x ∈ heap ↔ x ∈ heap') :
    Memory.others ⟨vars, heap⟩ slot = Memory.others ⟨vars, heap'⟩ slot := by
  have hkeys : heap.keys = heap'.keys := by
    ext x
    rw [Finmap.mem_keys, Finmap.mem_keys, h]
  cases slot with
  | var i => exact hkeys
  | field pntr f => simp only [Memory.others, hkeys]

/-- The slot is overwritten in a heap in which one more reference to the new object has been
taken. -/
theorem Memory.write_exact {vars : List (Option α)} {heap : ObjectHeap α}
    (hread : Memory.read ⟨vars, heap⟩ slot = some old)
    (h : Balanced Object.references heap (Memory.others ⟨vars, heap⟩ slot)
      (live [new] + Memory.rest ⟨vars, heap⟩ slot)) :
    ∃ m', Memory.write ⟨vars, heap⟩ slot new = .ok m' ∧ m'.read slot = some new ∧ m'.Exact ∧
      ∀ x, x ∈ m'.heap ↔ x ∈ heap := by
  cases slot with
  | var i =>
    have hi : i < vars.length := (List.getElem?_eq_some_iff.1 hread).1
    have hread' : Memory.read ⟨vars.set i new, heap⟩ (.var i) = some new :=
      List.getElem?_set_self hi
    refine ⟨_, rfl, hread', (Memory.exact_iff hread').2 ?_, fun x => Iff.rfl⟩
    have hrest : Memory.rest ⟨vars.set i new, heap⟩ (.var i) =
        Memory.rest ⟨vars, heap⟩ (.var i) := by
      simp only [Memory.rest, List.set_set]
    rw [hrest]
    exact h
  | field pntr f =>
    obtain ⟨c, hc, hget⟩ := Option.bind_eq_some_iff.1 hread
    have hread' : Memory.read ⟨vars, heap.insert pntr ⟨c.refCount, c.object.set f new⟩⟩
        (.field pntr f) = some new := by
      simp only [Memory.read, Finmap.lookup_insert, Option.bind_some]
      exact Object.get_set hget new
    refine ⟨⟨vars, heap.insert pntr ⟨c.refCount, c.object.set f new⟩⟩, ?_, hread',
      (Memory.exact_iff hread').2 ?_, fun x => mem_insert_of_lookup hc⟩
    · simp only [Memory.write, hc]
    · have hothers : Memory.others ⟨vars, heap.insert pntr ⟨c.refCount, c.object.set f new⟩⟩
          (.field pntr f) = Memory.others ⟨vars, heap⟩ (.field pntr f) :=
        Memory.others_congr fun x => mem_insert_of_lookup hc
      have hrest : Memory.rest ⟨vars, heap.insert pntr ⟨c.refCount, c.object.set f new⟩⟩
          (.field pntr f) = Memory.rest ⟨vars, heap⟩ (.field pntr f) := by
        simp only [Memory.rest, Finmap.lookup_insert, hc, Option.elim_some, Object.set_set]
      rw [hothers, hrest]
      exact h.write hc (Finset.notMem_erase pntr _) _

/-! ### Paths around the slot -/

theorem Memory.clear_field {pntr : α} {f : Field} {c : Allocation (Object α)}
    (hc : m.heap.lookup pntr = some c) :
    m.clear (.field pntr f) =
      { m with heap := m.heap.insert pntr ⟨c.refCount, c.object.set f none⟩ } := by
  simp only [Memory.clear, hc]

theorem mem_clear_vars (hread : m.read slot = some old) (h : x ∈ live (m.clear slot).vars) :
    x ∈ m.rest slot := by
  cases slot with
  | var i => exact h
  | field pntr f =>
    obtain ⟨c, hc, -⟩ := Option.bind_eq_some_iff.1 hread
    rw [Memory.clear_field hc] at h
    exact Multiset.mem_add.2 (.inr h)

/-- Without the slot a pointer is one of the others. -/
theorem pointsTo_clear (hread : m.read slot = some old)
    (h : PointsTo Object.references (m.clear slot).heap y x) :
    x ∈ m.rest slot ∨ y ∈ m.others slot ∧ PointsTo Object.references m.heap y x := by
  cases slot with
  | var i => exact .inr ⟨Finmap.mem_keys.2 (mem_of_pointers h), h⟩
  | field pntr f =>
    obtain ⟨c, hc, -⟩ := Option.bind_eq_some_iff.1 hread
    rw [Memory.clear_field hc] at h
    unfold PointsTo at h
    by_cases hy : y = pntr
    · subst hy
      rw [pointers_of_lookup (Finmap.lookup_insert _)] at h
      refine .inl (Multiset.mem_add.2 (.inl ?_))
      rw [hc]
      exact h
    · rw [pointers_insert_of_ne hy] at h
      exact .inr ⟨Finset.mem_erase.2 ⟨hy, Finmap.mem_keys.2 (mem_of_pointers h)⟩, h⟩

theorem pointsTo_clear_of_others (hread : m.read slot = some old) (hy : y ∈ m.others slot)
    (h : PointsTo Object.references m.heap y x) :
    PointsTo Object.references (m.clear slot).heap y x := by
  cases slot with
  | var i => exact h
  | field pntr f =>
    obtain ⟨c, hc, -⟩ := Option.bind_eq_some_iff.1 hread
    rw [Memory.clear_field hc]
    unfold PointsTo
    rw [pointers_insert_of_ne (Finset.mem_erase.1 hy).1]
    exact h

/-- What the rest of the slots point to is the target of a variable or of a field of the object
that has the slot. -/
theorem mem_rest (hread : m.read slot = some old) (h : x ∈ m.rest slot) :
    x ∈ live (m.clear slot).vars ∨
      ∃ y f, slot = .field y f ∧ PointsTo Object.references m.heap y x ∧
        PointsTo Object.references (m.clear slot).heap y x := by
  cases slot with
  | var i => exact .inl h
  | field pntr f =>
    obtain ⟨c, hc, hget⟩ := Option.bind_eq_some_iff.1 hread
    rw [Memory.clear_field hc]
    rcases Multiset.mem_add.1 h with hown | hvars
    · rw [hc] at hown
      refine .inr ⟨pntr, f, rfl, ?_, ?_⟩
      · unfold PointsTo
        rw [pointers_of_lookup hc, Object.references_of_get hget]
        exact Multiset.mem_add.2 (.inr hown)
      · unfold PointsTo
        rw [pointers_of_lookup (Finmap.lookup_insert _)]
        exact hown
    · exact .inl hvars

/-! ### What is freed -/

/-! ### The old object is released -/

/-- In an acyclic heap the old object does not lead to the slot. -/
theorem Memory.Exact.meets (h : m.Exact) (hacyclic : Acyclic Object.references m.heap)
    {p : α} (hread : m.read slot = some (some p)) :
    Meets (ReflTransGen (PointsTo Object.references m.heap) p) m.heap (m.others slot)
      (p ::ₘ m.rest slot) where
  closed := fun _ _ hy hx => hy.tail hx
  holds := by
    intro x hx hreach
    have hcounted := (Memory.exact_iff hread).1 h
    refine mem_others (hcounted.live x hx) ?_
    rintro f rfl
    obtain ⟨c, hc, hget⟩ := Option.bind_eq_some_iff.1 hread
    have hback : PointsTo Object.references m.heap x p := by
      unfold PointsTo
      rw [pointers_of_lookup hc, Object.references_of_get hget]
      exact Multiset.mem_add.2 (.inl (Multiset.mem_singleton_self p))
    exact hacyclic x (.head' hback hreach)

variable {heap' : ObjectHeap α} {S' : Finset α} {p : α}

/-- What can be reached without the slot survives. -/
theorem HeldWithout.mem (h : HeldWithout m slot x)
    (hread : m.read slot = some (some p))
    (hcounted : Balanced Object.references heap' S' (m.rest slot))
    (hreleased : Released Object.references m.heap (m.others slot) (p ::ₘ m.rest slot)
      heap' S' (m.rest slot)) : x ∈ heap' := by
  obtain ⟨s, hs, hpath⟩ := h
  have hrest : ∀ z ∈ m.rest slot, z ∈ heap' := fun z hz =>
    hcounted.live z (mem_references.2 (.inl hz))
  induction hpath with
  | refl =>
    rcases hs with hvars | ⟨hmem, hunreferenced⟩
    · exact hrest s (mem_clear_vars hread hvars)
    · refine (hreleased.allocated s).2 ⟨hmem, fun hS => ?_⟩
      by_contra hS'
      have hreferenced := hreleased.freed s hS hS'
      rw [← Memory.references_others hread] at hunreferenced
      exact hunreferenced hreferenced
  | tail hpath hpointer ih =>
    rcases pointsTo_clear hread hpointer with hz | ⟨hy, hpointer⟩
    · exact hrest _ hz
    · have hS' := ((hreleased.allocated _).1 ih).2 hy
      refine hcounted.live _ (mem_references.2 (.inr ⟨_, hS', ?_⟩))
      rw [hreleased.pointers_eq ih]
      exact hpointer

/-- What survives can be reached without the slot. -/
theorem heldWithout_of_mem (hacyclic : Acyclic Object.references m.heap)
    (hread : m.read slot = some (some p))
    (hcounted : Balanced Object.references heap' S' (m.rest slot))
    (hreleased : Released Object.references m.heap (m.others slot) (p ::ₘ m.rest slot)
      heap' S' (m.rest slot)) : ∀ x ∈ m.heap, x ∈ heap' → HeldWithout m slot x := by
  refine hacyclic.induction fun x hmem ih hx => ?_
  -- a pointer from an object that survives prolongs the path to it
  have hstep : ∀ y ∈ heap', PointsTo Object.references m.heap y x →
      PointsTo Object.references (m.clear slot).heap y x → HeldWithout m slot x := by
    intro y hy hpointer hclear
    obtain ⟨s, hs, hpath⟩ := ih y hpointer hy
    exact ⟨s, hs, hpath.tail hclear⟩
  by_cases hreferenced : x ∈ m.references
  · rw [← Memory.references_others hread] at hreferenced
    rcases mem_references.1 (hreleased.kept x hx hreferenced) with hrest | ⟨y, hy, hpointer⟩
    · rcases mem_rest hread hrest with hvars | ⟨y, f, rfl, hpointer, hclear⟩
      · exact ⟨x, .inl hvars, .refl⟩
      · refine hstep y ((hreleased.allocated y).2 ⟨mem_of_pointers hpointer, fun hS => ?_⟩)
          hpointer hclear
        exact absurd rfl (Finset.mem_erase.1 hS).1
    · have hy' := hcounted.mem y hy
      rw [hreleased.pointers_eq hy'] at hpointer
      exact hstep y hy' hpointer
        (pointsTo_clear_of_others hread (hreleased.subset hy) hpointer)
  · exact ⟨x, .inr ⟨hmem, hreferenced⟩, .refl⟩

/-! ### The assignment -/

/-- The reference to the new object is taken and the slot is overwritten. -/
theorem assign_exact {vars : List (Option α)} {heap : ObjectHeap α}
    (hread : Memory.read ⟨vars, heap⟩ slot = some old)
    (h : Balanced Object.references heap (Memory.others ⟨vars, heap⟩ slot)
      (Memory.rest ⟨vars, heap⟩ slot)) (hnew : ∀ a ∈ new, a ∈ heap) :
    ∃ m', ((if new = none then .ok heap else incRef heap new) >>= fun heap =>
        Memory.write ⟨vars, heap⟩ slot new) = .ok m' ∧
      m'.read slot = some new ∧ (∀ a ∈ new, a ∈ m'.heap) ∧ m'.Exact := by
  cases new with
  | none =>
    have hcounted : Balanced Object.references heap (Memory.others ⟨vars, heap⟩ slot)
        (live [none] + Memory.rest ⟨vars, heap⟩ slot) := by
      rw [live_cons_none, live_nil, zero_add]
      exact h
    obtain ⟨m', hwrite, hread', hexact, -⟩ := Memory.write_exact hread hcounted
    exact ⟨m', hwrite, hread', fun a ha => absurd ha (Option.not_mem_none a), hexact⟩
  | some a =>
    obtain ⟨c, hc⟩ := Finmap.mem_iff.1 (hnew a rfl)
    have howner : SameOwner slot (heap.insert a ⟨c.refCount + 1, c.object⟩) heap :=
      fun pntr _ _ => lookup_insert_object hc _ pntr
    have hmem : ∀ x, x ∈ heap.insert a ⟨c.refCount + 1, c.object⟩ ↔ x ∈ heap :=
      fun x => mem_insert_of_lookup hc
    have hcounted : Balanced Object.references (heap.insert a ⟨c.refCount + 1, c.object⟩)
        (Memory.others ⟨vars, heap.insert a ⟨c.refCount + 1, c.object⟩⟩ slot)
        (live [some a] + Memory.rest ⟨vars, heap.insert a ⟨c.refCount + 1, c.object⟩⟩ slot) := by
      rw [Memory.others_congr hmem, howner.rest, live_cons_some, live_nil, Multiset.cons_add,
        zero_add]
      exact h.increment hc
    rw [← howner.read] at hread
    obtain ⟨m', hwrite, hread', hexact, hsame⟩ := Memory.write_exact hread hcounted
    refine ⟨m', ?_, hread', ?_, hexact⟩
    · simp only [incRef, hc]
      exact hwrite
    · intro b hb
      exact (hsame b).2 ((hmem b).2 (hnew b hb))

theorem Released.sameOwner (hread : m.read slot = some old) {R R' : Multiset α}
    (h : Released Object.references m.heap (m.others slot) R heap' S' R') :
    SameOwner slot m.heap heap' := by
  rintro pntr f rfl
  obtain ⟨c, hc, -⟩ := Option.bind_eq_some_iff.1 hread
  have hmem : pntr ∈ heap' := by
    refine (h.allocated pntr).2 ⟨Finmap.mem_of_lookup_eq_some hc, fun hS => ?_⟩
    exact absurd rfl (Finset.mem_erase.1 hS).1
  obtain ⟨c', hc'⟩ := Finmap.mem_iff.1 hmem
  obtain ⟨d, hd, hobject⟩ := h.object pntr c' hc'
  rw [hd, hc', Option.map_some, Option.map_some, hobject]

theorem Released.others_eq {vars : List (Option α)} {R R' : Multiset α}
    (hcounted : Balanced Object.references heap' S' R')
    (h : Released Object.references m.heap (m.others slot) R heap' S' R') :
    Memory.others ⟨vars, heap'⟩ slot = S' := by
  ext x
  cases slot with
  | var i =>
    show x ∈ heap'.keys ↔ _
    rw [Finmap.mem_keys]
    refine ⟨fun hx => ?_, hcounted.mem x⟩
    obtain ⟨hmem, hS⟩ := (h.allocated x).1 hx
    exact hS (Finmap.mem_keys.2 hmem)
  | field pntr f =>
    show x ∈ heap'.keys.erase pntr ↔ _
    rw [Finset.mem_erase, Finmap.mem_keys]
    constructor
    · rintro ⟨hne, hx⟩
      obtain ⟨hmem, hS⟩ := (h.allocated x).1 hx
      exact hS (Finset.mem_erase.2 ⟨hne, Finmap.mem_keys.2 hmem⟩)
    · intro hx
      exact ⟨(Finset.mem_erase.1 (h.subset hx)).1, hcounted.mem x hx⟩

/-- **An assignment leaves exact counts and the new object in the slot exactly when the slot held
null, when it holds the new object already, or when the new one can be reached without it.** -/
theorem assign_keeps_counts_iff (hexact : m.Exact) (hacyclic : Acyclic Object.references m.heap)
    (hread : m.read slot = some old) (hnew : ∀ a ∈ new, a ∈ m.references) :
    (∃ m', Assigns m slot new m' ∧ m'.read slot = some new ∧ (∀ a ∈ new, a ∈ m'.heap) ∧
      m'.Exact) ↔ old = new ∨ old = none ∨ ∀ a ∈ new, HeldWithout m slot a := by
  have hlive : ∀ a ∈ new, a ∈ m.heap := fun a ha => hexact.live a (hnew a ha)
  by_cases hsame : old = new
  · subst hsame
    refine ⟨fun _ => .inl rfl, fun _ => ⟨m, ⟨0, fun k _ => ?_⟩, hread, hlive, hexact⟩⟩
    simp only [assign, hread, if_true]
  have hassign : ∀ k, assign k m slot new =
      ((if old = none then .ok m.heap else decRef k m.heap old) >>= fun heap =>
        (if new = none then .ok heap else incRef heap new) >>= fun heap =>
          Memory.write ⟨m.vars, heap⟩ slot new) := by
    intro k
    simp only [assign, hread, if_neg hsame]
  have hcounted := (Memory.exact_iff hread).1 hexact
  cases old with
  | none =>
    refine ⟨fun _ => .inr (.inl rfl), fun _ => ?_⟩
    rw [live_cons_none, live_nil, zero_add] at hcounted
    obtain ⟨m', hrun, hslot, hmem, hexact'⟩ := assign_exact hread hcounted hlive
    refine ⟨m', ⟨0, fun k _ => ?_⟩, hslot, hmem, hexact'⟩
    rw [hassign]
    exact hrun
  | some p =>
    rw [live_cons_some, live_nil, Multiset.cons_add, zero_add] at hcounted
    obtain ⟨heap', S', hdecRef, hcounted', hreleased⟩ :=
      decRef_released .refl hcounted (hexact.meets hacyclic hread)
    have howner := Released.sameOwner hread hreleased
    have hothers : Memory.others ⟨m.vars, heap'⟩ slot = S' :=
      Released.others_eq hcounted' hreleased
    have hrest : Memory.rest ⟨m.vars, heap'⟩ slot = m.rest slot := howner.rest.symm
    have hread' : Memory.read ⟨m.vars, heap'⟩ slot = some (some p) := howner.read.symm.trans hread
    have hstep : ∀ k > (m.others slot).card, assign k m slot new =
        ((if new = none then .ok heap' else incRef heap' new) >>= fun heap =>
          Memory.write ⟨m.vars, heap⟩ slot new) := by
      intro k hk
      rw [hassign, if_neg (by simp), hdecRef k hk]
      rfl
    constructor
    · rintro ⟨m', ⟨n, hruns⟩, -⟩
      refine .inr (.inr fun a ha => ?_)
      obtain rfl : new = some a := ha
      refine heldWithout_of_mem hacyclic hread hcounted' hreleased a (hlive a rfl) ?_
      -- had the new object been freed, the count could not be changed
      by_contra hfreed
      have hrun := hruns (n + (m.others slot).card + 1) (by omega)
      rw [hstep _ (by omega), if_neg (by simp)] at hrun
      simp only [incRef, Finmap.lookup_eq_none.2 hfreed] at hrun
      cases hrun
    · rintro (h | h | hheld)
      · exact absurd h hsame
      · cases h
      · have hmem : ∀ a ∈ new, a ∈ heap' := fun a ha =>
          (hheld a ha).mem hread hcounted' hreleased
        rw [← hothers, ← hrest] at hcounted'
        obtain ⟨m', hrun, hslot, hnew', hexact'⟩ := assign_exact hread' hcounted' hmem
        refine ⟨m', ⟨(m.others slot).card + 1, fun k hk => ?_⟩, hslot, hnew', hexact'⟩
        rw [hstep k hk]
        exact hrun

/-- A variable and an object that it refers to, and another one that only the first refers to. -/
def onlyThroughOld : Memory ℕ where
  vars := [some 0]
  heap := (Finmap.singleton 1 ⟨1, .plain⟩).insert 0 ⟨1, .typedObject 0 (some 1)⟩

/-- The same with a second variable that refers to the inner object. -/
def alsoHeld : Memory ℕ where
  vars := [some 0, some 1]
  heap := (Finmap.singleton 1 ⟨2, .plain⟩).insert 0 ⟨1, .typedObject 0 (some 1)⟩

theorem Memory.exact_of_keys
    (hcount : ∀ x ∈ m.heap.keys, ∀ c ∈ m.heap.lookup x, c.refCount = (m.references.count x : ℕ))
    (hlive : ∀ x ∈ m.references, x ∈ m.heap.keys) : m.Exact where
  mem := fun _ hy => Finmap.mem_keys.1 hy
  count := fun x c hc => hcount x (Finmap.mem_keys.2 (Finmap.mem_of_lookup_eq_some hc)) c hc
  live := fun x hx => Finmap.mem_keys.1 (hlive x hx)

theorem exact_alsoHeld : alsoHeld.Exact :=
  Memory.exact_of_keys (by decide +kernel) (by decide +kernel)

theorem acyclic_alsoHeld : Acyclic Object.references alsoHeld.heap :=
  acyclic_of_rank id (by decide +kernel)

theorem assign_keeps_counts_iff_alsoHeld :
    ∃ m', Assigns alsoHeld (.var 0) (some 1) m' ∧ m'.read (.var 0) = some (some 1) ∧
      (∀ a ∈ some 1, a ∈ m'.heap) ∧ m'.Exact := by
  have hnew : ∀ a ∈ some 1, a ∈ alsoHeld.references := by
    intro a ha
    obtain rfl := Option.mem_some_iff.1 ha
    decide +kernel
  have hread : alsoHeld.read (.var 0) = some (some 0) := rfl
  refine (assign_keeps_counts_iff exact_alsoHeld acyclic_alsoHeld hread hnew).2
    (.inr (.inr fun a ha => ?_))
  obtain rfl := Option.mem_some_iff.1 ha
  exact ⟨1, .inl (by decide +kernel), .refl⟩

theorem exact_onlyThroughOld : onlyThroughOld.Exact :=
  Memory.exact_of_keys (by decide +kernel) (by decide +kernel)

theorem acyclic_onlyThroughOld : Acyclic Object.references onlyThroughOld.heap :=
  acyclic_of_rank id (by decide +kernel)

/-- The new object has been freed when its count is to be changed. -/
theorem assign_onlyThroughOld (k : ℕ) :
    assign (k + 3) onlyThroughOld (.var 0) (some 1) = .error (.freed 1) := by
  rfl

theorem onlyThroughOld_not_assigned :
    onlyThroughOld.Exact ∧ Acyclic Object.references onlyThroughOld.heap ∧
      onlyThroughOld.read (.var 0) = some (some 0) ∧ 1 ∈ onlyThroughOld.references ∧
      ¬ ∃ m', Assigns onlyThroughOld (.var 0) (some 1) m' ∧ m'.read (.var 0) = some (some 1) ∧
        (∀ a ∈ some 1, a ∈ m'.heap) ∧ m'.Exact := by
  refine ⟨exact_onlyThroughOld, acyclic_onlyThroughOld, rfl, by decide +kernel, ?_⟩
  rintro ⟨m', ⟨n, hruns⟩, -⟩
  have hrun := hruns (n + 3) (by omega)
  rw [assign_onlyThroughOld] at hrun
  cases hrun

end GC

end InsenseCVM
