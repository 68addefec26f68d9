import InsenseCVM.Lib.Transition
import InsenseCVM.Memory.Assignment

/-!
# Allocating and assigning

Runs of `GC_alloc` and `GC_assign` on variables and on the fields of objects. A program is
disciplined if it puts a new object where no pointer is lost, assigns only what it can reach
without the slot that it overwrites, and closes no cycle. However long such a program runs, no call
meets freed memory, and the objects that are allocated are exactly those that can be reached from
the variables: nothing dangles and nothing leaks.
-/

namespace InsenseCVM
namespace GC

open RefHeap Relation Transition

variable {α : Type} [DecidableEq α] {m m' : Memory α} {slot : Slot α} {old new : Option α}
  {heap heap' : ObjectHeap α} {vars : List (Option α)} {x y p : α}

/-! ### The operations -/

inductive MemoryEvent (α : Type)
  /-- The result of `GC_alloc` is put into a variable. -/
  | alloc (i : ℕ) (pntr : α) (object : Object α)
  | assign (slot : Slot α) (new : Option α)

/-- Memory that `GC_alloc` returns is zero: no pointer in it leads anywhere. -/
def Object.Zeroed (o : Object α) : Prop := o.references = 0

def Memory.alloc (m : Memory α) (i : ℕ) (pntr : α) (object : Object α) : Memory α where
  vars := m.vars.set i (some pntr)
  heap := m.heap.insert pntr ⟨1, object⟩

/-- A call of the collector. There is no state behind a fault. -/
def Memory.step (m : Memory α) : MemoryEvent α → Option (Memory α)
  | .alloc i pntr object => some (m.alloc i pntr object)
  | .assign slot new => (GC.assign (m.heap.keys.card + 1) m slot new).toOption

/-- Allocated is what was free. A pointer that is assigned can be reached without the slot, as long
as the slot holds another one, and from it the slot cannot be reached. -/
def Memory.Disciplined (m : Memory α) : MemoryEvent α → Prop
  | .alloc i pntr object => m.vars[i]? = some none ∧ pntr ∉ m.heap ∧ object.Zeroed
  | .assign slot new => ∃ old, m.read slot = some old ∧ (∀ a ∈ new, a ∈ m.heap) ∧
      (old = new ∨ old = none ∨ ∀ a ∈ new, HeldWithout m slot a) ∧
      ∀ a ∈ new, ∀ owner f, slot = .field owner f →
        ¬ ReflTransGen (PointsTo Object.references m.heap) a owner

/-- The variables of a program before it has allocated anything. -/
def Memory.empty (n : ℕ) : Memory α := ⟨List.replicate n none, ∅⟩

/-! ### What is kept -/

/-- The counts are exact, no object reaches itself, and each one is referenced. -/
structure Memory.Sound (m : Memory α) : Prop where
  exact : m.Exact
  acyclic : Acyclic Object.references m.heap
  referenced : ∀ x ∈ m.heap, x ∈ m.references

/-- The objects are the same, whatever their counts are. -/
def SameObjects (heap heap' : ObjectHeap α) : Prop :=
  ∀ y, (heap'.lookup y).map Allocation.object = (heap.lookup y).map Allocation.object

theorem SameObjects.pointers_eq (h : SameObjects heap heap') (y : α) :
    pointers Object.references heap' y = pointers Object.references heap y :=
  pointers_congr (h y)

theorem SameObjects.mem (h : SameObjects heap heap') (y : α) : y ∈ heap' ↔ y ∈ heap := by
  have hsome : ∀ heap : ObjectHeap α, y ∈ heap ↔ ((heap.lookup y).map Allocation.object).isSome := by
    intro heap
    rw [Option.isSome_map, Finmap.lookup_isSome]
  rw [hsome, hsome, h y]

/-- A reference to what is assigned is taken, when it is no null pointer. -/
theorem exists_incRef (hnew : ∀ a ∈ new, a ∈ heap) :
    ∃ heap₁, (if new = none then .ok heap else incRef heap new) = .ok heap₁ ∧
      SameObjects heap heap₁ := by
  cases new with
  | none => exact ⟨heap, rfl, fun _ => rfl⟩
  | some a =>
    obtain ⟨c, hc⟩ := Finmap.mem_iff.1 (hnew a rfl)
    refine ⟨_, ?_, lookup_insert_object hc (c.refCount + 1)⟩
    simp only [incRef, hc]
    rfl

/-- What a slot that is overwritten leaves as it was. -/
structure Overwrites (slot : Slot α) (new : Option α) (m m' : Memory α) : Prop where
  mem : ∀ x, x ∈ m'.heap ↔ x ∈ m.heap
  read : m'.read slot = some new
  rest : m'.rest slot = m.rest slot
  pointers : ∀ y ∈ m.others slot,
    pointers Object.references m'.heap y = pointers Object.references m.heap y
  pointsTo : ∀ y x, PointsTo Object.references m'.heap y x →
    PointsTo Object.references m.heap y x ∨ ∃ f, slot = .field y f ∧ new = some x

theorem exists_write (hread : Memory.read ⟨vars, heap⟩ slot = some old)
    (hsame : SameObjects heap heap') :
    ∃ m', Memory.write ⟨vars, heap'⟩ slot new = .ok m' ∧ Overwrites slot new ⟨vars, heap⟩ m' := by
  cases slot with
  | var i =>
    refine ⟨_, rfl, hsame.mem, ?_, ?_, fun y _ => hsame.pointers_eq y, fun y x hx => .inl ?_⟩
    · obtain ⟨hi, -⟩ := List.getElem?_eq_some_iff.1 hread
      exact List.getElem?_set_self hi
    · show live ((vars.set i new).set i none) = live (vars.set i none)
      rw [List.set_set]
    · unfold PointsTo at hx ⊢
      rwa [hsame.pointers_eq] at hx
  | field pntr f =>
    obtain ⟨c, hc, hget⟩ := Option.bind_eq_some_iff.1 hread
    obtain ⟨c', hc', hobject⟩ : ∃ c', heap'.lookup pntr = some c' ∧ c'.object = c.object := by
      have hlookup := hsame pntr
      rw [hc] at hlookup
      exact Option.map_eq_some_iff.1 hlookup
    refine ⟨⟨vars, heap'.insert pntr ⟨c'.refCount, c'.object.set f new⟩⟩,
      by simp only [Memory.write, hc'], fun x => ?_, ?_, ?_, fun y hy => ?_, fun y x hx => ?_⟩
    · exact (mem_insert_of_lookup hc').trans (hsame.mem x)
    · show ((heap'.insert pntr _).lookup pntr).bind _ = _
      rw [Finmap.lookup_insert, Option.bind_some, hobject]
      exact Object.get_set hget new
    · show ((heap'.insert pntr _).lookup pntr).elim 0 _ + live vars =
        (heap.lookup pntr).elim 0 _ + live vars
      rw [Finmap.lookup_insert, hc, hobject]
      show ((c.object.set f new).set f none).references + _ = _
      rw [Object.set_set]
      rfl
    · rw [pointers_insert_of_ne (Finset.mem_erase.1 hy).1, hsame.pointers_eq]
    · unfold PointsTo at hx ⊢
      by_cases hy : y = pntr
      · subst hy
        rw [pointers_of_lookup (Finmap.lookup_insert ..), hobject,
          Object.references_of_get (Object.get_set hget new), Object.set_set] at hx
        rw [pointers_of_lookup hc, Object.references_of_get hget]
        rcases Multiset.mem_add.1 hx with hnew | hrest
        · cases new with
          | none => exact absurd hnew (Multiset.notMem_zero x)
          | some a =>
            obtain rfl := Multiset.mem_singleton.1 hnew
            exact .inr ⟨f, rfl, rfl⟩
        · exact .inl (Multiset.mem_add.2 (.inr hrest))
      · rw [pointers_insert_of_ne hy, hsame.pointers_eq] at hx
        exact .inl hx

/-- What is referenced besides the slot is still referenced. -/
theorem Overwrites.references (h : Overwrites slot new m m')
    (hx : x ∈ RefHeap.references Object.references m.heap (m.others slot) (m.rest slot)) :
    x ∈ m'.references := by
  have hothers : m'.others slot = m.others slot := by
    obtain ⟨vars, heap⟩ := m
    obtain ⟨vars', heap'⟩ := m'
    have hvars : Memory.others ⟨vars', heap'⟩ slot = Memory.others ⟨vars, heap'⟩ slot := by
      cases slot <;> rfl
    rw [hvars]
    exact Memory.others_congr h.mem
  rw [← Memory.references_others h.read, mem_references, hothers, h.rest]
  rcases mem_references.1 hx with hrest | ⟨y, hy, hpointer⟩
  · exact .inl (Multiset.mem_add.2 (.inr hrest))
  · refine .inr ⟨y, hy, ?_⟩
    rwa [h.pointers y hy]

/-- The new pointer is put into the slot, when the old one has been given up. -/
theorem exists_assigned (hread : Memory.read ⟨vars, heap⟩ slot = some old)
    (h : Balanced Object.references heap (Memory.others ⟨vars, heap⟩ slot)
      (Memory.rest ⟨vars, heap⟩ slot)) (hnew : ∀ a ∈ new, a ∈ heap) :
    ∃ m', ((if new = none then .ok heap else incRef heap new) >>= fun heap =>
        Memory.write ⟨vars, heap⟩ slot new) = .ok m' ∧
      m'.Exact ∧ Overwrites slot new ⟨vars, heap⟩ m' := by
  obtain ⟨m', hrun, -, -, hexact⟩ := assign_exact hread h hnew
  obtain ⟨heap₁, hincRef, hsame⟩ := exists_incRef hnew
  obtain ⟨m₁, hwrite, hoverwrites⟩ := exists_write hread hsame
  rw [hincRef] at hrun
  obtain rfl : m₁ = m' := Except.ok.inj (hwrite.symm.trans hrun)
  refine ⟨m₁, ?_, hexact, hoverwrites⟩
  rw [hincRef]
  exact hwrite

/-- No cycle comes from a pointer to what does not lead to the slot. -/
theorem Memory.acyclic_of_pointsTo (h : Acyclic Object.references m.heap)
    (hpointsTo : ∀ y x, PointsTo Object.references m'.heap y x →
      PointsTo Object.references m.heap y x ∨ ∃ f, slot = .field y f ∧ new = some x)
    (hback : ∀ a ∈ new, ∀ owner f, slot = .field owner f →
      ¬ ReflTransGen (PointsTo Object.references m.heap) a owner) :
    Acyclic Object.references m'.heap := by
  have hmono : (∀ y x, PointsTo Object.references m'.heap y x →
      PointsTo Object.references m.heap y x) → Acyclic Object.references m'.heap :=
    fun hle x hx => h x (TransGen.mono hle x x hx)
  cases slot with
  | var i =>
    refine hmono fun y x hx => (hpointsTo y x hx).resolve_right ?_
    rintro ⟨f, hslot, -⟩
    cases hslot
  | field owner f =>
    cases new with
    | none =>
      refine hmono fun y x hx => (hpointsTo y x hx).resolve_right ?_
      rintro ⟨f, -, hnone⟩
      cases hnone
    | some a =>
      refine h.add_pointer (fun y x hx => ?_) (hback a rfl owner f rfl)
      rcases hpointsTo y x hx with hold | ⟨f', hslot, hsome⟩
      · exact .inl hold
      · cases hslot
        cases hsome
        exact .inr ⟨rfl, rfl⟩

/-- **A disciplined assignment.** -/
theorem Memory.Sound.assign (h : m.Sound) (hok : m.Disciplined (.assign slot new)) :
    ∃ m', m.step (.assign slot new) = some m' ∧ m'.Sound := by
  obtain ⟨old, hread, hlive, hheld, hback⟩ := hok
  by_cases hsame : old = new
  · subst hsame
    refine ⟨m, ?_, h⟩
    simp only [Memory.step, GC.assign, hread, if_true]
    rfl
  have hassign : GC.assign (m.heap.keys.card + 1) m slot new =
      ((if old = none then .ok m.heap else decRef (m.heap.keys.card + 1) m.heap old) >>=
        fun heap => (if new = none then .ok heap else incRef heap new) >>= fun heap =>
          Memory.write ⟨m.vars, heap⟩ slot new) := by
    simp only [GC.assign, hread, if_neg hsame]
  -- from a heap in which the old pointer has been given up
  have hrest : ∀ (heap' : ObjectHeap α) (S' : Finset α),
      (if old = none then .ok m.heap else decRef (m.heap.keys.card + 1) m.heap old) = .ok heap' →
      Balanced Object.references heap' S' (m.rest slot) →
      Released Object.references m.heap (m.others slot) (live [old] + m.rest slot) heap' S'
        (m.rest slot) → (∀ a ∈ new, a ∈ heap') →
      ∃ m', m.step (.assign slot new) = some m' ∧ m'.Sound := by
    intro heap' S' hdecRef hcounted hreleased hnew
    have howner := Released.sameOwner hread hreleased
    have hrest : Memory.rest ⟨m.vars, heap'⟩ slot = m.rest slot := howner.rest.symm
    have hothers : Memory.others ⟨m.vars, heap'⟩ slot = S' :=
      Released.others_eq hcounted hreleased
    have hread' : Memory.read ⟨m.vars, heap'⟩ slot = some old := howner.read.symm.trans hread
    rw [← hothers, ← hrest] at hcounted
    obtain ⟨m', hrun, hexact, hoverwrites⟩ := exists_assigned hread' hcounted hnew
    refine ⟨m', ?_, hexact, ?_, fun x hx => ?_⟩
    · rw [Memory.step, hassign, hdecRef]
      exact congrArg Except.toOption hrun
    · refine Memory.acyclic_of_pointsTo h.acyclic (fun y x hx => ?_) hback
      rcases hoverwrites.pointsTo y x hx with hold | hfield
      · exact .inl (hreleased.mem_pointers hold)
      · exact .inr hfield
    · have hx' : x ∈ heap' := (hoverwrites.mem x).1 hx
      have hreferenced := h.referenced x (hreleased.mem hx')
      rw [← Memory.references_others hread] at hreferenced
      have hkept := hreleased.kept x hx' hreferenced
      rw [← hothers, ← hrest] at hkept
      exact hoverwrites.references hkept
  have hcounted := (Memory.exact_iff hread).1 h.exact
  cases old with
  | none =>
    rw [live_cons_none, live_nil, zero_add] at hcounted hrest
    exact hrest m.heap _ rfl hcounted .refl hlive
  | some p =>
    rw [live_cons_some, live_nil, Multiset.cons_add, zero_add] at hcounted hrest
    obtain ⟨heap', S', hdecRef, hcounted', hreleased⟩ :=
      decRef_released .refl hcounted (h.exact.meets h.acyclic hread)
    have hfuel : (m.others slot).card < m.heap.keys.card + 1 := by
      refine Nat.lt_succ_of_le (Finset.card_le_card fun x hx => ?_)
      exact Finmap.mem_keys.2 (mem_heap_of_mem_others hx)
    refine hrest heap' S' (hdecRef _ hfuel) hcounted' hreleased fun a ha => ?_
    have hreached := (hheld.resolve_left hsame).resolve_left (Option.some_ne_none p)
    exact (hreached a ha).mem hread hcounted' hreleased

/-- **An allocation.** -/
theorem Memory.Sound.alloc {i : ℕ} {object : Object α} (h : m.Sound)
    (hok : m.Disciplined (.alloc i p object)) : (m.alloc i p object).Sound := by
  obtain ⟨hvar, hp, hobject⟩ := hok
  have hvars : live (m.alloc i p object).vars = p ::ₘ live m.vars := by
    rw [live_of_getElem hvar, live_cons_none, live_nil, zero_add]
    show live (m.vars.set i (some p)) = _
    rw [live_set hvar, live_cons_some, live_nil, Multiset.cons_add, zero_add]
  have hkeys : (m.alloc i p object).heap.keys = insert p m.heap.keys := by
    ext x
    rw [Finmap.mem_keys, Finset.mem_insert, Finmap.mem_keys]
    exact Finmap.mem_insert
  have hreferences : (m.alloc i p object).references = p ::ₘ m.references := by
    unfold Memory.references
    rw [hvars, hkeys]
    exact references_insert_new h.exact hp hobject 1
  refine ⟨?_, fun x hx => ?_, fun x hx => ?_⟩
  · unfold Memory.Exact
    rw [hvars, hkeys]
    exact h.exact.alloc hp hobject
  · refine h.acyclic x (TransGen.mono (fun y z hz => ?_) x x hx)
    exact (pointsTo_insert_new hp hobject 1).1 hz
  · rw [hreferences, Multiset.mem_cons]
    exact (Finmap.mem_insert.1 hx).imp_right (h.referenced x)

theorem Memory.sound_empty (n : ℕ) : (Memory.empty n : Memory α).Sound where
  exact := by
    have hlive : live (List.replicate n (none : Option α)) = 0 := by
      induction n with
      | zero => rfl
      | succ n ih => rwa [List.replicate_succ, live_cons_none]
    refine ⟨fun y hy => Finmap.mem_keys.1 hy, fun x c hc => ?_, fun x hx => ?_⟩
    · exact absurd hc (by simp [Memory.empty])
    · rcases mem_references.1 hx with hx | ⟨y, hy, -⟩
      · rw [Memory.empty, hlive] at hx
        exact absurd hx (Multiset.notMem_zero x)
      · exact absurd (Finmap.mem_keys.1 hy) Finmap.notMem_empty
  acyclic := acyclic_of_rank (fun _ => 0) fun y hy => absurd (Finmap.mem_keys.1 hy)
    Finmap.notMem_empty
  referenced x hx := absurd hx Finmap.notMem_empty

/-! ### Runs -/

/-- A disciplined program runs without a fault. -/
theorem Memory.Sound.runs (h : m.Sound) {events : List (MemoryEvent α)}
    (hok : Along Memory.step Memory.Disciplined m events) :
    ∃ m', run Memory.step m events = some m' ∧ m'.Sound := by
  induction events generalizing m with
  | nil => exact ⟨m, rfl, h⟩
  | cons e events ih =>
    obtain ⟨he, hrest⟩ := along_cons.1 hok
    obtain ⟨u, hu, hsound⟩ : ∃ u, m.step e = some u ∧ u.Sound := by
      cases e with
      | alloc i pntr object => exact ⟨_, rfl, h.alloc he⟩
      | assign slot new => exact h.assign he
    obtain ⟨m', hrun, hm'⟩ := ih hsound (hrest u hu)
    refine ⟨m', ?_, hm'⟩
    rw [run_cons, hu, Option.bind_some, hrun]

/-- **A disciplined program never meets freed memory, and at any time what is allocated is exactly
what can be reached from its variables, with the number of pointers to it as its count.** -/
theorem Memory.allocated_iff_reachable {n : ℕ} {events : List (MemoryEvent α)}
    (hok : Along Memory.step Memory.Disciplined (Memory.empty n) events) :
    ∃ m, run Memory.step (Memory.empty n) events = some m ∧ m.Exact ∧
      ∀ x, x ∈ m.heap ↔
        ∃ p ∈ live m.vars, ReflTransGen (PointsTo Object.references m.heap) p x := by
  obtain ⟨m, hrun, h⟩ := (Memory.sound_empty n).runs hok
  refine ⟨m, hrun, h.exact, fun x => ⟨h.acyclic.reachable h.referenced x, ?_⟩⟩
  rintro ⟨p, hp, hpath⟩
  exact h.exact.mem_of_reachable hp hpath

/-- A wrapper with a number in it, to which no variable refers any more, is given up. -/
def givesUpWrapper : List (MemoryEvent ℕ) :=
  [.alloc 0 0 (.typedObject 0 none), .alloc 1 1 .plain, .assign (.field 0 .object) (some 1),
    .assign (.var 1) none, .assign (.var 0) none]

theorem Memory.allocated_iff_reachable_wrapper :
    ∃ m, run Memory.step (Memory.empty 2) givesUpWrapper = some m ∧ m.Exact ∧
      ∀ x, x ∈ m.heap ↔
        ∃ p ∈ live m.vars, ReflTransGen (PointsTo Object.references m.heap) p x := by
  have hnone : ∀ {P : ℕ → Prop}, ∀ a ∈ (none : Option ℕ), P a := fun a ha => by cases ha
  refine Memory.allocated_iff_reachable (along_cons.2 ⟨⟨rfl, Finmap.notMem_empty, rfl⟩, ?_⟩)
  intro t ht
  obtain rfl := Option.some.inj ht
  refine along_cons.2 ⟨⟨rfl, by decide +kernel, rfl⟩, fun t ht => ?_⟩
  obtain rfl := Option.some.inj ht
  refine along_cons.2 ⟨⟨none, rfl, fun a ha => ?_, .inr (.inl rfl), fun a ha owner f hf hpath => ?_⟩,
    fun t ht => ?_⟩
  · obtain rfl := Option.some.inj ha
    decide +kernel
  · obtain rfl := Option.some.inj ha
    cases hf
    -- no pointer leads on from the number
    rcases hpath.cases_head with h | ⟨y, hy, -⟩
    · exact absurd h (by decide)
    · revert hy
      exact Multiset.notMem_zero y
  obtain rfl := Option.some.inj ht
  refine along_cons.2 ⟨⟨some 1, rfl, hnone, .inr (.inr hnone), hnone⟩, fun t ht => ?_⟩
  obtain rfl := Option.some.inj ht
  refine along_cons.2 ⟨⟨some 0, rfl, hnone, .inr (.inr hnone), hnone⟩, fun t ht => ?_⟩
  exact along_nil

end GC
end InsenseCVM
