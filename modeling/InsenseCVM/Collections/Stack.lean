import InsenseCVM.Collections.Sequence

/-!
# Stacks

`Collections/Stack.c`: an iterated list of entries, each of which points to an item. The entries
live in a heap of their own, and a null item is `none`. A stack whose items are `xs`, the top one
first, satisfies `Holds s xs`; each operation has one lemma about it, and calls one after the
other do on the stack what they do on the list `xs`.
-/

namespace InsenseCVM

/-- `struct Stack`, with the entries it has allocated. -/
structure Stack (α : Type) where
  storage : IteratedList ℕ
  object : ℕ → Option α
  fresh : ℕ
  stackTop : ℕ

namespace Stack

variable {α : Type} {s s' : Stack α} {item x : Option α} {xs : List (Option α)}

/-- `Stack_constructor`. -/
def constructor : Stack α := ⟨IteratedList.constructList, fun _ => none, 0, 0⟩

/-- `Stack_push`. -/
def push (s : Stack α) (item : Option α) : Stack α :=
  { storage := s.storage.insertElement (some s.fresh)
    object := Function.update s.object s.fresh item
    fresh := s.fresh + 1
    stackTop := s.stackTop + 1 }

/-- `Stack_pop`. -/
def pop (s : Stack α) : Option (Option α × Stack α) :=
  if s.stackTop = 0 then some (none, s)
  else do
    match ← s.storage.getElementN 0 with
    | none => none
    | some element =>
      let storage ← s.storage.removeElement (some element)
      return (s.object element, { s with storage := storage, stackTop := s.stackTop - 1 })

/-- `Stack_peek`. -/
def peek (s : Stack α) : Option (Option α) :=
  if s.stackTop = 0 then some none
  else do
    match ← s.storage.getElementN 0 with
    | none => none
    | some element => return s.object element

/-- The loop of `Stack_clear`. -/
def popWhile : ℕ → Stack α → Option (Stack α)
  | 0, s => if s.stackTop = 0 then some s else none
  | fuel + 1, s =>
    if s.stackTop = 0 then some s
    else do
      let (_, s') ← s.pop
      popWhile fuel s'

/-- `Stack_clear`. Each round takes one off the counter. -/
def clear (s : Stack α) : Option (Stack α) := popWhile s.stackTop s

/-- `Stack_size`. -/
def size (s : Stack α) : ℕ := s.stackTop

/-- The items on the stack, the top one first. -/
def Holds (s : Stack α) (xs : List (Option α)) : Prop :=
  ∃ cells, s.storage.Represents cells ∧ cells.map (fun c => s.object c.2) = xs ∧
    (∀ c ∈ cells, c.2 < s.fresh) ∧ s.stackTop = xs.length

theorem constructor_holds : (constructor : Stack α).Holds [] := by
  refine ⟨[], IteratedList.constructList_represents, rfl, ?_, rfl⟩
  intro c hc
  cases hc

theorem Holds.size_eq (h : s.Holds xs) : s.size = xs.length := by
  obtain ⟨cells, -, -, -, hsize⟩ := h
  exact hsize

theorem Holds.push (h : s.Holds xs) (item : Option α) : (s.push item).Holds (item :: xs) := by
  obtain ⟨cells, hrep, hobj, hlt, hsize⟩ := h
  refine ⟨_, hrep.insertElement s.fresh, ?_, ?_, ?_⟩
  · rw [List.map_cons, ← hobj]
    congr 1
    · exact Function.update_self ..
    · refine List.map_congr_left fun c hc => ?_
      have hne : c.2 ≠ s.fresh := by
        have := hlt c hc
        omega
      exact Function.update_of_ne hne ..
  · intro c hc
    show c.2 < s.fresh + 1
    rcases List.mem_cons.1 hc with rfl | hc
    · exact Nat.lt_succ_self _
    · exact Nat.lt_succ_of_lt (hlt c hc)
  · show s.stackTop + 1 = _
    rw [hsize, List.length_cons]

theorem Holds.pop_cons (h : s.Holds (x :: xs)) : ∃ s', s.pop = some (x, s') ∧ s'.Holds xs := by
  obtain ⟨cells, hrep, hobj, hlt, hsize⟩ := h
  obtain ⟨⟨a, e⟩, cells, rfl, hx, hxs⟩ := List.map_eq_cons_iff.1 hobj
  obtain ⟨storage, hremove, hrep', -⟩ := hrep.removeElement_head
  have hget := hrep.getElementN_eq 0
  rw [List.length_cons] at hsize
  refine ⟨{ s with storage := storage, stackTop := s.stackTop - 1 }, ?_, cells, hrep', hxs,
    fun c hc => hlt c (List.mem_cons_of_mem _ hc), ?_⟩
  · unfold Stack.pop
    rw [if_neg (by omega), hget]
    simp only [List.map_cons, List.getElem?_cons_zero, Option.bind_eq_bind, Option.bind_some,
      hremove]
    rw [← hx]
    rfl
  · show s.stackTop - 1 = _
    omega

theorem Holds.pop_nil (h : s.Holds []) : s.pop = some (none, s) := by
  obtain ⟨cells, -, -, -, hsize⟩ := h
  unfold Stack.pop
  exact if_pos hsize

theorem Holds.peek_eq (h : s.Holds xs) : s.peek = some xs.head?.join := by
  obtain ⟨cells, hrep, hobj, -, hsize⟩ := h
  unfold Stack.peek
  rw [hsize, hrep.getElementN_eq 0]
  subst hobj
  cases cells with
  | nil => rfl
  | cons c cells => simp

theorem Holds.popWhile (h : s.Holds xs) : ∃ s', s.popWhile xs.length = some s' ∧ s'.Holds [] := by
  induction xs generalizing s with
  | nil =>
    have hsize : s.stackTop = 0 := h.size_eq
    exact ⟨s, if_pos hsize, h⟩
  | cons x xs ih =>
    have hsize : s.stackTop ≠ 0 := by
      have hlen : s.stackTop = _ := h.size_eq
      rw [hlen, List.length_cons]
      exact Nat.succ_ne_zero _
    obtain ⟨s', hpop, hs'⟩ := h.pop_cons
    obtain ⟨u, hu, hempty⟩ := ih hs'
    refine ⟨u, ?_, hempty⟩
    rw [List.length_cons, Stack.popWhile, if_neg hsize, hpop]
    exact hu

theorem Holds.clear (h : s.Holds xs) : ∃ s', s.clear = some s' ∧ s'.Holds [] := by
  have hsize : s.stackTop = xs.length := h.size_eq
  unfold Stack.clear
  rw [hsize]
  exact h.popWhile

theorem Holds.getListLength_eq (h : s.Holds xs) : s.storage.getListLength = some xs.length := by
  obtain ⟨cells, hrep, hobj, -⟩ := h
  rw [hrep.getListLength_eq, ← hobj, List.length_map]

/-! ### Calls one after the other -/

inductive Call (α : Type)
  | push (item : Option α)
  | pop
  | peek
  | clear

/-- What a caller sees of a call: the item it returns, when it returns one, and then
`Stack_size` and the number of nodes in the storage. -/
structure Seen (α : Type) where
  returned : Option (Option α)
  size : ℕ
  nodes : ℕ

def Call.apply (s : Stack α) : Call α → Option (Option (Option α) × Stack α)
  | .push item => some (none, s.push item)
  | .pop => s.pop.map fun r => (some r.1, r.2)
  | .peek => s.peek.map fun item => (some item, s)
  | .clear => s.clear.map fun s' => (none, s')

def run : List (Call α) → Stack α → Option (List (Seen α) × Stack α)
  | [], s => some ([], s)
  | call :: calls, s => do
    let (returned, s') ← call.apply s
    let nodes ← s'.storage.getListLength
    let (seen, s'') ← run calls s'
    return (⟨returned, s'.size, nodes⟩ :: seen, s'')

/-- The call on a list whose head is the top of the stack. -/
def Call.onList (xs : List (Option α)) : Call α → Option (Option α) × List (Option α)
  | .push item => (none, item :: xs)
  | .pop => (some xs.head?.join, xs.tail)
  | .peek => (some xs.head?.join, xs)
  | .clear => (none, [])

def runList : List (Call α) → List (Option α) → List (Seen α) × List (Option α)
  | [], xs => ([], xs)
  | call :: calls, xs =>
    let (returned, xs') := call.onList xs
    let (seen, xs'') := runList calls xs'
    (⟨returned, xs'.length, xs'.length⟩ :: seen, xs'')

/-- A call returns what it returns on the list, and stack and list stay in step. -/
theorem Holds.apply (h : s.Holds xs) (call : Call α) :
    ∃ s', call.apply s = some ((call.onList xs).1, s') ∧ s'.Holds (call.onList xs).2 := by
  cases call with
  | push item => exact ⟨_, rfl, h.push item⟩
  | pop =>
    cases xs with
    | nil =>
      refine ⟨s, ?_, h⟩
      rw [Call.apply, h.pop_nil]
      rfl
    | cons x xs =>
      obtain ⟨s', hpop, hs'⟩ := h.pop_cons
      refine ⟨s', ?_, hs'⟩
      rw [Call.apply, hpop]
      rfl
  | peek =>
    refine ⟨s, ?_, h⟩
    rw [Call.apply, h.peek_eq]
    rfl
  | clear =>
    obtain ⟨s', hclear, hs'⟩ := h.clear
    refine ⟨s', ?_, hs'⟩
    rw [Call.apply, hclear]
    rfl

theorem Holds.run (h : s.Holds xs) (calls : List (Call α)) :
    ∃ s', Stack.run calls s = some ((runList calls xs).1, s') ∧
      s'.Holds (runList calls xs).2 := by
  induction calls generalizing s xs with
  | nil => exact ⟨s, rfl, h⟩
  | cons call calls ih =>
    obtain ⟨s', happly, hs'⟩ := h.apply call
    obtain ⟨u, hrun, hu⟩ := ih hs'
    refine ⟨u, ?_, hu⟩
    simp only [Stack.run, happly, hs'.getListLength_eq, hrun, hs'.size_eq, Option.bind_eq_bind,
      Option.bind_some, Option.pure_def, runList]

/-- **A new stack refines a list with the top at its head**: whatever the calls, each returns what
it returns on the list, and after each of them `Stack_size`, the number of nodes and the length of
the list are the same. Without items, `Stack_pop` and `Stack_peek` return null and change
nothing. -/
theorem run_refines_list (calls : List (Call α)) :
    ∃ s : Stack α, run calls constructor = some ((runList calls []).1, s) ∧
      ((runList calls []).2 = [] → s.pop = some (none, s) ∧ s.peek = some none) := by
  obtain ⟨s, hrun, hs⟩ := constructor_holds.run calls
  refine ⟨s, hrun, fun hempty => ?_⟩
  rw [hempty] at hs
  exact ⟨hs.pop_nil, hs.peek_eq⟩

example : (runList [.push (some 1), .push none, .peek, .pop, .pop, .pop] ([] : List (Option ℕ))).1.map
    Seen.returned = [none, none, some none, some none, some (some 1), some none] := rfl

end Stack

end InsenseCVM
