import InsenseCVM.Collections.Cursor
import InsenseCVM.Collections.Mutators
import Mathlib.Data.List.Rotate

/-!
# Scans of an iterated list

The scans of the channels and the searches of the maps start wherever the cursor happens to be.
A list made by insertions, removals, rewinding and reading has its cursor at one of its nodes, so
as many calls of `IteratedList_getNextElement` as there are nodes hand out each of them once and
bring the cursor back, and `IteratedList_searchList` finds an element wherever it starts.
-/

namespace InsenseCVM

namespace IteratedList

open Linked

variable {α : Type} {l : IteratedList α} {cells : List (ℕ × α)}

/-! ### Calls that keep the cursor at a node -/

/-- A call on a list; a null element is `none`. -/
inductive Call (α : Type)
  | insertElement (element : Option α)
  | removeElement (element : Option α)
  | rewind
  | getNextElement

section Calls

variable [DecidableEq α]

def Call.apply (l : IteratedList α) : Call α → Option (IteratedList α)
  | .insertElement element => some (l.insertElement element)
  | .removeElement element => l.removeElement element
  | .rewind => some l.rewind
  | .getNextElement => l.getNextElement.map Prod.snd

/-- The call on the sequence of the elements. -/
def Call.onSequence (xs : List α) : Call α → List α
  | .insertElement (some element) => element :: xs
  | .removeElement (some element) => xs.erase element
  | _ => xs

/-- The list after calls on a new one. -/
def called (calls : List (Call α)) : Option (IteratedList α) :=
  calls.foldlM Call.apply constructList

/-- The sequence of the elements after the same calls. -/
def calledSequence (calls : List (Call α)) : List α := calls.foldl Call.onSequence []

end Calls

theorem Represents.rewind (h : Represents l cells) : Represents l.rewind cells := by
  unfold IteratedList.rewind
  rw [h.isEmpty_eq]
  cases cells with
  | nil => exact h
  | cons c cells => exact ⟨h.chain, h.bounded, fun _ => ⟨c, List.mem_cons_self, h.chain.1⟩⟩

theorem Represents.getNextElement (h : Represents l cells) :
    ∃ element l', l.getNextElement = some (element, l') ∧ Represents l' cells := by
  cases cells with
  | nil =>
    have hempty : l.isEmpty = true := by simp [h.isEmpty_eq]
    exact ⟨none, l, if_pos hempty, h⟩
  | cons c cells =>
    obtain ⟨r, hr⟩ := h.exists_rotatedAt (List.cons_ne_nil c cells)
    obtain ⟨d, rs, rfl⟩ := List.exists_cons_of_ne_nil hr.ne_nil
    obtain ⟨p, hget, hp⟩ := h.getNextElement_rotate hr
    exact ⟨some d.2, _, hget, h.moved hp⟩

section Calls

variable [DecidableEq α]

/-- Removal before, at or behind the cursor, at either end or of an element that is not there. -/
theorem Represents.removeElement (h : Represents l cells) (e : α) :
    ∃ l' cells', l.removeElement (some e) = some l' ∧ Represents l' cells' ∧
      cells'.map Prod.snd = (cells.map Prod.snd).erase e := by
  by_cases he : e ∈ cells.map Prod.snd
  · obtain ⟨a, xs, ys, rfl, hxs⟩ := exists_first_cell he
    obtain ⟨l', hl', hrep, -⟩ := h.removeElement_present hxs
    exact ⟨l', _, hl', hrep, (erase_of_first_cell hxs).symm⟩
  · have habsent : ∀ c ∈ cells, c.2 ≠ e := by
      intro c hc hce
      exact he (List.mem_map.2 ⟨c, hc, hce⟩)
    exact ⟨l, cells, h.removeElement_absent habsent, h, (List.erase_of_not_mem he).symm⟩

theorem Represents.call (h : Represents l cells) (call : Call α) :
    ∃ l' cells', call.apply l = some l' ∧ Represents l' cells' ∧
      cells'.map Prod.snd = call.onSequence (cells.map Prod.snd) := by
  cases call with
  | insertElement element =>
    cases element with
    | none => exact ⟨l, cells, rfl, h, rfl⟩
    | some e => exact ⟨_, _, rfl, h.insertElement e, rfl⟩
  | removeElement element =>
    cases element with
    | none => exact ⟨l, cells, rfl, h, rfl⟩
    | some e => exact h.removeElement e
  | rewind => exact ⟨_, cells, rfl, h.rewind, rfl⟩
  | getNextElement =>
    obtain ⟨element, l', hget, hl'⟩ := h.getNextElement
    refine ⟨l', cells, ?_, hl', rfl⟩
    rw [Call.apply, hget]
    rfl

theorem called_represents (calls : List (Call α)) :
    ∃ l cells, called calls = some l ∧ Represents l cells ∧
      cells.map Prod.snd = calledSequence calls := by
  induction calls using List.reverseRecOn with
  | nil => exact ⟨constructList, [], rfl, constructList_represents, rfl⟩
  | append_singleton calls call ih =>
    obtain ⟨l, cells, hl, hrep, hcells⟩ := ih
    obtain ⟨l', cells', hl', hrep', hcells'⟩ := hrep.call call
    refine ⟨l', cells', ?_, hrep', ?_⟩
    · rw [called, List.foldlM_append, ← called, hl]
      simp [hl']
    · rw [hcells', hcells, calledSequence, calledSequence, List.foldl_append]
      rfl

end Calls

/-! ### A full scan -/

theorem RotatedAt.isRotated {r : List (ℕ × α)} (h : RotatedAt l cells r) :
    r.IsRotated cells := by
  obtain ⟨pre, post, rfl, rfl, -⟩ := h
  exact List.isRotated_append

/-- `n` calls of `IteratedList_getNextElement`. -/
def nextElements : ℕ → IteratedList α → Option (List (Option α) × IteratedList α)
  | 0, l => some ([], l)
  | n + 1, l => do
    let (element, l') ← l.getNextElement
    let (elements, l'') ← nextElements n l'
    return (element :: elements, l'')

/-- The nodes `todo` are handed out one after the other, and `done` before them. -/
theorem Represents.nextElements_rotate {done todo : List (ℕ × α)} (h : Represents l cells)
    (hr : RotatedAt l cells (todo ++ done)) :
    ∃ p, nextElements todo.length l =
        some (todo.map fun c => some c.2, { l with next := p }) ∧
      RotatedAt { l with next := p } cells (done ++ todo) := by
  induction todo generalizing l done with
  | nil =>
    rw [List.nil_append] at hr
    exact ⟨l.next, rfl, by rwa [List.append_nil]⟩
  | cons c todo ih =>
    rw [List.cons_append] at hr
    obtain ⟨p, hget, hp⟩ := h.getNextElement_rotate hr
    rw [List.append_assoc] at hp
    obtain ⟨q, hscan, hq⟩ := ih (h.moved hp) hp
    refine ⟨q, ?_, by simpa using hq⟩
    simp only [List.length_cons, nextElements, hget, Option.bind_eq_bind, Option.bind_some, hscan,
      Option.pure_def, List.map_cons]

theorem Represents.nextElements_once (h : Represents l cells) (hne : cells ≠ []) :
    ∃ r : List (ℕ × α), r.IsRotated cells ∧
      nextElements cells.length l = some (r.map fun c => some c.2, l) := by
  obtain ⟨r, hr⟩ := h.exists_rotatedAt hne
  have hr' : RotatedAt l cells (r ++ []) := by rwa [List.append_nil]
  obtain ⟨p, hscan, hp⟩ := h.nextElements_rotate hr'
  have hcursor : p = l.next := hp.next_eq.trans hr.next_eq.symm
  subst hcursor
  rw [hr.perm.length_eq] at hscan
  exact ⟨r, hr.isRotated, hscan⟩

/-- **A full scan meets every node once**: after any insertions, removals, rewinding and reading,
as many calls as the list is long return the elements, turned so that the one at the cursor comes
first, and leave the list with its cursor as it was. -/
theorem scan_isRotated [DecidableEq α] (calls : List (Call α)) :
    ∃ l, called calls = some l ∧ l.getListLength = some (calledSequence calls).length ∧
      (∀ index, l.getElementN index = some (calledSequence calls)[index]?) ∧
      (0 < (calledSequence calls).length → ∃ ys : List α, ys.IsRotated (calledSequence calls) ∧
        nextElements (calledSequence calls).length l = some (ys.map some, l)) := by
  obtain ⟨l, cells, hl, hrep, hcells⟩ := called_represents calls
  rw [← hcells]
  refine ⟨l, hl, ?_, hrep.getElementN_eq, fun hpos => ?_⟩
  · rw [List.length_map, hrep.getListLength_eq]
  · rw [List.length_map] at hpos ⊢
    obtain ⟨r, hr, hscan⟩ := hrep.nextElements_once (List.ne_nil_of_length_pos hpos)
    refine ⟨r.map Prod.snd, hr.map Prod.snd, ?_⟩
    rw [hscan, List.map_map]
    rfl

/-! ### A search from any node -/

/-- The list after insertions into a new one. -/
def inserted (xs : List α) : IteratedList α :=
  xs.foldl (fun l x => l.insertElement (some x)) constructList

theorem inserted_represents (xs : List α) :
    ∃ cells, Represents (inserted xs) cells ∧ cells.map Prod.snd = xs.reverse := by
  induction xs using List.reverseRecOn with
  | nil => exact ⟨[], constructList_represents, rfl⟩
  | append_singleton xs x ih =>
    obtain ⟨cells, hrep, hcells⟩ := ih
    refine ⟨((inserted xs).fresh, x) :: cells, ?_, ?_⟩
    · have hinsert := hrep.insertElement x
      rwa [inserted, List.foldl_append]
    · rw [List.map_cons, hcells, List.reverse_append]
      rfl

/-- `p` is a place for the cursor: one of the nodes, or anything when there is none. -/
def Position (l : IteratedList α) (p : Option ℕ) : Prop :=
  ∃ cells, Chain l.heap l.first cells ∧ (cells ≠ [] → ∃ c ∈ cells, p = some c.1)

theorem Represents.at_position {p : Option ℕ} (h : Represents l cells) (hp : Position l p) :
    Represents { l with next := p } cells := by
  obtain ⟨cells', hchain, hcursor⟩ := hp
  obtain rfl := h.chain.unique hchain
  exact ⟨h.chain, h.bounded, hcursor⟩

variable {f : α → Bool} {result : Option α}

/-- What a search owes its caller. -/
def Answers (f : α → Bool) (xs : List α) : Option α → Prop
  | some x => x ∈ xs ∧ f x = true
  | none => ∀ x ∈ xs, f x = false

theorem answers_find (f : α → Bool) (xs : List α) : Answers f xs (xs.find? f) := by
  cases hfind : xs.find? f with
  | none => exact fun x hx => by simpa using List.find?_eq_none.1 hfind x hx
  | some x => exact ⟨List.mem_of_find?_eq_some hfind, List.find?_some hfind⟩

theorem Answers.perm {xs ys : List α} (h : Answers f xs result) (hp : xs.Perm ys) :
    Answers f ys result := by
  cases result with
  | none => exact fun x hx => h x (hp.mem_iff.2 hx)
  | some x => exact ⟨hp.mem_iff.1 h.1, h.2⟩

/-- With at most one element to be found there is one answer. -/
theorem Answers.unique {xs : List α} {other : Option α} (h : Answers f xs result)
    (h' : Answers f xs other) (hone : ∀ x ∈ xs, ∀ y ∈ xs, f x = true → f y = true → x = y) :
    result = other := by
  cases result with
  | none =>
    cases other with
    | none => rfl
    | some y => exact absurd h'.2 (by simp [h y h'.1])
  | some x =>
    cases other with
    | none => exact absurd h.2 (by simp [h' x h.1])
    | some y => rw [hone x h.1 y h'.1 h.2 h'.2]

section Search

variable [DecidableEq α]

/-- The search looks at the elements in the order in which they are handed out. -/
theorem Represents.searchList_find {r : List (ℕ × α)} (h : Represents l cells)
    (hr : RotatedAt l cells r) (hnd : (cells.map Prod.snd).Nodup) :
    ∃ p, l.searchList f = some ((r.map Prod.snd).find? f, { l with next := p }) := by
  cases hfind : (r.map Prod.snd).find? f with
  | none =>
    have hall : ∀ d ∈ r, f d.2 = false := fun d hd => by
      simpa using List.find?_eq_none.1 hfind d.2 (List.mem_map_of_mem hd)
    obtain ⟨c, rs, rfl⟩ := List.exists_cons_of_ne_nil hr.ne_nil
    obtain ⟨p, hs, -⟩ := h.searchList_absent hr hnd hall
    exact ⟨p, hs⟩
  | some x =>
    obtain ⟨hx, as, bs, hsplit, has⟩ := List.find?_eq_some_iff_append.1 hfind
    obtain ⟨xs, ys, rfl, rfl, hys⟩ := List.map_eq_append_iff.1 hsplit
    obtain ⟨c, ys, rfl, rfl, rfl⟩ := List.map_eq_cons_iff.1 hys
    have hxs : ∀ d ∈ xs, f d.2 = false := fun d hd => by
      simpa using has d.2 (List.mem_map_of_mem hd)
    obtain ⟨p, hs, -⟩ := h.searchList_found hr hnd hxs hx
    exact ⟨p, hs⟩

theorem Represents.searchList_answers (h : Represents l cells)
    (hnd : (cells.map Prod.snd).Nodup) :
    ∃ result l', l.searchList f = some (result, l') ∧ Answers f (cells.map Prod.snd) result := by
  by_cases hne : cells = []
  · subst hne
    exact ⟨none, l, h.searchList_nil, fun x hx => by cases hx⟩
  · obtain ⟨r, hr⟩ := h.exists_rotatedAt hne
    obtain ⟨p, hs⟩ := h.searchList_find hr hnd
    exact ⟨_, _, hs, (answers_find f _).perm (hr.perm.map Prod.snd)⟩

/-- Wherever the cursor stands, a search of distinct elements returns with an answer. -/
theorem inserted_answers {xs : List α} {p : Option ℕ} (hnd : xs.Nodup)
    (hp : Position (inserted xs) p) :
    ∃ result l', searchList { inserted xs with next := p } f = some (result, l') ∧
      Answers f xs result := by
  obtain ⟨cells, hrep, hcells⟩ := inserted_represents xs
  have hcells' : (cells.map Prod.snd).Perm xs := hcells ▸ xs.reverse_perm
  obtain ⟨result, l', hs, hanswers⟩ :=
    (hrep.at_position hp).searchList_answers (f := f) (hcells'.nodup_iff.2 hnd)
  exact ⟨result, l', hs, hanswers.perm hcells'⟩

/-- **A search is complete from every place of the cursor**: with distinct elements it returns one
that qualifies when there is one and null otherwise, and with at most one that qualifies it returns
the same from every place. -/
theorem searchList_complete {xs : List α} (hnd : xs.Nodup) (f : α → Bool) :
    (∀ p, Position (inserted xs) p →
      ∃ result l', searchList { inserted xs with next := p } f = some (result, l') ∧
        ((∃ x ∈ xs, f x = true) → ∃ x ∈ xs, f x = true ∧ result = some x) ∧
        ((∀ x ∈ xs, f x = false) → result = none)) ∧
      ((∀ x ∈ xs, ∀ y ∈ xs, f x = true → f y = true → x = y) →
        ∀ p q, Position (inserted xs) p → Position (inserted xs) q →
          (searchList { inserted xs with next := p } f).map Prod.fst =
            (searchList { inserted xs with next := q } f).map Prod.fst) := by
  refine ⟨fun p hp => ?_, fun hone p q hp hq => ?_⟩
  · obtain ⟨result, l', hs, hanswers⟩ := inserted_answers (f := f) hnd hp
    refine ⟨result, l', hs, fun ⟨y, hy, hfy⟩ => ?_, fun hall => ?_⟩
    · cases result with
      | none => exact absurd hfy (by simp [hanswers y hy])
      | some x => exact ⟨x, hanswers.1, hanswers.2, rfl⟩
    · cases result with
      | none => rfl
      | some x => exact absurd hanswers.2 (by simp [hall x hanswers.1])
  · obtain ⟨result, l', hs, hanswers⟩ := inserted_answers (f := f) hnd hp
    obtain ⟨other, l'', hs', hanswers'⟩ := inserted_answers (f := f) hnd hq
    rw [hs, hs']
    exact congrArg some (hanswers.unique hanswers' hone)

/-- Three elements, from the node in the middle. -/
theorem searchList_complete_three : Position (inserted [5, 7, 9]) (some 1) ∧
    ∃ l', searchList { inserted [5, 7, 9] with next := some 1 } (· == 5) = some (some 5, l') := by
  have hp : Position (inserted [5, 7, 9]) (some 1) :=
    ⟨[(2, 9), (1, 7), (0, 5)],
      ⟨rfl, some 1, rfl, rfl, some 0, rfl, rfl, none, rfl, rfl⟩, fun _ => ⟨(1, 7), by simp, rfl⟩⟩
  have hnd : [5, 7, 9].Nodup := by decide
  obtain ⟨result, l', hs, hfound, -⟩ := (searchList_complete hnd (· == 5)).1 (some 1) hp
  obtain ⟨x, -, hx, rfl⟩ := hfound ⟨5, by simp, rfl⟩
  obtain rfl : x = 5 := by simpa using hx
  exact ⟨hp, l', hs⟩

end Search

end IteratedList

end InsenseCVM
