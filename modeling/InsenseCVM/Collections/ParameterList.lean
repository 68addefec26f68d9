import InsenseCVM.Collections.Cursor

/-!
# The lists of a constructor

`component_call` puts the parameters it pops at the head of a list, and `component_constructor`
compares and binds them through the cursor. `Turned l xs ys`: the payloads are `xs`, and once round
from the cursor they come in the order `ys`. Insertions at the head leave the cursor at the element
that was there first, so that it does not begin with the first parameter until it is rewound.

The names of the parameters are put at the tail of another list. Since `last` is not moved, that
list comes to be a cycle of two nodes, the first and the latest: it is `Tailed`.
-/

namespace InsenseCVM

namespace IteratedList

open Linked

variable {α : Type} {l l' : IteratedList α} {xs ys : List α} {x y : α}

/-! ### Insertions at the head -/

def Turned (l : IteratedList α) (xs ys : List α) : Prop :=
  ∃ cells r, l.Represents cells ∧ RotatedAt l cells r ∧ cells.map Prod.snd = xs ∧
    r.map Prod.snd = ys

theorem Turned.getNextElement (h : Turned l xs (y :: ys)) :
    ∃ l', l.getNextElement = some (some y, l') ∧ Turned l' xs (ys ++ [y]) := by
  obtain ⟨cells, r, hrep, hrot, hxs, hys⟩ := h
  obtain ⟨c, r, rfl, rfl, rfl⟩ := List.map_eq_cons_iff.1 hys
  obtain ⟨p, hget, hp⟩ := hrep.getNextElement_rotate hrot
  exact ⟨_, hget, cells, r ++ [c], hrep.moved hp, hp, hxs, by simp⟩

theorem Turned.rewind (h : Turned l xs ys) : Turned l.rewind xs xs := by
  obtain ⟨cells, r, hrep, hrot, hxs, -⟩ := h
  have hne : cells ≠ [] := by
    rintro rfl
    exact hrot.ne_nil (List.perm_nil.1 hrot.perm)
  obtain ⟨c, cells, rfl⟩ := List.exists_cons_of_ne_nil hne
  have hrewind : l.rewind = { l with next := l.first } := by
    unfold IteratedList.rewind
    rw [hrep.isEmpty_eq]
    rfl
  have hfirst : RotatedAt { l with next := l.first } (c :: cells) (c :: cells) :=
    ⟨[], c :: cells, rfl, by simp, c, rfl, hrep.chain.1⟩
  rw [hrewind]
  exact ⟨c :: cells, c :: cells, hrep.moved hfirst, hfirst, hxs, hxs⟩

theorem Turned.length (h : Turned l xs ys) : l.getListLength = some xs.length := by
  obtain ⟨cells, r, hrep, -, rfl, -⟩ := h
  rw [hrep.getListLength_eq, List.length_map]

/-- Elements put at the head of the list, the last one first. -/
def insertElements (l : IteratedList α) (xs : List α) : IteratedList α :=
  xs.foldr (fun x l => l.insertElement (some x)) l

theorem insertElements_concat (l : IteratedList α) (xs : List α) (x : α) :
    l.insertElements (xs ++ [x]) = (l.insertElement (some x)).insertElements xs := by
  unfold insertElements
  rw [List.foldr_append]
  rfl

theorem Represents.insertElements {cells : List (ℕ × α)} (h : l.Represents cells) (xs : List α) :
    ∃ new, (l.insertElements xs).Represents (new ++ cells) ∧ new.map Prod.snd = xs := by
  induction xs with
  | nil => exact ⟨[], h, rfl⟩
  | cons x xs ih =>
    obtain ⟨new, hnew, hxs⟩ := ih
    exact ⟨_ :: new, hnew.insertElement x, by rw [List.map_cons, hxs]⟩

theorem represents_insertElements (xs : List α) (x : α) :
    ∃ cells c, (constructList.insertElements (xs ++ [x])).Represents (cells ++ [c]) ∧
      (constructList.insertElements (xs ++ [x])).next = some c.1 ∧
      cells.map Prod.snd = xs ∧ c.2 = x := by
  induction xs with
  | nil =>
    have hrep := (constructList_represents (α := α)).insertElement x
    exact ⟨[], _, hrep, rfl, rfl, rfl⟩
  | cons y xs ih =>
    obtain ⟨cells, c, hrep, hnext, hxs, hx⟩ := ih
    refine ⟨_ :: cells, c, hrep.insertElement y, ?_, by rw [List.map_cons, hxs], hx⟩
    have hne : (constructList.insertElements (xs ++ [x])).isEmpty = false := by
      rw [hrep.isEmpty_eq]
      simp
    show ((constructList.insertElements (xs ++ [x])).insertElement (some y)).next = _
    simp [insertElement, hne, constructNode, hnext]

/-- The cursor is at the element that was inserted first. -/
theorem turned_insertElements (xs : List α) (x : α) :
    Turned (constructList.insertElements (xs ++ [x])) (xs ++ [x]) (x :: xs) := by
  obtain ⟨cells, c, hrep, hnext, hxs, hx⟩ := represents_insertElements xs x
  refine ⟨cells ++ [c], c :: cells, hrep, ⟨cells, [c], rfl, rfl, c, rfl, hnext⟩, ?_, ?_⟩
  · rw [List.map_append, hxs, List.map_singleton, hx]
  · rw [List.map_cons, hxs, hx]

/-! ### Insertions at the tail -/

/-- From the cursor on, `x` and `y` come in turn. -/
def Alternates (l : IteratedList α) (x y : α) : Prop :=
  l.isEmpty = false ∧ ∃ a b, l.next = some a ∧ l.heap a = some ⟨x, some b⟩ ∧
    l.heap b = some ⟨y, some a⟩

theorem Alternates.getNextElement (h : Alternates l x y) :
    ∃ l', l.getNextElement = some (some x, l') ∧ Alternates l' y x := by
  obtain ⟨hne, a, b, hnext, ha, hb⟩ := h
  refine ⟨{ l with next := some b }, ?_, hne, b, a, rfl, hb, ha⟩
  unfold IteratedList.getNextElement
  rw [hne]
  simp [hnext, ha]

/-- The list to which `xs` were added at the tail, one after the other. -/
def Tailed (l : IteratedList α) (xs : List α) : Prop :=
  (xs = [] ∧ l = constructList) ∨ ∃ a b x y, xs.head? = some x ∧ xs.getLast? = some y ∧
    l.first = some a ∧ l.next = some a ∧ l.last = some a ∧ a < l.fresh ∧
    l.heap a = some ⟨x, some b⟩ ∧ l.heap b = some ⟨y, some a⟩

theorem Tailed.insertElementAtTail (h : Tailed l xs) (e : α) :
    ∃ l', l.insertElementAtTail (some e) = some l' ∧ Tailed l' (xs ++ [e]) := by
  rcases h with ⟨rfl, rfl⟩ | ⟨a, b, x, y, hx, hy, hfirst, hnext, hlast, hlt, ha, hb⟩
  · have hself : Function.update (Function.update (fun _ => none) 0 (some ⟨e, none⟩)) 0
        (some ⟨e, some 0⟩) 0 = some (⟨e, some 0⟩ : Node α) := by
      rw [Function.update_self]
    refine ⟨⟨Function.update (Function.update (fun _ => none) 0 (some ⟨e, none⟩)) 0
      (some ⟨e, some 0⟩), 1, some 0, some 0, some 0⟩, ?_, .inr ⟨0, 0, e, e, rfl, rfl, rfl, rfl, rfl,
      Nat.zero_lt_one, hself, hself⟩⟩
    rfl
  · have hne : l.isEmpty = false := by
      unfold isEmpty
      rw [hfirst]
      rfl
    have hfresh : a ≠ l.fresh := Nat.ne_of_lt hlt
    -- the node at `a`, which is first and last, is linked to the new one, and the new one to it
    refine ⟨{ l with
        heap := Function.update (Function.update (Function.update l.heap l.fresh (some ⟨e, none⟩)) a
          (some ⟨x, some l.fresh⟩)) l.fresh (some ⟨e, some a⟩)
        fresh := l.fresh + 1 }, ?_, .inr ⟨a, l.fresh, x, e, ?_, by simp, hfirst, hnext, hlast,
      Nat.lt_succ_of_lt hlt, ?_, Function.update_self ..⟩⟩
    · unfold IteratedList.insertElementAtTail
      simp only [hne, Bool.false_eq_true, if_false, constructNode, setTail, hlast, hfirst,
        Option.bind_eq_bind, Option.bind_some, Function.update_of_ne hfresh,
        Function.update_of_ne hfresh.symm, ha, Function.update_self, Option.pure_def]
    · rw [List.head?_append, hx]
      rfl
    · show Function.update (Function.update _ a _) l.fresh _ a = _
      rw [Function.update_of_ne hfresh, Function.update_self]

theorem Tailed.rewind (h : Tailed l xs) : l.rewind = l := by
  unfold IteratedList.rewind
  rcases h with ⟨-, rfl⟩ | ⟨a, b, x, y, -, -, hfirst, hnext, -⟩
  · rfl
  · obtain ⟨heap, fresh, first, next, last⟩ := l
    obtain rfl : first = some a := hfirst
    obtain rfl : next = some a := hnext
    exact ite_self _

theorem Tailed.alternates (h : Tailed l xs) (hx : xs.head? = some x) (hy : xs.getLast? = some y) :
    Alternates l x y := by
  rcases h with ⟨rfl, -⟩ | ⟨a, b, x', y', hx', hy', hfirst, hnext, -, -, ha, hb⟩
  · cases hx
  · obtain rfl := Option.some.inj (hx.symm.trans hx')
    obtain rfl := Option.some.inj (hy.symm.trans hy')
    refine ⟨?_, a, b, hnext, ha, hb⟩
    unfold isEmpty
    rw [hfirst]
    rfl

end IteratedList

end InsenseCVM
