import InsenseCVM.Collections.IteratedList
import Mathlib.Data.List.Basic

/-!
# Iterated lists as sequences

`Represents l cells` says that the nodes reachable from `first` are `cells`, in order and up to
the null pointer, and that the cursor stands at one of them when there is one. It says nothing
about `last`, which only `insertElementAtTail` and `removeAllElements` read: `LastIsFinal` is a
predicate of its own. Each operation gets one lemma about `cells`; the traversals return what
the sequence of payloads says.
-/

namespace InsenseCVM

namespace IteratedList

open Linked

variable {α : Type} {l : IteratedList α} {cells : List (ℕ × α)}

/-- The list holds exactly the nodes `cells`, and the cursor is one of them. -/
structure Represents (l : IteratedList α) (cells : List (ℕ × α)) : Prop where
  chain : Chain l.heap l.first cells
  bounded : ∀ a, l.heap a ≠ none → a < l.fresh
  cursor : cells ≠ [] → ∃ c ∈ cells, l.next = some c.1

/-- `last` is the final node. -/
def LastIsFinal (l : IteratedList α) (cells : List (ℕ × α)) : Prop :=
  ∀ c, cells.getLast? = some c → l.last = some c.1

theorem constructList_represents : Represents (constructList : IteratedList α) [] where
  chain := rfl
  bounded := fun _ h => absurd rfl h
  cursor := fun h => absurd rfl h

theorem Represents.isEmpty_eq (h : Represents l cells) : l.isEmpty = cells.isEmpty := by
  cases cells with
  | nil => simp [isEmpty, (chain_nil.1 h.chain)]
  | cons c cells => simp [isEmpty, h.chain.1]

theorem Represents.fresh_free (h : Represents l cells) : l.heap l.fresh = none := by
  by_contra hne
  exact absurd (h.bounded _ hne) (lt_irrefl _)

theorem Represents.fresh_notMem (h : Represents l cells) : l.fresh ∉ cells.map Prod.fst := by
  intro hmem
  obtain ⟨c, hc, hcf⟩ := List.mem_map.1 hmem
  obtain ⟨t, ht⟩ := Seg.live h.chain hc
  rw [hcf, h.fresh_free] at ht
  cases ht

theorem Represents.length_le (h : Represents l cells) : cells.length ≤ l.fresh :=
  h.chain.length_le h.bounded

/-- Writing to a live or new address keeps every live address below the bound. -/
theorem bounded_update {heap : Heap α} {bound bound' a : ℕ} {n : Option (Node α)}
    (hb : ∀ i, heap i ≠ none → i < bound) (hle : bound ≤ bound') (ha : a < bound') :
    ∀ i, Function.update heap a n i ≠ none → i < bound' := by
  intro i hi
  by_cases hia : i = a
  · exact hia ▸ ha
  · rw [Function.update_of_ne hia] at hi
    exact lt_of_lt_of_le (hb i hi) hle

/-! ### Insertion at the head -/

theorem insertElement_eq (l : IteratedList α) (e : α) :
    l.insertElement (some e) =
      { heap := Function.update l.heap l.fresh (some ⟨e, l.first⟩)
        fresh := l.fresh + 1
        first := some l.fresh
        next := if l.isEmpty then some l.fresh else l.next
        last := if l.isEmpty then some l.fresh else l.last } := by
  unfold insertElement constructNode
  by_cases he : l.isEmpty <;> simp [he]

theorem Represents.insertElement (h : Represents l cells) (e : α) :
    Represents (l.insertElement (some e)) ((l.fresh, e) :: cells) := by
  rw [insertElement_eq]
  refine ⟨⟨rfl, l.first, by simp, Seg.update h.chain h.fresh_notMem⟩,
    bounded_update h.bounded (Nat.le_succ _) (Nat.lt_succ_self _), fun _ => ?_⟩
  rw [h.isEmpty_eq]
  cases cells with
  | nil => exact ⟨(l.fresh, e), by simp, rfl⟩
  | cons c cells =>
    obtain ⟨d, hd, hnext⟩ := h.cursor (by simp)
    exact ⟨d, List.mem_cons_of_mem _ hd, hnext⟩

theorem Represents.insertElement_last (h : Represents l cells) (hl : LastIsFinal l cells) (e : α) :
    LastIsFinal (l.insertElement (some e)) ((l.fresh, e) :: cells) := by
  rw [insertElement_eq]
  intro c hc
  simp only [h.isEmpty_eq]
  cases cells with
  | nil =>
    obtain rfl : (l.fresh, e) = c := by simpa using hc
    rfl
  | cons d cells =>
    rw [List.getLast?_cons_cons] at hc
    exact hl c hc

/-! ### Traversals -/

theorem lengthFrom_eq {heap : Heap α} {p : Option ℕ} {fuel count : ℕ} (hc : Chain heap p cells)
    (hf : cells.length ≤ fuel) : lengthFrom heap fuel p count = some (count + cells.length) := by
  induction cells generalizing p fuel count with
  | nil =>
    rw [chain_nil.1 hc]
    cases fuel <;> rfl
  | cons c cells ih =>
    obtain ⟨rfl, t, ht, hc⟩ := hc
    obtain ⟨fuel, rfl⟩ := Nat.exists_eq_add_one.2 (Nat.zero_lt_of_lt hf)
    have hrec := @ih t fuel (count + 1) hc (Nat.le_of_succ_le_succ hf)
    simp only [lengthFrom, ht, Option.bind_eq_bind, Option.bind_some, hrec, List.length_cons]
    congr 1
    omega

theorem Represents.getListLength_eq (h : Represents l cells) :
    l.getListLength = some cells.length := by
  have hlen := h.length_le
  rw [getListLength, lengthFrom_eq h.chain (by omega), Nat.zero_add]

theorem skipFrom_eq {heap : Heap α} {p : Option ℕ} (hc : Chain heap p cells) (index : ℕ) :
    skipFrom heap index p = some (cells[index]?.map Prod.fst) := by
  induction index generalizing p cells with
  | zero =>
    cases cells with
    | nil => simp [skipFrom, chain_nil.1 hc]
    | cons c cells => simp [skipFrom, hc.1]
  | succ index ih =>
    cases cells with
    | nil => simp [skipFrom, chain_nil.1 hc]
    | cons c cells =>
      obtain ⟨rfl, t, ht, hc⟩ := hc
      simp [skipFrom, ht, ih hc]

theorem Represents.getElementN_eq (h : Represents l cells) (index : ℕ) :
    l.getElementN index = some (cells.map Prod.snd)[index]? := by
  rw [getElementN, skipFrom_eq h.chain, List.getElem?_map]
  cases hi : cells[index]? with
  | none => rfl
  | some c =>
    obtain ⟨t, ht⟩ := Seg.live h.chain (List.mem_of_getElem? hi)
    simp [ht]

section Compare

variable [DecidableEq α]

theorem containsFrom_eq {heap : Heap α} {p : Option ℕ} {fuel : ℕ} (hc : Chain heap p cells)
    (hf : cells.length ≤ fuel) (e : α) :
    containsFrom heap e fuel p = some (decide (e ∈ cells.map Prod.snd)) := by
  induction cells generalizing p fuel with
  | nil =>
    rw [chain_nil.1 hc]
    cases fuel <;> simp [containsFrom]
  | cons c cells ih =>
    obtain ⟨rfl, t, ht, hc⟩ := hc
    obtain ⟨fuel, rfl⟩ := Nat.exists_eq_add_one.2 (Nat.zero_lt_of_lt hf)
    have hrec := @ih t fuel hc (Nat.le_of_succ_le_succ hf)
    by_cases he : c.2 = e
    · simp [containsFrom, ht, he]
    · simp [containsFrom, ht, he, hrec, Ne.symm he]

theorem Represents.containsElement_eq (h : Represents l cells) (e : α) :
    l.containsElement e = some (decide (e ∈ cells.map Prod.snd)) := by
  have hlen := h.length_le
  rw [containsElement, h.isEmpty_eq, containsFrom_eq h.chain (by omega)]
  cases cells <;> simp

/-! ### Removal -/

theorem findFrom_absent {heap : Heap α} {p : Option ℕ} {fuel : ℕ} {e : α} (previous : ℕ)
    (hc : Chain heap p cells) (hf : cells.length ≤ fuel) (he : ∀ c ∈ cells, c.2 ≠ e) :
    ∃ b, findFrom heap e fuel previous p = some (b, none) := by
  induction cells generalizing p fuel previous with
  | nil =>
    rw [chain_nil.1 hc]
    exact ⟨previous, by cases fuel <;> rfl⟩
  | cons c cells ih =>
    obtain ⟨rfl, t, ht, hc⟩ := hc
    obtain ⟨fuel, rfl⟩ := Nat.exists_eq_add_one.2 (Nat.zero_lt_of_lt hf)
    obtain ⟨b, hb⟩ := @ih t fuel c.1 hc (Nat.le_of_succ_le_succ hf)
      (fun d hd => he d (List.mem_cons_of_mem _ hd))
    exact ⟨b, by simp [findFrom, ht, he c (by simp), hb]⟩

theorem findFrom_present {heap : Heap α} {p : Option ℕ} {fuel a : ℕ} {e : α}
    {xs ys : List (ℕ × α)} (previous : ℕ) (hc : Chain heap p (xs ++ (a, e) :: ys))
    (hf : xs.length < fuel) (he : ∀ c ∈ xs, c.2 ≠ e) :
    findFrom heap e fuel previous p =
      some ((previous :: xs.map Prod.fst).getLast (by simp), some a) := by
  induction xs generalizing p fuel previous with
  | nil =>
    obtain ⟨rfl, t, ht, -⟩ := hc
    obtain ⟨fuel, rfl⟩ := Nat.exists_eq_add_one.2 (Nat.zero_lt_of_lt hf)
    simp [findFrom, ht]
  | cons c xs ih =>
    obtain ⟨rfl, t, ht, hc⟩ := hc
    obtain ⟨fuel, rfl⟩ := Nat.exists_eq_add_one.2 (Nat.zero_lt_of_lt hf)
    have hrec := @ih t fuel c.1 hc (Nat.lt_of_succ_lt_succ hf)
      (fun d hd => he d (List.mem_cons_of_mem _ hd))
    simp [findFrom, ht, he c (by simp), hrec]

theorem Represents.removeElement_absent (h : Represents l cells) {e : α}
    (he : ∀ c ∈ cells, c.2 ≠ e) : l.removeElement (some e) = some l := by
  have hchain := h.chain
  have hlen := h.length_le
  cases cells with
  | nil => simp [removeElement, chain_nil.1 hchain]
  | cons c cells =>
    obtain ⟨hfirst, t, ht, hc⟩ := hchain
    simp only [List.length_cons] at hlen
    have hf : cells.length ≤ l.fresh + 1 := by omega
    obtain ⟨b, hb⟩ := findFrom_absent c.1 hc hf fun d hd => he d (List.mem_cons_of_mem _ hd)
    simp [removeElement, hfirst, ht, he c (by simp), hb]

/-- Removal at the head. -/
theorem Represents.removeElement_head {a : ℕ} {e : α} {ys : List (ℕ × α)}
    (h : Represents l ((a, e) :: ys)) :
    ∃ l', l.removeElement (some e) = some l' ∧ Represents l' ys ∧ l'.last = l.last := by
  obtain ⟨hfirst, t, ht, hc⟩ := h.chain
  have hays : a ∉ ys.map Prod.fst := (List.nodup_cons.1 h.chain.nodup).1
  simp only [] at hfirst ht
  refine ⟨freeNode { l with first := t, next := if l.next = some a then t else l.next } a,
    by simp [removeElement, hfirst, ht], ⟨Seg.update hc hays, ?_, fun hne => ?_⟩, rfl⟩
  · exact bounded_update h.bounded le_rfl (h.bounded a (by simp [ht]))
  · obtain ⟨c, hc', hnext⟩ := h.cursor (by simp)
    simp only [freeNode]
    by_cases hca : l.next = some a
    · rw [if_pos hca]
      cases ys with
      | nil => exact absurd rfl hne
      | cons d ys => exact ⟨d, by simp, hc.1⟩
    · rw [if_neg hca]
      rcases List.mem_cons.1 hc' with rfl | hys
      · exact absurd hnext hca
      · exact ⟨c, hys, hnext⟩

omit [DecidableEq α] in
/-- Removal behind the head: `b` is the predecessor the loop stops with. -/
theorem Represents.unlink {a b : ℕ} {e x : α} {xs ys : List (ℕ × α)}
    (h : Represents l (xs ++ (b, x) :: (a, e) :: ys)) :
    ∃ l', l.unlink b a = some l' ∧ Represents l' (xs ++ (b, x) :: ys) ∧ l'.last = l.last := by
  obtain ⟨t, ht⟩ := Seg.live h.chain (c := (a, e)) (by simp)
  obtain ⟨tb, hb⟩ := Seg.live h.chain (c := (b, x)) (by simp)
  simp only [] at ht hb
  obtain ⟨r, -, -, -, -, -, t', ht', hys⟩ := seg_append.1 h.chain
  rw [ht] at ht'
  obtain rfl : t = t' := by simpa using ht'
  refine ⟨{ l with
      heap := Function.update (Function.update l.heap b (some ⟨x, t⟩)) a none
      next := if (if l.next = some a then t else l.next) = none then l.first
        else if l.next = some a then t else l.next },
    by simp [IteratedList.unlink, setTail, freeNode, ht, hb],
    ⟨h.chain.unlink ht, ?_, fun _ => ?_⟩, rfl⟩
  · exact bounded_update (bounded_update h.bounded le_rfl (h.bounded b (by simp [hb]))) le_rfl
      (h.bounded a (by simp [ht]))
  · obtain ⟨c, hc, hnext⟩ := h.cursor (by simp)
    simp only []
    by_cases hca : l.next = some a
    · cases ys with
      | nil =>
        -- the freed node was the final one, so the cursor wraps round to `first`
        rw [if_pos hca, seg_nil.1 hys, if_pos rfl]
        cases xs with
        | nil => exact ⟨(b, x), by simp, h.chain.1⟩
        | cons d xs => exact ⟨d, by simp, h.chain.1⟩
      | cons d ys =>
        rw [if_pos hca, hys.1, if_neg (by simp)]
        exact ⟨d, by simp, rfl⟩
    · rw [if_neg hca, hnext, if_neg (by simp)]
      refine ⟨c, ?_, rfl⟩
      have hne : c ≠ (a, e) := by
        rintro rfl
        exact hca hnext
      simp only [List.mem_append, List.mem_cons, hne, false_or] at hc ⊢
      exact hc

/-- Removal of an element takes out the first node that holds it and leaves `last` alone. -/
theorem Represents.removeElement_present {a : ℕ} {e : α} {xs ys : List (ℕ × α)}
    (h : Represents l (xs ++ (a, e) :: ys)) (he : ∀ c ∈ xs, c.2 ≠ e) :
    ∃ l', l.removeElement (some e) = some l' ∧ Represents l' (xs ++ ys) ∧ l'.last = l.last := by
  rcases List.eq_nil_or_concat xs with rfl | ⟨zs, ⟨b, x⟩, rfl⟩
  · exact h.removeElement_head
  · rw [List.concat_eq_append, List.append_assoc, List.singleton_append] at h
    have hlen := h.length_le
    obtain ⟨l', hl', hrep, hlast⟩ := h.unlink
    refine ⟨l', ?_, by simpa using hrep, hlast⟩
    have hchain := h.chain
    cases zs with
    | nil =>
      obtain ⟨hfirst, t, ht, hc⟩ := hchain
      have hc : Chain l.heap t ([] ++ (a, e) :: ys) := hc
      have hfind := findFrom_present b hc (Nat.succ_pos l.fresh) (by simp)
      simp only [] at hfirst ht
      have hx : x ≠ e := he (b, x) (by simp)
      simp [removeElement, hfirst, ht, hx, hfind, hl']
    | cons c zs =>
      obtain ⟨hfirst, t, ht, hc⟩ := hchain
      have hc : Chain l.heap t ((zs ++ [(b, x)]) ++ (a, e) :: ys) := by
        simpa [Chain] using hc
      have hf : (zs ++ [(b, x)]).length < l.fresh + 1 := by
        simp at hlen ⊢
        omega
      have hfind := findFrom_present c.1 hc hf fun d hd => he d (by simp at hd ⊢; tauto)
      simp [removeElement, hfirst, ht, he c (by simp), hfind, hl']

end Compare

/-! ### Emptying -/

theorem freeFrom_eq {p : Option ℕ} (fuel : ℕ) (hc : Chain l.heap p cells)
    (hf : cells.length ≤ fuel) :
    ∃ l', l.freeFrom fuel p = some l' ∧ l'.fresh = l.fresh ∧
      ∀ a, l'.heap a ≠ none → l.heap a ≠ none := by
  induction cells generalizing l p fuel with
  | nil =>
    rw [chain_nil.1 hc]
    exact ⟨l, by cases fuel <;> rfl, rfl, fun _ h => h⟩
  | cons c cells ih =>
    obtain ⟨fuel, rfl⟩ := Nat.exists_eq_add_one.2 (Nat.zero_lt_of_lt hf)
    have hnd := (List.nodup_cons.1 hc.nodup).1
    obtain ⟨rfl, t, ht, hc⟩ := hc
    obtain ⟨l', hl', hfresh, hlive⟩ := @ih (l.freeNode c.1) t fuel
      (Seg.update hc hnd) (Nat.le_of_succ_le_succ hf)
    refine ⟨l', by simp [freeFrom, ht, hl'], hfresh, fun a ha => ?_⟩
    have hfree := hlive a ha
    simp only [freeNode, Function.update_apply] at hfree
    split_ifs at hfree
    · exact absurd rfl hfree
    · exact hfree

theorem Represents.removeAllElements (h : Represents l cells) (hl : LastIsFinal l cells) :
    ∃ l', l.removeAllElements = some l' ∧ Represents l' [] := by
  rcases List.eq_nil_or_concat cells with rfl | ⟨xs, ⟨a, x⟩, rfl⟩
  · exact ⟨l, by simp [IteratedList.removeAllElements, h.isEmpty_eq], h⟩
  · rw [List.concat_eq_append] at h hl
    have hlast : l.last = some a := hl (a, x) (by simp)
    obtain ⟨r, -, -, t, ht, hnil⟩ := seg_append.1 h.chain
    obtain rfl : t = none := hnil
    simp only [] at ht
    -- the final node's tail is null already
    have hself : Function.update l.heap a (some ⟨x, none⟩) = l.heap := by
      rw [← ht, Function.update_eq_self]
    have hset : l.setTail a none = some l := by simp [setTail, ht, hself]
    obtain ⟨l', hl', hfresh, hlive⟩ := freeFrom_eq (l.fresh + 1) h.chain
      (Nat.le_succ_of_le h.length_le)
    have hne : l.isEmpty = false := by simp [h.isEmpty_eq]
    refine ⟨{ l' with first := none, next := none },
      by simp [IteratedList.removeAllElements, hne, hlast, hset, hl'],
      ⟨rfl, fun b hb => ?_, fun hb => absurd rfl hb⟩⟩
    simp only [hfresh]
    exact h.bounded b (hlive b hb)

end IteratedList

end InsenseCVM
