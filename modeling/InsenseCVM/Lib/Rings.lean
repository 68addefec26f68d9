import Mathlib.Data.List.Rotate

/-!
# Searching rings one after the other

Each ring is a list of places, some of which give a value. A search looks at the first place of the
first ring, and goes on to the next ring when it gives none; every ring that it looks at is turned
by one. Whatever can be found in rings that are turned independently is found by one of the searches
that follow each other (`exists_found`).
-/

namespace Rings

variable {α : Type*} {ring : List (Option α)} {rings : List (List (Option α))} {v : Option α}
  {m n : ℕ}

/-- What the search finds, and how it leaves the rings. -/
def search : List (List (Option α)) → Option α × List (List (Option α))
  | [] => (none, [])
  | ring :: rings =>
    match ring.headD none with
    | some a => (some a, ring.rotate 1 :: rings)
    | none => ((search rings).1, ring.rotate 1 :: (search rings).2)

/-- The rings after `n` searches. -/
def searched (n : ℕ) (rings : List (List (Option α))) : List (List (Option α)) :=
  (fun rings => (search rings).2)^[n] rings

theorem searched_succ : searched (n + 1) rings = (search (searched n rings)).2 :=
  Function.iterate_succ_apply' ..

theorem searched_add : searched (m + n) rings = searched m (searched n rings) :=
  Function.iterate_add_apply ..

theorem search_some {a : α} (h : ring.headD none = some a) :
    search (ring :: rings) = (some a, ring.rotate 1 :: rings) := by
  rw [search, h]

theorem search_none (h : ring.headD none = none) :
    search (ring :: rings) = ((search rings).1, ring.rotate 1 :: (search rings).2) := by
  rw [search, h]

/-- What a search can find, however each of the rings is turned. -/
inductive Finds : List (List (Option α)) → Option α → Prop
  | nil : Finds [] none
  | here {ring : List (Option α)} {rings : List (List (Option α))} {a : α} (h : some a ∈ ring) :
      Finds (ring :: rings) (some a)
  | past {ring : List (Option α)} {rings : List (List (Option α))} {v : Option α}
      (h : ring = [] ∨ none ∈ ring) (rest : Finds rings v) : Finds (ring :: rings) v

theorem headD_rotate {i : ℕ} (hi : i < ring.length) : (ring.rotate i).headD none = ring[i] := by
  rw [List.headD_eq_head?_getD, List.head?_rotate hi, List.getElem?_eq_getElem hi, Option.getD_some]

/-- Every search turns the first ring. -/
theorem exists_searched_cons (n : ℕ) (ring : List (Option α)) (rings : List (List (Option α))) :
    ∃ rest, searched n (ring :: rings) = ring.rotate n :: rest := by
  induction n with
  | zero => exact ⟨rings, by rw [List.rotate_zero]; rfl⟩
  | succ n ih =>
    obtain ⟨rest, hrest⟩ := ih
    rw [searched_succ, hrest]
    cases hhead : (ring.rotate n).headD none with
    | some a => exact ⟨rest, by rw [search_some hhead, List.rotate_rotate]⟩
    | none => exact ⟨_, by rw [search_none hhead, List.rotate_rotate]⟩

/-- As long as the first ring gives values, the others are not looked at. -/
theorem searched_first {i : ℕ} (hi : i ≤ ring.length) (hsome : ∀ j, (h : j < i) → ring[j] ≠ none) :
    searched i (ring :: rings) = ring.rotate i :: rings := by
  induction i with
  | zero =>
    rw [List.rotate_zero]
    rfl
  | succ i ih =>
    have hprev := ih (by omega) fun j hj => hsome j (by omega)
    obtain ⟨a, ha⟩ := Option.ne_none_iff_exists'.1 (hsome i (Nat.lt_succ_self i))
    have hhead : (ring.rotate i).headD none = some a := by rw [headD_rotate (by omega), ha]
    rw [searched_succ, hprev, search_some hhead, List.rotate_rotate]

/-- A ring with a place that gives nothing comes to it before the other rings are looked at. -/
theorem exists_turned (hnone : none ∈ ring) :
    ∃ i, searched i (ring :: rings) = ring.rotate i :: rings ∧ (ring.rotate i).headD none = none := by
  have hlt : ring.findIdx Option.isNone < ring.length :=
    List.findIdx_lt_length_of_exists ⟨none, hnone, rfl⟩
  refine ⟨ring.findIdx Option.isNone, searched_first hlt.le fun j hj hjnone => ?_, ?_⟩
  · have hnot := List.not_of_lt_findIdx hj
    rw [hjnone] at hnot
    cases hnot
  · rw [headD_rotate hlt]
    exact Option.isNone_iff_eq_none.1 (List.findIdx_getElem (p := Option.isNone))

/-- The other rings are searched any number of times, and then the first is past again. -/
theorem exists_past (hnone : none ∈ ring) (m : ℕ) :
    ∃ n, searched n (ring :: rings) = ring.rotate n :: searched m rings ∧
      (ring.rotate n).headD none = none := by
  induction m with
  | zero => exact exists_turned hnone
  | succ m ih =>
    obtain ⟨n, hn, hhead⟩ := ih
    have hnone' : none ∈ ring.rotate (n + 1) := List.mem_rotate.2 hnone
    obtain ⟨i, hi, hhead'⟩ := @exists_turned α _ (searched (m + 1) rings) hnone'
    refine ⟨i + (n + 1), ?_, ?_⟩
    · rw [searched_add, searched_succ, hn, search_none hhead, List.rotate_rotate, ← searched_succ,
        hi, List.rotate_rotate, Nat.add_comm i]
    · rwa [Nat.add_comm i, ← List.rotate_rotate]

theorem searched_nil_cons : searched n ([] :: rings) = [] :: searched n rings := by
  induction n with
  | zero => rfl
  | succ n ih =>
    rw [searched_succ, ih, searched_succ]
    rfl

/-- **What can be found is found by one of the searches.** -/
theorem exists_found (h : Finds rings v) : ∃ n, (search (searched n rings)).1 = v := by
  induction h with
  | nil => exact ⟨0, rfl⟩
  | @here ring rings a ha =>
    obtain ⟨i, hi, hget⟩ := List.getElem_of_mem ha
    obtain ⟨rest, hrest⟩ := exists_searched_cons i ring rings
    have hhead : (ring.rotate i).headD none = some a := by rw [headD_rotate hi, hget]
    exact ⟨i, by rw [hrest, search_some hhead]⟩
  | @past ring rings v hring _ ih =>
    obtain ⟨m, hm⟩ := ih
    rcases hring with rfl | hnone
    · refine ⟨m, ?_⟩
      rw [searched_nil_cons, search_none rfl]
      exact hm
    · obtain ⟨n, hn, hhead⟩ := @exists_past α ring rings hnone m
      refine ⟨n, ?_⟩
      rw [hn, search_none hhead]
      exact hm

end Rings
