import InsenseCVM.Collections.Sequence

/-!
# The cursor of an iterated list

`RotatedAt l cells r`: starting from the cursor and wrapping round at the end, the nodes come in
the order `r`. `IteratedList_getNextElement` hands out the head of `r` and turns `r` by one
place; `IteratedList_searchList` hands out nodes until one satisfies the predicate or the first
payload comes again. Only `next` moves. `Round l xs` is the same about payloads alone, and is how
the maps built on a list see it.
-/

namespace InsenseCVM

namespace IteratedList

open Linked

variable {α : Type} {l : IteratedList α} {cells r rs : List (ℕ × α)} {c : ℕ × α}

/-- From the cursor onwards, wrapping round, the nodes are `r`. -/
def RotatedAt (l : IteratedList α) (cells r : List (ℕ × α)) : Prop :=
  ∃ pre post, cells = pre ++ post ∧ r = post ++ pre ∧ ∃ c, post.head? = some c ∧ l.next = some c.1

theorem Represents.exists_rotatedAt (h : Represents l cells) (hne : cells ≠ []) :
    ∃ r, RotatedAt l cells r := by
  obtain ⟨c, hc, hnext⟩ := h.cursor hne
  obtain ⟨pre, post, rfl⟩ := List.append_of_mem hc
  exact ⟨_, pre, c :: post, rfl, rfl, c, rfl, hnext⟩

theorem RotatedAt.perm (h : RotatedAt l cells r) : r.Perm cells := by
  obtain ⟨pre, post, rfl, rfl, -⟩ := h
  exact List.perm_append_comm

/-- The order of the nodes says where the cursor is. -/
theorem RotatedAt.next_eq (h : RotatedAt l cells r) : l.next = r.head?.map Prod.fst := by
  obtain ⟨pre, post, -, rfl, c, hc, hnext⟩ := h
  rw [List.head?_append, hc, hnext]
  rfl

theorem RotatedAt.ne_nil (h : RotatedAt l cells r) : r ≠ [] := by
  obtain ⟨pre, post, -, rfl, c, hc, -⟩ := h
  cases post with
  | nil => simp at hc
  | cons d post => simp

/-- Only the cursor differs, and it is at a node. -/
theorem Represents.moved {p : Option ℕ} (h : Represents l cells)
    (hr : RotatedAt { l with next := p } cells r) : Represents { l with next := p } cells where
  chain := h.chain
  bounded := h.bounded
  cursor := fun _ => by
    obtain ⟨pre, post, rfl, -, c, hc, hnext⟩ := hr
    exact ⟨c, List.mem_append_right _ (List.mem_of_head? hc), hnext⟩

/-- `IteratedList_getNextElement` hands out the node at the cursor and moves the cursor on. -/
theorem Represents.getNextElement_rotate (h : Represents l cells)
    (hr : RotatedAt l cells (c :: rs)) :
    ∃ p, l.getNextElement = some (some c.2, { l with next := p }) ∧
      RotatedAt { l with next := p } cells (rs ++ [c]) := by
  obtain ⟨pre, post, rfl, hrot, d, hd, hnext⟩ := hr
  cases post with
  | nil => simp at hd
  | cons d' post =>
    obtain ⟨rfl, rfl⟩ : c = d' ∧ rs = post ++ pre := by simpa using hrot
    obtain rfl : c = d := by simpa using hd
    obtain ⟨q, hpre, hq, t, ht, hpost⟩ := seg_append.1 h.chain
    have hne : l.isEmpty = false := by simp [h.isEmpty_eq]
    refine ⟨t.orElse fun _ => l.first, by simp [getNextElement, hne, hnext, ht], ?_⟩
    cases post with
    | nil =>
      -- the cursor was at the final node and wraps round to `first`
      obtain rfl : t = none := hpost
      refine ⟨[], pre ++ [c], by simp, by simp, ?_⟩
      cases pre with
      | nil => exact ⟨c, rfl, h.chain.1⟩
      | cons e pre => exact ⟨e, rfl, h.chain.1⟩
    | cons e post =>
      obtain ⟨rfl, -⟩ := hpost
      exact ⟨pre ++ [c], e :: post, by simp, by simp, e, rfl, rfl⟩

theorem getNextElement_moves {element : Option α} {l' : IteratedList α}
    (h : l.getNextElement = some (element, l')) : ∃ p, l' = { l with next := p } := by
  unfold getNextElement at h
  split_ifs at h with hempty
  · cases h
    exact ⟨_, rfl⟩
  · obtain ⟨next, -, h⟩ := Option.bind_eq_some_iff.1 h
    obtain ⟨n, -, h⟩ := Option.bind_eq_some_iff.1 h
    cases h
    exact ⟨_, rfl⟩

section Search

variable [DecidableEq α] {f : α → Bool}

theorem searchFrom_moves {first current : α} {element : Option α} {fuel : ℕ} {l' : IteratedList α}
    (h : searchFrom f first fuel current l = some (element, l')) :
    ∃ p, l' = { l with next := p } := by
  induction fuel generalizing l current with
  | zero => cases h
  | succ fuel ih =>
    unfold searchFrom at h
    split_ifs at h with hf
    · cases h
      exact ⟨_, rfl⟩
    · obtain ⟨⟨next, l₁⟩, hget, h⟩ := Option.bind_eq_some_iff.1 h
      obtain ⟨p, rfl⟩ := getNextElement_moves hget
      cases next with
      | none => cases h
      | some next =>
        simp only [] at h
        split_ifs at h with hend
        · cases h
          exact ⟨p, rfl⟩
        · obtain ⟨q, hq⟩ := ih h
          exact ⟨q, hq⟩

/-- A search changes nothing but the cursor. -/
theorem searchList_moves {element : Option α} {l' : IteratedList α}
    (h : l.searchList f = some (element, l')) : ∃ p, l' = { l with next := p } := by
  obtain ⟨⟨first, l₁⟩, hget, h⟩ := Option.bind_eq_some_iff.1 h
  obtain ⟨p, rfl⟩ := getNextElement_moves hget
  cases first with
  | none =>
    cases h
    exact ⟨p, rfl⟩
  | some first =>
    obtain ⟨q, hq⟩ := searchFrom_moves h
    exact ⟨q, hq⟩

/-- An iteration of the search loop that goes on: `done ++ [last]` has been handed out, starting
with the payload `first`, and `d` is handed out next. -/
theorem Represents.searchFrom_next {first : α} {done todo : List (ℕ × α)} (fuel : ℕ)
    {last d : ℕ × α} (h : Represents l cells)
    (hr : RotatedAt l cells (d :: todo ++ (done ++ [last]))) (hnd : (cells.map Prod.snd).Nodup)
    (hfirst : (done ++ [last]).head?.map Prod.snd = some first) (hlast : f last.2 = false) :
    ∃ p, searchFrom f first (fuel + 1) last.2 l = searchFrom f first fuel d.2 { l with next := p } ∧
      RotatedAt { l with next := p } cells (todo ++ ((done ++ [last]) ++ [d])) := by
  obtain ⟨p, hget, hrot⟩ := h.getNextElement_rotate hr
  have hdf : d.2 ≠ first := by
    have hnd' : ((d :: todo ++ (done ++ [last])).map Prod.snd).Nodup :=
      (hr.perm.map _).nodup_iff.2 hnd
    simp only [List.cons_append, List.map_cons, List.nodup_cons] at hnd'
    intro hdf
    refine hnd'.1 ?_
    rw [hdf, List.map_append]
    obtain ⟨c, hc, hcf⟩ := Option.map_eq_some_iff.1 hfirst
    exact List.mem_append_right _ (List.mem_map.2 ⟨c, List.mem_of_head? hc, hcf⟩)
  exact ⟨p, by simp [searchFrom, hlast, hget, hdf], by simpa using hrot⟩

theorem Represents.searchFrom_found {first : α} {todo xs ys : List (ℕ × α)} {fuel : ℕ}
    {last : ℕ × α} (done : List (ℕ × α)) (h : Represents l cells)
    (hr : RotatedAt l cells (todo ++ (done ++ [last])))
    (hnd : (cells.map Prod.snd).Nodup)
    (hfirst : (done ++ [last]).head?.map Prod.snd = some first) (hfuel : todo.length < fuel)
    (heq : last :: todo = xs ++ c :: ys) (hxs : ∀ d ∈ xs, f d.2 = false) (hc : f c.2 = true) :
    ∃ p, searchFrom f first fuel last.2 l = some (some c.2, { l with next := p }) ∧
      RotatedAt { l with next := p } cells (ys ++ (done ++ (xs ++ [c]))) := by
  induction xs generalizing l done last todo fuel with
  | nil =>
    obtain ⟨rfl, rfl⟩ : last = c ∧ todo = ys := by simpa using heq
    obtain ⟨fuel, rfl⟩ := Nat.exists_eq_add_one.2 (Nat.zero_lt_of_lt hfuel)
    exact ⟨l.next, by simp [searchFrom, hc], by simpa using hr⟩
  | cons x xs ih =>
    obtain ⟨rfl, rfl⟩ : last = x ∧ todo = xs ++ c :: ys := by simpa using heq
    obtain ⟨fuel, rfl⟩ := Nat.exists_eq_add_one.2 (Nat.zero_lt_of_lt hfuel)
    obtain ⟨d, todo, hd⟩ : ∃ d todo, xs ++ c :: ys = d :: todo :=
      List.exists_cons_of_ne_nil (by simp)
    rw [hd] at hr hfuel
    obtain ⟨p, hstep, hrot⟩ := h.searchFrom_next fuel hr hnd hfirst (hxs last (by simp))
    obtain ⟨q, hs, hq⟩ := ih _ (h.moved hrot) hrot (by simpa [List.head?_append] using hfirst)
      (Nat.lt_of_succ_lt_succ hfuel) hd.symm (fun e he => hxs e (List.mem_cons_of_mem _ he))
    exact ⟨q, by rw [hstep, hs], by simpa using hq⟩

theorem Represents.searchFrom_absent {first : α} {todo : List (ℕ × α)} {fuel : ℕ}
    {last : ℕ × α} (done : List (ℕ × α)) (h : Represents l cells)
    (hr : RotatedAt l cells (todo ++ (done ++ [last])))
    (hnd : (cells.map Prod.snd).Nodup)
    (hfirst : (done ++ [last]).head?.map Prod.snd = some first) (hfuel : todo.length < fuel)
    (heq : done ++ last :: todo = c :: rs) (hall : ∀ d ∈ last :: todo, f d.2 = false) :
    ∃ p, searchFrom f first fuel last.2 l = some (none, { l with next := p }) ∧
      RotatedAt { l with next := p } cells (rs ++ [c]) := by
  induction todo generalizing l done last fuel with
  | nil =>
    obtain ⟨fuel, rfl⟩ := Nat.exists_eq_add_one.2 (Nat.zero_lt_of_lt hfuel)
    rw [List.nil_append, heq] at hr
    rw [heq] at hfirst
    obtain ⟨p, hget, hrot⟩ := h.getNextElement_rotate hr
    have hcf : c.2 = first := by simpa using hfirst
    exact ⟨p, by simp [searchFrom, hall last (by simp), hget, hcf], hrot⟩
  | cons d todo ih =>
    obtain ⟨fuel, rfl⟩ := Nat.exists_eq_add_one.2 (Nat.zero_lt_of_lt hfuel)
    obtain ⟨p, hstep, hrot⟩ := h.searchFrom_next fuel hr hnd hfirst (hall last (by simp))
    obtain ⟨q, hs, hq⟩ := ih _ (h.moved hrot) hrot (by simpa [List.head?_append] using hfirst)
      (Nat.lt_of_succ_lt_succ hfuel) (by simpa using heq)
      (fun e he => hall e (List.mem_cons_of_mem _ he))
    exact ⟨q, by rw [hstep, hs], hq⟩

theorem searchList_of_next {p : Option ℕ} {x : α}
    (h : l.getNextElement = some (some x, { l with next := p })) :
    l.searchList f = searchFrom f x (l.fresh + 1) x { l with next := p } := by
  simp [searchList, h]

/-- A search finds the first node from the cursor on that satisfies `f`, and leaves the cursor
behind it. -/
theorem Represents.searchList_found {xs ys : List (ℕ × α)} (h : Represents l cells)
    (hr : RotatedAt l cells (xs ++ c :: ys)) (hnd : (cells.map Prod.snd).Nodup)
    (hxs : ∀ d ∈ xs, f d.2 = false) (hc : f c.2 = true) :
    ∃ p, l.searchList f = some (some c.2, { l with next := p }) ∧
      RotatedAt { l with next := p } cells (ys ++ (xs ++ [c])) := by
  obtain ⟨d, rs, hdrs⟩ : ∃ d rs, xs ++ c :: ys = d :: rs := List.exists_cons_of_ne_nil (by simp)
  have hlen : rs.length < cells.length := by
    rw [← hr.perm.length_eq, hdrs, List.length_cons]
    exact Nat.lt_succ_self _
  rw [hdrs] at hr
  obtain ⟨p, hget, hrot⟩ := h.getNextElement_rotate hr
  have hfuel : rs.length < l.fresh + 1 := by
    have := h.length_le
    omega
  obtain ⟨q, hs, hq⟩ := (h.moved hrot).searchFrom_found [] hrot hnd rfl hfuel hdrs.symm hxs hc
  exact ⟨q, by rw [searchList_of_next hget, hs], by simpa using hq⟩

/-- A search for which no node qualifies returns null and leaves the cursor one place on. -/
theorem Represents.searchList_absent (h : Represents l cells) (hr : RotatedAt l cells (c :: rs))
    (hnd : (cells.map Prod.snd).Nodup) (hall : ∀ d ∈ c :: rs, f d.2 = false) :
    ∃ p, l.searchList f = some (none, { l with next := p }) ∧
      RotatedAt { l with next := p } cells (rs ++ [c]) := by
  have hlen : rs.length < cells.length := by
    rw [← hr.perm.length_eq, List.length_cons]
    exact Nat.lt_succ_self _
  obtain ⟨p, hget, hrot⟩ := h.getNextElement_rotate hr
  have hfuel : rs.length < l.fresh + 1 := by
    have := h.length_le
    omega
  obtain ⟨q, hs, hq⟩ := (h.moved hrot).searchFrom_absent [] hrot hnd rfl hfuel rfl hall
  exact ⟨q, by rw [searchList_of_next hget, hs], hq⟩

theorem Represents.searchList_nil (h : Represents l []) : l.searchList f = some (none, l) := by
  have he : l.isEmpty = true := by simp [h.isEmpty_eq]
  simp [searchList, getNextElement, he]

end Search

/-! ### Once round -/

/-- Once round from the cursor the payloads are `xs`. -/
def Round (l : IteratedList α) (xs : List α) : Prop :=
  ∃ cells, Represents l cells ∧
    ((cells = [] ∧ xs = []) ∨ ∃ r, RotatedAt l cells r ∧ xs = r.map Prod.snd)

variable {xs ys : List α} {x : α}

theorem constructList_round : Round (constructList : IteratedList α) [] :=
  ⟨[], constructList_represents, Or.inl ⟨rfl, rfl⟩⟩

theorem Round.represents_cons (h : Round l (x :: xs)) :
    ∃ cells c r, Represents l cells ∧ RotatedAt l cells (c :: r) ∧ c.2 = x ∧
      r.map Prod.snd = xs := by
  obtain ⟨cells, hrep, ⟨-, hnil⟩ | ⟨r, hrot, hxs⟩⟩ := h
  · cases hnil
  · cases r with
    | nil => cases hxs
    | cons c r =>
      rw [List.map_cons, List.cons.injEq] at hxs
      exact ⟨cells, c, r, hrep, hrot, hxs.1.symm, hxs.2.symm⟩

theorem Round.of_rotatedAt {cells r : List (ℕ × α)} {p : Option ℕ} (h : Represents l cells)
    (hr : RotatedAt { l with next := p } cells r) : Round { l with next := p } (r.map Prod.snd) :=
  ⟨cells, h.moved hr, Or.inr ⟨r, hr, rfl⟩⟩

theorem Round.getNextElement (h : Round l (x :: xs)) :
    ∃ p, l.getNextElement = some (some x, { l with next := p }) ∧
      Round { l with next := p } (xs ++ [x]) := by
  obtain ⟨cells, c, r, hrep, hrot, rfl, rfl⟩ := h.represents_cons
  obtain ⟨p, hget, hp⟩ := hrep.getNextElement_rotate hrot
  have hround := Round.of_rotatedAt hrep hp
  rw [List.map_append] at hround
  exact ⟨p, hget, hround⟩

theorem Round.getListLength_eq (h : Round l xs) : l.getListLength = some xs.length := by
  obtain ⟨cells, hrep, ⟨rfl, rfl⟩ | ⟨r, hrot, rfl⟩⟩ := h
  · exact hrep.getListLength_eq
  · rw [hrep.getListLength_eq, List.length_map, hrot.perm.length_eq]

theorem Round.getNextElement_nil (h : Round l []) : l.getNextElement = some (none, l) := by
  obtain ⟨cells, hrep, ⟨rfl, -⟩ | ⟨r, hrot, hnil⟩⟩ := h
  · have he : l.isEmpty = true := by simp [hrep.isEmpty_eq]
    simp [IteratedList.getNextElement, he]
  · exact absurd (List.map_eq_nil_iff.1 hnil.symm) hrot.ne_nil

/-- What is handed out is the first payload, and the others come in front of it then. -/
theorem Round.next {l' : IteratedList α} (h : Round l xs)
    (hget : l.getNextElement = some (some x, l')) :
    ∃ ys, xs = x :: ys ∧ Round l' (ys ++ [x]) := by
  cases xs with
  | nil =>
    rw [h.getNextElement_nil] at hget
    cases hget
  | cons y ys =>
    obtain ⟨p, hy, hround⟩ := h.getNextElement
    rw [hy] at hget
    cases hget
    exact ⟨ys, rfl, hround⟩

theorem Round.insertElement (h : Round l xs) (e : α) :
    ∃ ys, ys.Perm (e :: xs) ∧ Round (l.insertElement (some e)) ys := by
  obtain ⟨cells, hrep, hcase⟩ := h
  have hrep' := hrep.insertElement e
  obtain ⟨r, hrot⟩ := hrep'.exists_rotatedAt (by simp)
  refine ⟨r.map Prod.snd, ?_, _, hrep', Or.inr ⟨r, hrot, rfl⟩⟩
  have hperm : (cells.map Prod.snd).Perm xs := by
    rcases hcase with ⟨rfl, rfl⟩ | ⟨r', hrot', rfl⟩
    · exact List.Perm.refl _
    · exact hrot'.perm.symm.map _
  exact (hrot.perm.map _).trans (hperm.cons e)

variable [DecidableEq α] {f : α → Bool}

theorem Round.searchList_found (h : Round l (xs ++ x :: ys)) (hnd : (xs ++ x :: ys).Nodup)
    (hxs : ∀ d ∈ xs, f d = false) (hx : f x = true) :
    ∃ p, l.searchList f = some (some x, { l with next := p }) ∧
      Round { l with next := p } (ys ++ (xs ++ [x])) := by
  obtain ⟨cells, hrep, ⟨-, hnil⟩ | ⟨r, hrot, heq⟩⟩ := h
  · simp at hnil
  · obtain ⟨r₁, r₂, rfl, rfl, hr₂⟩ := List.append_eq_map_iff.1 heq
    obtain ⟨c, r₂, rfl, rfl, rfl⟩ := List.map_eq_cons_iff.1 hr₂
    have hcells : (cells.map Prod.snd).Nodup := by
      rw [heq] at hnd
      exact (hrot.perm.map _).nodup_iff.1 hnd
    have hxs' : ∀ d ∈ r₁, f d.2 = false := fun d hd => hxs _ (List.mem_map_of_mem hd)
    obtain ⟨p, hs, hp⟩ := hrep.searchList_found hrot hcells hxs' hx
    have hround := Round.of_rotatedAt hrep hp
    rw [List.map_append, List.map_append] at hround
    exact ⟨p, hs, hround⟩

theorem Round.searchList_absent (h : Round l xs) (hnd : xs.Nodup)
    (hxs : ∀ d ∈ xs, f d = false) :
    ∃ p ys, l.searchList f = some (none, { l with next := p }) ∧ ys.Perm xs ∧
      Round { l with next := p } ys := by
  obtain ⟨cells, hrep, ⟨rfl, rfl⟩ | ⟨r, hrot, rfl⟩⟩ := h
  · exact ⟨l.next, [], hrep.searchList_nil, List.Perm.refl _, [], hrep, Or.inl ⟨rfl, rfl⟩⟩
  · obtain ⟨c, rs, rfl⟩ := List.exists_cons_of_ne_nil hrot.ne_nil
    have hcells : (cells.map Prod.snd).Nodup := (hrot.perm.map _).nodup_iff.1 hnd
    have hall : ∀ d ∈ c :: rs, f d.2 = false := fun d hd => hxs _ (List.mem_map_of_mem hd)
    obtain ⟨p, hs, hp⟩ := hrep.searchList_absent hrot hcells hall
    refine ⟨p, _, hs, ?_, Round.of_rotatedAt hrep hp⟩
    exact (List.perm_append_singleton c rs).map _

end IteratedList

end InsenseCVM
