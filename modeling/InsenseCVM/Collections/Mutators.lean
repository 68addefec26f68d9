import InsenseCVM.Collections.Sequence

/-!
# Runs of the list mutators

A sequence of calls of the four mutators on a fresh list, against the same calls on a reference
sequence: cons, append at the end, delete the first occurrence, empty. `RefinesSequence` is what
the traversals and the interior pointers owe the sequence.

Two calls break it. `IteratedList_insertElementAtTail` links the new node back to `first`, so no
traversal ends any more, and `IteratedList_removeElement` leaves `last` at a freed node when it
takes out the final one of several. `refinesSequence_run_iff` says that these are the only ones.
-/

namespace InsenseCVM

namespace IteratedList

open Linked

variable {α : Type} [DecidableEq α]

/-- A call of a mutator with a non-null element. -/
inductive Mutator (α : Type)
  | insertElement (element : α)
  | insertElementAtTail (element : α)
  | removeElement (element : α)
  | removeAllElements
  deriving DecidableEq

/-- The call on a list. -/
def Mutator.apply (l : IteratedList α) : Mutator α → Option (IteratedList α)
  | .insertElement e => some (l.insertElement (some e))
  | .insertElementAtTail e => l.insertElementAtTail (some e)
  | .removeElement e => l.removeElement (some e)
  | .removeAllElements => l.removeAllElements

/-- The call on the reference sequence. -/
def Mutator.onSequence (xs : List α) : Mutator α → List α
  | .insertElement e => e :: xs
  | .insertElementAtTail e => xs ++ [e]
  | .removeElement e => xs.erase e
  | .removeAllElements => []

/-- The list after a sequence of calls on a fresh one. -/
def runList (ops : List (Mutator α)) : Option (IteratedList α) :=
  ops.foldlM Mutator.apply constructList

/-- The reference sequence after the same calls. -/
def runSequence (ops : List (Mutator α)) : List α := ops.foldl Mutator.onSequence []

/-- What a list owes the sequence it stands for. -/
structure RefinesSequence (l : IteratedList α) (xs : List α) : Prop where
  nodes : ∃ cells, Chain l.heap l.first cells ∧ cells.map Prod.snd = xs ∧
    LastIsFinal l cells ∧ (cells ≠ [] → ∃ c ∈ cells, l.next = some c.1)
  length : l.getListLength = some xs.length
  element : ∀ index, l.getElementN index = some xs[index]?
  contains : ∀ e, l.containsElement e = some (decide (e ∈ xs))

/-- The calls that keep a list standing for `xs` intact: no insertion at the tail, and no removal
whose element is first met at the end of two or more. -/
def Mutator.Keeps (xs : List α) : Mutator α → Prop
  | .insertElementAtTail _ => False
  | .removeElement e => ¬ (2 ≤ xs.length ∧ xs.idxOf e + 1 = xs.length)
  | _ => True

instance (xs : List α) (op : Mutator α) : Decidable (op.Keeps xs) := by
  cases op <;> unfold Mutator.Keeps <;> infer_instance

/-- The invariant of a run without the two breaking calls. -/
def Intact (l : IteratedList α) (xs : List α) : Prop :=
  ∃ cells, Represents l cells ∧ LastIsFinal l cells ∧ cells.map Prod.snd = xs

theorem Intact.refines {l : IteratedList α} {xs : List α} (h : Intact l xs) :
    RefinesSequence l xs := by
  obtain ⟨cells, hrep, hlast, rfl⟩ := h
  exact {
    nodes := ⟨cells, hrep.chain, rfl, hlast, hrep.cursor⟩
    length := by rw [hrep.getListLength_eq, List.length_map]
    element := hrep.getElementN_eq
    contains := hrep.containsElement_eq }

/-! ### One call -/

/-- The first node that holds `e`, when there is one. -/
theorem exists_first_cell {cells : List (ℕ × α)} {e : α} (he : e ∈ cells.map Prod.snd) :
    ∃ a xs ys, cells = xs ++ (a, e) :: ys ∧ ∀ c ∈ xs, c.2 ≠ e := by
  induction cells with
  | nil => simp at he
  | cons c cells ih =>
    by_cases hc : c.2 = e
    · exact ⟨c.1, [], cells, by rw [← hc]; rfl, by simp⟩
    · rw [List.map_cons, List.mem_cons] at he
      obtain ⟨a, xs, ys, rfl, hxs⟩ := ih (he.resolve_left (Ne.symm hc))
      refine ⟨a, c :: xs, ys, rfl, fun d hd => ?_⟩
      rcases List.mem_cons.1 hd with rfl | hd
      · exact hc
      · exact hxs d hd

theorem erase_of_first_cell {xs ys : List (ℕ × α)} {a : ℕ} {e : α} (hxs : ∀ c ∈ xs, c.2 ≠ e) :
    ((xs ++ (a, e) :: ys).map Prod.snd).erase e = (xs ++ ys).map Prod.snd := by
  have hnot : e ∉ xs.map Prod.snd := by
    intro h
    obtain ⟨c, hc, hce⟩ := List.mem_map.1 h
    exact hxs c hc hce
  rw [List.map_append, List.erase_append_right _ hnot, List.map_cons, List.erase_cons_head,
    List.map_append]

theorem idxOf_of_first_cell {xs ys : List (ℕ × α)} {a : ℕ} {e : α} (hxs : ∀ c ∈ xs, c.2 ≠ e) :
    ((xs ++ (a, e) :: ys).map Prod.snd).idxOf e = xs.length := by
  have hnot : e ∉ xs.map Prod.snd := by
    intro h
    obtain ⟨c, hc, hce⟩ := List.mem_map.1 h
    exact hxs c hc hce
  rw [List.map_append, List.idxOf_append_of_notMem hnot, List.map_cons, List.idxOf_cons_self,
    List.length_map, Nat.add_zero]

/-- A call that keeps the list takes an intact list to an intact one. -/
theorem Intact.apply {l : IteratedList α} {xs : List α} {op : Mutator α} (h : Intact l xs)
    (hop : op.Keeps xs) : ∃ l', op.apply l = some l' ∧ Intact l' (op.onSequence xs) := by
  obtain ⟨cells, hrep, hlast, rfl⟩ := h
  cases op with
  | insertElement e =>
    exact ⟨_, rfl, _, hrep.insertElement e, hrep.insertElement_last hlast e, rfl⟩
  | insertElementAtTail e => exact hop.elim
  | removeAllElements =>
    obtain ⟨l', hl', hrep'⟩ := hrep.removeAllElements hlast
    exact ⟨l', hl', [], hrep', fun c hc => by simp at hc, rfl⟩
  | removeElement e =>
    by_cases he : e ∈ cells.map Prod.snd
    · obtain ⟨a, xs, ys, rfl, hxs⟩ := exists_first_cell he
      obtain ⟨l', hl', hrep', hlast'⟩ := hrep.removeElement_present hxs
      refine ⟨l', hl', xs ++ ys, hrep', fun c hc => ?_, (erase_of_first_cell hxs).symm⟩
      rw [hlast']
      refine hlast c ?_
      cases ys with
      | nil =>
        -- the final node goes only when it is the only one
        rw [Mutator.Keeps, idxOf_of_first_cell hxs, List.length_map, List.length_append,
          List.length_singleton] at hop
        have hnil : xs = [] := List.length_eq_zero_iff.1 (by omega)
        simp [hnil] at hc
      | cons d ys => simpa using hc
    · refine ⟨l, hrep.removeElement_absent fun c hc hce => he ?_, cells, hrep, hlast, ?_⟩
      · exact List.mem_map.2 ⟨c, hc, hce⟩
      · exact (List.erase_of_not_mem he).symm

omit [DecidableEq α] in
/-- After an insertion at the tail the nodes form a cycle. -/
theorem Represents.insertElementAtTail_cycle {l l' : IteratedList α} {cells : List (ℕ × α)} {e : α}
    (h : Represents l cells) (hlast : LastIsFinal l cells)
    (hl' : l.insertElementAtTail (some e) = some l') : ∀ cs, ¬ Chain l'.heap l'.first cs := by
  rcases List.eq_nil_or_concat cells with rfl | ⟨xs, ⟨a, x⟩, rfl⟩
  · have he : l.isEmpty = true := by simp [h.isEmpty_eq]
    simp only [insertElementAtTail, he, if_true, constructNode, setTail, Option.bind_eq_bind,
      Option.bind_some, Function.update_self, Option.pure_def, Option.some.injEq] at hl'
    subst hl'
    have hcycle : Seg (Function.update (Function.update l.heap l.fresh (some ⟨e, none⟩)) l.fresh
        (some ⟨e, some l.fresh⟩)) (some l.fresh) [(l.fresh, e)] (some l.fresh) :=
      ⟨rfl, some l.fresh, by simp, rfl⟩
    exact hcycle.not_chain_of_cycle (by simp)
  · rw [List.concat_eq_append] at h hlast
    have he : l.isEmpty = false := by simp [h.isEmpty_eq]
    have hla : l.last = some a := hlast (a, x) (by simp)
    obtain ⟨t, ht⟩ := Seg.live h.chain (c := (a, x)) (by simp)
    have hfresh := h.fresh_notMem
    rw [List.map_append, List.mem_append, not_or] at hfresh
    have haf : a ≠ l.fresh := fun h' => hfresh.2 (by simp [h'])
    have hnd := h.chain.nodup
    rw [List.map_append, List.nodup_append] at hnd
    have haxs : a ∉ xs.map Prod.fst := fun h' => hnd.2.2 a h' a (by simp) rfl
    simp only [insertElementAtTail, he, constructNode, setTail, hla, Option.bind_eq_bind,
      Option.bind_some, Function.update_of_ne haf, Function.update_of_ne haf.symm, ht,
      Function.update_self, Option.pure_def, Option.some.injEq, Bool.false_eq_true,
      if_false] at hl'
    subst hl'
    obtain ⟨r, hxs, hr, -⟩ := seg_append.1 h.chain
    subst hr
    have hcycle : Seg (Function.update (Function.update (Function.update l.heap l.fresh
        (some ⟨e, none⟩)) a (some ⟨x, some l.fresh⟩)) l.fresh (some ⟨e, l.first⟩)) l.first
        (xs ++ [(a, x), (l.fresh, e)]) l.first := by
      refine seg_append.2 ⟨some a, ?_, rfl, some l.fresh, ?_, rfl, l.first, by simp, rfl⟩
      · exact ((hxs.update hfresh.1).update haxs).update hfresh.1
      · rw [Function.update_of_ne haf, Function.update_self]
    exact hcycle.not_chain_of_cycle (by simp)

omit [DecidableEq α] in
/-- A run of the length loop that ends has followed a chain. -/
theorem chain_of_lengthFrom {heap : Heap α} {fuel count n : ℕ} {p : Option ℕ}
    (h : lengthFrom heap fuel p count = some n) : ∃ cells, Chain heap p cells := by
  induction fuel generalizing p count with
  | zero =>
    cases p with
    | none => exact ⟨[], rfl⟩
    | some a => simp [lengthFrom] at h
  | succ fuel ih =>
    cases p with
    | none => exact ⟨[], rfl⟩
    | some a =>
      simp only [lengthFrom, Option.bind_eq_bind, Option.bind_eq_some_iff] at h
      obtain ⟨node, hnode, h⟩ := h
      obtain ⟨cells, hc⟩ := ih h
      exact ⟨(a, node.payload) :: cells, rfl, node.tail, hnode, hc⟩

omit [DecidableEq α] in
/-- After an insertion at the tail the length loop never ends, however often it is repeated. -/
theorem Represents.lengthFrom_insertElementAtTail {l l' : IteratedList α} {cells : List (ℕ × α)}
    {e : α} (h : Represents l cells) (hlast : LastIsFinal l cells)
    (hl' : l.insertElementAtTail (some e) = some l') (fuel count : ℕ) :
    lengthFrom l'.heap fuel l'.first count = none := by
  rw [Option.eq_none_iff_forall_ne_some]
  intro n hn
  obtain ⟨cs, hcs⟩ := chain_of_lengthFrom hn
  exact h.insertElementAtTail_cycle hlast hl' cs hcs

/-- Every other call leaves a list that is not the reference sequence's. -/
theorem Intact.not_refines {l l' : IteratedList α} {xs : List α} {op : Mutator α}
    (h : Intact l xs) (hop : ¬ op.Keeps xs) (hl' : op.apply l = some l') :
    ¬ RefinesSequence l' (op.onSequence xs) := by
  obtain ⟨cells, hrep, hlast, rfl⟩ := h
  intro href
  cases op with
  | insertElement e => exact hop trivial
  | removeAllElements => exact hop trivial
  | insertElementAtTail e =>
    obtain ⟨cs, hcs, -⟩ := href.nodes
    exact hrep.insertElementAtTail_cycle hlast hl' cs hcs
  | removeElement e =>
    simp only [Mutator.Keeps, not_not, List.length_map] at hop
    have he : e ∈ cells.map Prod.snd := by
      refine List.idxOf_lt_length_iff.1 ?_
      rw [List.length_map]
      omega
    obtain ⟨a, xs, ys, rfl, hxs⟩ := exists_first_cell he
    rw [idxOf_of_first_cell hxs] at hop
    obtain rfl : ys = [] := by simpa using hop.2
    obtain ⟨l'', hl'', hrep', hlast'⟩ := hrep.removeElement_present hxs
    obtain rfl : l'' = l' := by
      rw [Mutator.apply] at hl'
      exact Option.some.inj (hl''.symm.trans hl')
    obtain ⟨cs, hcs, -, hfinal, -⟩ := href.nodes
    obtain rfl := hrep'.chain.unique hcs
    rw [List.append_nil] at hfinal
    rcases List.eq_nil_or_concat xs with rfl | ⟨zs, ⟨b, y⟩, rfl⟩
    · simp at hop
    · -- `last` still holds the address of the freed node `a`
      have hb : l''.last = some b := hfinal (b, y) (by simp)
      have ha : l.last = some a := hlast (a, e) (by simp)
      have hnd := hrep.chain.nodup
      rw [← hlast', hb] at ha
      cases ha
      simp [List.nodup_append] at hnd

/-! ### Runs -/

theorem runList_concat (ops : List (Mutator α)) (op : Mutator α) :
    runList (ops ++ [op]) = (runList ops).bind op.apply := by
  simp [runList, List.foldlM_append]

theorem runSequence_concat (ops : List (Mutator α)) (op : Mutator α) :
    runSequence (ops ++ [op]) = op.onSequence (runSequence ops) := by
  simp [runSequence, List.foldl_append]

/-- The calls of `ops` all keep the list they find. -/
def AllKeep (ops : List (Mutator α)) : Prop :=
  ∀ pre op, pre ++ [op] <+: ops → op.Keeps (runSequence pre)

/-- A run without the breaking calls keeps the list intact. -/
theorem AllKeep.intact {ops : List (Mutator α)} (h : AllKeep ops) :
    ∃ l, runList ops = some l ∧ Intact l (runSequence ops) := by
  induction ops using List.reverseRecOn with
  | nil => exact ⟨_, rfl, [], constructList_represents, fun c hc => by simp at hc, rfl⟩
  | append_singleton ops op ih =>
    obtain ⟨l, hl, hi⟩ := ih fun pre op' hpre => h pre op' (hpre.trans (List.prefix_append _ _))
    obtain ⟨l', hl', hi'⟩ := hi.apply (h ops op List.prefix_rfl)
    exact ⟨l', by rw [runList_concat, hl]; exact hl', by rwa [runSequence_concat]⟩

/-- **The list refines the sequence in every state of a run exactly when no call of the run is an
insertion at the tail or takes out the final one of several nodes.** -/
theorem refinesSequence_run_iff (ops : List (Mutator α)) :
    (∀ pre, pre <+: ops → ∃ l, runList pre = some l ∧ RefinesSequence l (runSequence pre)) ↔
      AllKeep ops := by
  constructor
  · intro h
    have hkeep : ∀ pre, pre <+: ops → AllKeep pre := by
      intro pre
      induction pre using List.reverseRecOn with
      | nil => exact fun _ pre op hpre => by simp at hpre
      | append_singleton pre op ih =>
        intro hpre
        have hall := ih ((List.prefix_append _ _).trans hpre)
        intro pre' op' hpre'
        rcases List.prefix_concat_iff.1 hpre' with heq | hlt
        · obtain ⟨rfl, hop⟩ := List.append_inj' heq rfl
          obtain rfl : op' = op := by simpa using hop
          by_contra hnot
          obtain ⟨l, hl, hi⟩ := hall.intact
          obtain ⟨l', hl', href⟩ := h _ hpre
          rw [runList_concat, hl, Option.bind_some] at hl'
          rw [runSequence_concat] at href
          exact hi.not_refines hnot hl' href
        · exact hall pre' op' hlt
    exact hkeep ops List.prefix_rfl
  · intro h pre hpre
    have hall : AllKeep pre := fun pre' op' hpre' => h pre' op' (hpre'.trans hpre)
    obtain ⟨l, hl, hi⟩ := hall.intact
    exact ⟨l, hl, hi.refines⟩

/-- One insertion at the tail of a fresh list: the traversal of the length loop does not end. -/
theorem insertElementAtTail_not_refines :
    ¬ ∃ l, runList [Mutator.insertElementAtTail 7] = some l ∧
      RefinesSequence l (runSequence [Mutator.insertElementAtTail 7]) := by
  rintro ⟨l, hl, href⟩
  have hlen : (runList [Mutator.insertElementAtTail 7]).bind getListLength = none := by decide
  rw [hl, Option.bind_some, href.length] at hlen
  cases hlen

end IteratedList

end InsenseCVM
