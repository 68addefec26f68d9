import Mathlib.Data.List.Nodup
import Mathlib.Data.Finset.Card
import Mathlib.Data.Finset.Range
import Mathlib.Logic.Function.Basic

/-!
# Chains of linked nodes

A heap is a partial map from addresses to nodes; a node has a payload and the address of its
tail, `none` for the null pointer.

* `Seg heap p cells q`: following tails from `p` one meets exactly the nodes `cells` and
  then stands at `q`;
* `Chain heap p cells`: the same with `q` null, so a traversal from `p` ends;
* determinism (`Chain.unique`, `Seg.chain_split`), the absence of repetitions in a chain
  (`Chain.nodup`), the frame rule (`Seg.update`) and the length bound (`Chain.length_le`);
* a node that reaches itself starts no chain (`Seg.not_chain_of_cycle`).
-/

namespace Linked

/-- A singly linked node. -/
structure Node (α : Type*) where
  payload : α
  tail : Option ℕ
  deriving DecidableEq

/-- The live nodes by address. -/
abbrev Heap (α : Type*) := ℕ → Option (Node α)

variable {α : Type*}

/-- The nodes met from `p` up to `q`, each with its address. -/
def Seg (heap : Heap α) : Option ℕ → List (ℕ × α) → Option ℕ → Prop
  | p, [], q => p = q
  | p, c :: cells, q => p = some c.1 ∧ ∃ t, heap c.1 = some ⟨c.2, t⟩ ∧ Seg heap t cells q

/-- The nodes met from `p` up to the null pointer. -/
def Chain (heap : Heap α) (p : Option ℕ) (cells : List (ℕ × α)) : Prop := Seg heap p cells none

variable {heap : Heap α} {p q : Option ℕ} {cells : List (ℕ × α)}

@[simp] theorem seg_nil : Seg heap p [] q ↔ p = q := Iff.rfl

@[simp] theorem seg_cons {c : ℕ × α} :
    Seg heap p (c :: cells) q ↔
      p = some c.1 ∧ ∃ t, heap c.1 = some ⟨c.2, t⟩ ∧ Seg heap t cells q := Iff.rfl

@[simp] theorem chain_nil : Chain heap p [] ↔ p = none := Iff.rfl

@[simp] theorem chain_cons {c : ℕ × α} :
    Chain heap p (c :: cells) ↔
      p = some c.1 ∧ ∃ t, heap c.1 = some ⟨c.2, t⟩ ∧ Chain heap t cells := Iff.rfl

theorem seg_append {xs ys : List (ℕ × α)} :
    Seg heap p (xs ++ ys) q ↔ ∃ r, Seg heap p xs r ∧ Seg heap r ys q := by
  induction xs generalizing p with
  | nil => simp
  | cons c xs ih =>
    simp only [List.cons_append, seg_cons, ih]
    constructor
    · rintro ⟨hp, t, ht, r, hr, hq⟩
      exact ⟨r, ⟨hp, t, ht, hr⟩, hq⟩
    · rintro ⟨r, ⟨hp, t, ht, hr⟩, hq⟩
      exact ⟨hp, t, ht, r, hr, hq⟩

/-- A chain that passes through a segment splits at the segment's end. -/
theorem Seg.chain_split {xs ys : List (ℕ × α)} (hs : Seg heap p xs q) (hc : Chain heap p ys) :
    ∃ zs, ys = xs ++ zs ∧ Chain heap q zs := by
  induction xs generalizing p ys with
  | nil =>
    rw [seg_nil] at hs
    exact ⟨ys, rfl, hs ▸ hc⟩
  | cons c xs ih =>
    obtain ⟨rfl, t, ht, hs⟩ := hs
    cases ys with
    | nil => simp at hc
    | cons d ys =>
      obtain ⟨hd, t', ht', hc⟩ := hc
      have hcd : c.1 = d.1 := Option.some.inj hd
      rw [← hcd, ht] at ht'
      obtain ⟨hpay, rfl⟩ : c.2 = d.2 ∧ t = t' := by simpa using ht'
      obtain ⟨zs, rfl, hz⟩ := ih hs hc
      exact ⟨zs, by rw [Prod.ext hcd hpay, List.cons_append], hz⟩

/-- The chain from an address is determined by the heap. -/
theorem Chain.unique {xs ys : List (ℕ × α)} (hx : Chain heap p xs) (hy : Chain heap p ys) :
    xs = ys := by
  obtain ⟨zs, rfl, hz⟩ := Seg.chain_split hx hy
  cases zs with
  | nil => simp
  | cons c zs => simp at hz

/-- A node that reaches itself starts no chain. -/
theorem Seg.not_chain_of_cycle (hs : Seg heap p cells p) (hne : cells ≠ []) :
    ∀ xs, ¬ Chain heap p xs := by
  intro xs
  induction hn : xs.length using Nat.strong_induction_on generalizing xs with
  | _ n ih =>
    intro hc
    obtain ⟨zs, rfl, hz⟩ := hs.chain_split hc
    have hpos : 0 < cells.length := List.length_pos_of_ne_nil hne
    exact ih zs.length (by rw [← hn, List.length_append]; omega) zs rfl hz

/-- A chain meets no address twice. -/
theorem Chain.nodup (hc : Chain heap p cells) : (cells.map Prod.fst).Nodup := by
  induction cells generalizing p with
  | nil => simp
  | cons c cells ih =>
    obtain ⟨rfl, t, ht, hc'⟩ := hc
    rw [List.map_cons, List.nodup_cons]
    refine ⟨fun hmem => ?_, ih hc'⟩
    obtain ⟨d, hd, hdc⟩ := List.mem_map.1 hmem
    obtain ⟨xs, ys, rfl⟩ := List.append_of_mem hd
    obtain ⟨r, hxs, hys⟩ := seg_append.1 hc'
    have hr : r = some c.1 := by rw [← hdc]; exact hys.1
    subst hr
    have hcycle : Seg heap (some c.1) (c :: xs) (some c.1) := ⟨rfl, t, ht, hxs⟩
    exact hcycle.not_chain_of_cycle (by simp) _ hys

/-- Writing to an address outside a segment keeps the segment. -/
theorem Seg.update {a : ℕ} {n : Option (Node α)} (h : Seg heap p cells q)
    (ha : a ∉ cells.map Prod.fst) : Seg (Function.update heap a n) p cells q := by
  induction cells generalizing p with
  | nil => exact h
  | cons c cells ih =>
    obtain ⟨rfl, t, ht, h⟩ := h
    rw [List.map_cons, List.mem_cons, not_or] at ha
    exact ⟨rfl, t, by rwa [Function.update_of_ne (Ne.symm ha.1)], ih h ha.2⟩

theorem Seg.live {c : ℕ × α} (h : Seg heap p cells q) (hc : c ∈ cells) :
    ∃ t, heap c.1 = some ⟨c.2, t⟩ := by
  obtain ⟨xs, ys, rfl⟩ := List.append_of_mem hc
  obtain ⟨r, -, -, t, ht, -⟩ := seg_append.1 h
  exact ⟨t, ht⟩

/-- A chain below the address bound has at most that many nodes. -/
theorem Chain.length_le {bound : ℕ} (hc : Chain heap p cells)
    (hb : ∀ a, heap a ≠ none → a < bound) : cells.length ≤ bound := by
  have hsub : (cells.map Prod.fst).toFinset ⊆ Finset.range bound := by
    intro a ha
    obtain ⟨c, hcm, rfl⟩ := List.mem_map.1 (List.mem_toFinset.1 ha)
    obtain ⟨t, ht⟩ := Seg.live hc hcm
    exact Finset.mem_range.2 (hb _ (by simp [ht]))
  have hcard := Finset.card_le_card hsub
  rwa [List.toFinset_card_of_nodup hc.nodup, List.length_map, Finset.card_range] at hcard

/-- Unlinking a node behind its predecessor: the chain loses exactly that node. -/
theorem Chain.unlink {xs ys : List (ℕ × α)} {a b : ℕ} {x y : α} {t : Option ℕ}
    (hc : Chain heap p (xs ++ (b, y) :: (a, x) :: ys)) (ha : heap a = some ⟨x, t⟩) :
    Chain (Function.update (Function.update heap b (some ⟨y, t⟩)) a none) p
      (xs ++ (b, y) :: ys) := by
  have hnd := hc.nodup
  simp only [List.map_append, List.map_cons, List.nodup_append, List.nodup_cons, List.mem_cons,
    not_or] at hnd
  obtain ⟨-, ⟨⟨hba, hbys⟩, hays, -⟩, hxs⟩ := hnd
  have hbxs : b ∉ xs.map Prod.fst := fun h => hxs b h b (Or.inl rfl) rfl
  have haxs : a ∉ xs.map Prod.fst := fun h => hxs a h a (Or.inr (Or.inl rfl)) rfl
  obtain ⟨r, hpre, hr, t', -, hat', t'', ht'', hys⟩ := seg_append.1 hc
  rw [ha] at ht''
  obtain rfl : t = t'' := by simpa using ht''
  refine seg_append.2 ⟨r, (hpre.update hbxs).update haxs, hr, t, ?_, ?_⟩
  · rw [Function.update_of_ne hba, Function.update_self]
  · exact (Seg.update hys hbys).update hays

end Linked
