import InsenseCVM.Collections.ScopeStack
import InsenseCVM.Lib.Rings
import InsenseCVM.Lib.Transition
import Mathlib.Logic.Nontrivial.Defs

/-!
# Which binding a name is resolved to

`ScopeStack_load` goes outwards until a level gives a value, and `ScopeStack_store` until a level
has the name. A name that is declared in an inner level and has no value there is therefore loaded
from outside and stored inside; and a level in which a name was declared twice has two entries
for it, of which a store fills one and the next load meets the other.

`Ordered s levels es` is `Holds` with the entries of each level in the order in which its cursor
meets them, so that the answers are determined. `resolves_iff` says when load and store agree.
-/

namespace InsenseCVM

namespace ListMap

variable {V : Type} {m : ListMap V} {es xs ys : List (Located V)} {e : Located V} {k : CString}

/-- The value of the first entry for `k`. -/
def heldAt (es : List (Located V)) (k : CString) : Option V :=
  (es.find? fun e => e.2.key = k).bind fun e => e.2.value

theorem heldAt_absent (h : ∀ e ∈ es, e.2.key ≠ k) : heldAt es k = none := by
  have hfind : es.find? (fun e => decide (e.2.key = k)) = none := by
    rw [List.find?_eq_none]
    intro e he
    simpa using h e he
  rw [heldAt, hfind]
  rfl

theorem heldAt_found (hxs : ∀ d ∈ xs, d.2.key ≠ k) (he : e.2.key = k) :
    heldAt (xs ++ e :: ys) k = e.2.value := by
  have hfind : (xs ++ e :: ys).find? (fun e => decide (e.2.key = k)) = some e := by
    rw [List.find?_eq_some_iff_append]
    exact ⟨by simpa using he, xs, ys, rfl, fun d hd => by simpa using hxs d hd⟩
  rw [heldAt, hfind]
  rfl

/-- The values of the entries for `k`, in the order in which searches meet them. -/
def valuesFor (es : List (Located V)) (k : CString) : List (Option V) :=
  (es.filter fun e => e.2.key = k).map fun e => e.2.value

theorem heldAt_eq_headD : heldAt es k = (valuesFor es k).headD none := by
  rw [heldAt, valuesFor, List.headD_eq_head?_getD, List.head?_map, List.head?_filter]
  cases es.find? fun e => decide (e.2.key = k) with
  | none => rfl
  | some e => rfl

theorem mem_valuesFor {v : Option V} :
    v ∈ valuesFor es k ↔ ∃ e ∈ es, e.2.key = k ∧ e.2.value = v := by
  simp [valuesFor, and_assoc]

theorem valuesFor_eq_nil : valuesFor es k = [] ↔ ∀ e ∈ es, e.2.key ≠ k := by
  simp [valuesFor]

theorem valuesFor_perm (h : xs.Perm ys) (k : CString) : (valuesFor xs k).Perm (valuesFor ys k) :=
  (h.filter _).map _

theorem valuesFor_cons (h : e.2.key = k) :
    valuesFor (e :: ys) k = e.2.value :: valuesFor ys k := by
  simp [valuesFor, h]

/-- A lookup returns the first value for the key and turns the values by one. -/
theorem Represents.get_heldAt (h : m.Represents es) (k : CString) :
    ∃ m' ys, m.get k = some (heldAt es k, m') ∧ ys.Perm es ∧ m'.Represents ys ∧
      valuesFor ys k = (valuesFor es k).rotate 1 := by
  by_cases hk : ∃ e ∈ es, e.2.key = k
  · obtain ⟨xs, e, ys, rfl, hxs, he⟩ := exists_first_of_key hk
    obtain ⟨p, hget, hp⟩ := h.get_found hxs he
    rw [heldAt_found hxs he]
    refine ⟨_, _, hget, perm_past e, hp, ?_⟩
    have hfilter : xs.filter (fun e => decide (e.2.key = k)) = [] := by simpa using hxs
    simp [valuesFor, hfilter, he]
  · have hes : ∀ d ∈ es, d.2.key ≠ k := fun d hd hdk => hk ⟨d, hd, hdk⟩
    obtain ⟨p, ys, hget, hys, hp⟩ := h.get_absent hes
    rw [heldAt_absent hes]
    refine ⟨_, ys, hget, hys, hp, ?_⟩
    rw [valuesFor_eq_nil.2 hes, valuesFor_eq_nil.2 fun e he => hes e (hys.mem_iff.1 he)]
    rfl

end ListMap

namespace ScopeStack

open ListMap

variable {V : Type} {s s' : ScopeStack V} {levels pre post : List ℕ} {a b : ℕ}
  {es es' : ℕ → List (Located V)} {k : CString} {v : Option V} {p : Option ℕ} {fuel n : ℕ}

/-! ### Determined answers -/

/-- The entries of each level are given in the order in which its cursor meets them. -/
structure Ordered (s : ScopeStack V) (levels : List ℕ) (es : ℕ → List (Located V)) : Prop where
  holds : s.Holds levels es
  order : ∀ a ∈ levels, (s.level a).Represents (es a)

theorem Holds.exists_ordered (h : s.Holds levels es) :
    ∃ es', s.Ordered levels es' ∧ ∀ a ∈ levels, (es' a).Perm (es a) := by
  have hchoice : ∀ a, ∃ ys, a ∈ levels → ys.Perm (es a) ∧ (s.level a).Represents ys := by
    intro a
    by_cases ha : a ∈ levels
    · obtain ⟨ys, hys⟩ := h.entries a ha
      exact ⟨ys, fun _ => hys⟩
    · exact ⟨[], fun h => absurd h ha⟩
  choose es' hes' using hchoice
  have horder : ∀ a ∈ levels, (s.level a).Represents (es' a) := fun a ha => (hes' a ha).2
  have hholds : s.Holds levels es' :=
    ⟨h.order, h.distinct, h.bounded, fun a ha => ⟨es' a, List.Perm.refl _, horder a ha⟩⟩
  exact ⟨es', ⟨hholds, horder⟩, fun a ha => (hes' a ha).1⟩

theorem Ordered.update_level {m : ListMap V} {ys : List (Located V)} (h : s.Ordered levels es)
    (a : ℕ) (hm : m.Represents ys) :
    Ordered { s with level := Function.update s.level a m } levels (Function.update es a ys) where
  holds := h.holds.update_level a (List.Perm.refl ys) hm
  order := fun b hb => by
    show (Function.update s.level a m b).Represents (Function.update es a ys b)
    by_cases hba : b = a
    · subst hba
      rwa [Function.update_self, Function.update_self]
    · rw [Function.update_of_ne hba, Function.update_of_ne hba]
      exact h.order b hb

/-- A search of one level answers the first entry the cursor meets, and turns that level only. -/
theorem Ordered.getAt (h : s.Ordered levels es) (ha : a ∈ levels) (k : CString) :
    ∃ s' ys, s.getAt a k = some (heldAt (es a) k, s') ∧
      s'.Ordered levels (Function.update es a ys) ∧
      valuesFor ys k = (valuesFor (es a) k).rotate 1 := by
  obtain ⟨m, ys, hget, -, hm, hturned⟩ := (h.order a ha).get_heldAt k
  refine ⟨{ s with level := Function.update s.level a m }, ys, ?_, h.update_level a hm, hturned⟩
  unfold ScopeStack.getAt
  rw [hget]
  rfl

/-- The first value that some level gives for `k`. -/
def answer (es : ℕ → List (Located V)) (k : CString) (levels : List ℕ) : Option V :=
  levels.findSome? fun b => heldAt (es b) k

theorem answer_congr (h : ∀ b ∈ levels, es' b = es b) :
    answer es' k levels = answer es k levels := by
  induction levels with
  | nil => rfl
  | cons b levels ih =>
    have hrest := ih fun c hc => h c (List.mem_cons_of_mem _ hc)
    simp only [answer, List.findSome?_cons] at hrest ⊢
    rw [h b List.mem_cons_self, hrest]

/-- The values for `k` in each of the levels, as rings. -/
def rings (es : ℕ → List (Located V)) (k : CString) (levels : List ℕ) : List (List (Option V)) :=
  levels.map fun b => valuesFor (es b) k

theorem rings_cons : rings es k (b :: levels) = valuesFor (es b) k :: rings es k levels := rfl

theorem rings_congr (h : ∀ b ∈ levels, es' b = es b) : rings es' k levels = rings es k levels :=
  List.map_congr_left fun b hb => by rw [h b hb]

theorem answer_eq_search : answer es k levels = (Rings.search (rings es k levels)).1 := by
  induction levels with
  | nil => rfl
  | cons b levels ih =>
    rw [answer, List.findSome?_cons, heldAt_eq_headD, rings_cons]
    cases hhead : (valuesFor (es b) k).headD none with
    | some w => rw [Rings.search_some hhead]
    | none =>
      rw [Rings.search_none hhead]
      exact ih

theorem Ordered.getIn {searched : List ℕ} (h : s.Ordered levels es)
    (hsearched : ∀ a ∈ searched, a ∈ levels) (hnd : searched.Nodup) (k : CString) :
    ∃ s' es', getIn k searched s = some ((Rings.search (rings es k searched)).1, s') ∧
      s'.Ordered levels es' ∧ rings es' k searched = (Rings.search (rings es k searched)).2 ∧
      ∀ b ∉ searched, es' b = es b := by
  induction searched generalizing s es with
  | nil => exact ⟨s, es, rfl, h, rfl, fun _ _ => rfl⟩
  | cons c searched ih =>
    obtain ⟨s₁, ys, hget, hord, hturned⟩ := h.getAt (hsearched c List.mem_cons_self) k
    rw [List.nodup_cons] at hnd
    have hothers : rings (Function.update es c ys) k searched = rings es k searched :=
      rings_congr fun b hb => Function.update_of_ne (fun hbc : b = c => hnd.1 (hbc ▸ hb)) ..
    simp only [ScopeStack.getIn, rings_cons, Option.bind_eq_bind, Option.bind_some, hget]
    rw [heldAt_eq_headD]
    cases hheld : (valuesFor (es c) k).headD none with
    | some w =>
      refine ⟨s₁, _, by rw [Rings.search_some hheld]; rfl, hord, ?_, fun b hb => ?_⟩
      · rw [Function.update_self, hturned, hothers, Rings.search_some hheld]
      · exact Function.update_of_ne (fun hbc : b = c => hb (hbc ▸ List.mem_cons_self)) ..
    | none =>
      obtain ⟨s₂, es₂, hload, hord₂, hturned₂, hsame⟩ := ih hord
        (fun b hb => hsearched b (List.mem_cons_of_mem _ hb)) hnd.2
      rw [hothers] at hload hturned₂
      refine ⟨s₂, es₂, by rw [Rings.search_none hheld]; exact hload, hord₂, ?_, fun b hb => ?_⟩
      · rw [hsame c hnd.1, Function.update_self, hturned, hturned₂, Rings.search_none hheld]
      · rw [List.mem_cons, not_or] at hb
        rw [hsame b hb.2, Function.update_of_ne hb.1]

/-- `ScopeStack_load` searches the levels as rings. -/
theorem Ordered.search (h : s.Ordered levels es) (k : CString) :
    ∃ s' es', s.load k = some ((Rings.search (rings es k levels)).1, s') ∧ s'.Ordered levels es' ∧
      rings es' k levels = (Rings.search (rings es k levels)).2 := by
  obtain ⟨s', es', hload, hord, hturned, -⟩ := h.getIn (fun _ ha => ha) h.holds.distinct k
  exact ⟨s', es', (load_eq_getIn h.holds.order k).trans hload, hord, hturned⟩

/-- `ScopeStack_load` returns the first value that some level gives, from the innermost on. -/
theorem Ordered.load (h : s.Ordered levels es) (k : CString) :
    ∃ s', s.load k = some (answer es k levels, s') := by
  obtain ⟨s', es', hload, -, -⟩ := h.search k
  rw [answer_eq_search]
  exact ⟨s', hload⟩

/-! ### Determined stores -/

section Stores

variable {xs ys : List (Located V)} {e : Located V}

theorem Ordered.putAt_found (h : s.Ordered levels es) (ha : a ∈ levels)
    (hes : es a = xs ++ e :: ys) (hxs : ∀ d ∈ xs, d.2.key ≠ k) (he : e.2.key = k)
    (v : Option V) :
    ∃ s', s.putAt a k v = some (true, s') ∧
      s'.Ordered levels
        (Function.update es a (ys ++ (xs ++ [(e.1, { e.2 with value := v })]))) := by
  have hlevel := h.order a ha
  rw [hes] at hlevel
  obtain ⟨m, hput, hm⟩ := hlevel.put_found hxs he v
  refine ⟨{ s with level := Function.update s.level a m }, ?_, h.update_level a hm⟩
  unfold ScopeStack.putAt
  rw [hput]
  rfl

theorem Ordered.putAt_absent (h : s.Ordered levels es) (ha : a ∈ levels)
    (hes : ∀ e ∈ es a, e.2.key ≠ k) (v : Option V) :
    ∃ s' ys, s.putAt a k v = some (false, s') ∧ ys.Perm (es a) ∧
      s'.Ordered levels (Function.update es a ys) := by
  obtain ⟨m, ys, hput, hys, hm⟩ := (h.order a ha).put_absent hes v
  refine ⟨{ s with level := Function.update s.level a m }, ys, ?_, hys, h.update_level a hm⟩
  unfold ScopeStack.putAt
  rw [hput]
  rfl

/-- What a store into the level at `a`, inside the levels `pre`, leaves: the entry filled is the
last that the cursor meets, and the levels outside are as they were. -/
structure StoredAt (es es' : ℕ → List (Located V)) (k : CString) (pre : List ℕ) (a : ℕ)
    (entries : List (Located V)) : Prop where
  at_level : es' a = entries
  inside : ∀ b ∈ pre, ∀ e ∈ es' b, e.2.key ≠ k
  outside : ∀ b ∉ pre, b ≠ a → es' b = es b

/-- A store passes a level that does not have the name. -/
theorem StoredAt.past {zs entries : List (Located V)}
    (h : StoredAt (Function.update es b zs) es' k pre a entries)
    (hnd : (b :: (pre ++ a :: post)).Nodup) (hzs : ∀ e ∈ zs, e.2.key ≠ k) :
    StoredAt es es' k (b :: pre) a entries := by
  rw [List.nodup_cons, List.mem_append, List.mem_cons, not_or, not_or] at hnd
  obtain ⟨⟨hpre, hba, -⟩, -⟩ := hnd
  refine ⟨h.at_level, ?_, ?_⟩
  · intro c hc e he
    rcases List.mem_cons.1 hc with rfl | hc
    · rw [h.outside c hpre hba, Function.update_self] at he
      exact hzs e he
    · exact h.inside c hc e he
  · intro c hc hca
    rw [List.mem_cons, not_or] at hc
    rw [h.outside c hc.2 hca, Function.update_of_ne hc.1]

/-- The rest of the levels are as they were. -/
theorem update_past {z : List (Located V)} (hnd : (b :: (pre ++ a :: post)).Nodup)
    (hpre : ∀ c ∈ b :: pre, ∀ e ∈ es c, e.2.key ≠ k) (hes : es a = xs ++ e :: ys) :
    (∀ c ∈ pre, ∀ e ∈ Function.update es b z c, e.2.key ≠ k) ∧
      Function.update es b z a = xs ++ e :: ys := by
  rw [List.nodup_cons, List.mem_append, List.mem_cons, not_or, not_or] at hnd
  obtain ⟨⟨hb, hba, -⟩, -⟩ := hnd
  refine ⟨fun c hc => ?_, by rwa [Function.update_of_ne (Ne.symm hba)]⟩
  rw [Function.update_of_ne fun hcb : c = b => hb (hcb ▸ hc)]
  exact hpre c (List.mem_cons_of_mem _ hc)

theorem Ordered.putIn (h : s.Ordered levels es) (hsearched : ∀ b ∈ pre ++ a :: post, b ∈ levels)
    (hnd : (pre ++ a :: post).Nodup) (hpre : ∀ b ∈ pre, ∀ e ∈ es b, e.2.key ≠ k)
    (hes : es a = xs ++ e :: ys) (hxs : ∀ d ∈ xs, d.2.key ≠ k) (he : e.2.key = k)
    (v : Option V) :
    ∃ s' es', putIn k v (pre ++ a :: post) s = some (true, s') ∧ s'.Ordered levels es' ∧
      StoredAt es es' k pre a (ys ++ (xs ++ [(e.1, { e.2 with value := v })])) := by
  induction pre generalizing s es with
  | nil =>
    obtain ⟨s₁, hput, hord⟩ := h.putAt_found (hsearched a (by simp)) hes hxs he v
    refine ⟨s₁, _, ?_, hord, Function.update_self .., ?_, ?_⟩
    · simp only [List.nil_append, ScopeStack.putIn, hput]
      rfl
    · simp
    · exact fun b _ hb => Function.update_of_ne hb ..
  | cons b pre ih =>
    obtain ⟨s₁, zs, hput, hzs, hord⟩ :=
      h.putAt_absent (hsearched b (by simp)) (hpre b List.mem_cons_self) v
    obtain ⟨hpre', hes'⟩ := update_past (z := zs) hnd hpre hes
    obtain ⟨s₂, es', hstore, hord', hat⟩ := ih hord
      (fun c hc => hsearched c (List.mem_cons_of_mem _ hc)) (List.nodup_cons.1 hnd).2 hpre' hes'
    refine ⟨s₂, es', ?_, hord', hat.past hnd fun e he => ?_⟩
    · simp only [List.cons_append, ScopeStack.putIn, hput]
      exact hstore
    · exact hpre b List.mem_cons_self e (hzs.mem_iff.1 he)

theorem Ordered.store (h : s.Ordered (pre ++ a :: post) es)
    (hpre : ∀ b ∈ pre, ∀ e ∈ es b, e.2.key ≠ k) (hes : es a = xs ++ e :: ys)
    (hxs : ∀ d ∈ xs, d.2.key ≠ k) (he : e.2.key = k) (v : Option V) :
    ∃ s' es', s.store k v = some (true, s') ∧ s'.Ordered (pre ++ a :: post) es' ∧
      StoredAt es es' k pre a (ys ++ (xs ++ [(e.1, { e.2 with value := v })])) := by
  rw [store_eq_putIn h.holds.order]
  exact h.putIn (fun _ hb => hb) h.holds.distinct hpre hes hxs he v

end Stores

/-! ### Calls -/

/-- A call on a scope stack. -/
inductive Call (V : Type)
  | enterScope
  | exitScope
  | exitTo (name : CString)
  | declare (name : CString)
  | store (name : CString) (value : Option V)
  | load (name : CString)

/-- The stack after a call; before the first `ScopeStack_enterScope` it is null. -/
def Call.apply : Option (ScopeStack V) → Call V → Option (Option (ScopeStack V))
  | this, .enterScope => some (some (ScopeStack.enterScope this))
  | this, .exitScope => do return some (← (← this).exitScope)
  | this, .exitTo name => do return some (← (← this).exitTo name)
  | this, .declare name => do return some (← (← this).declare name)
  | this, .store name value => do return some (← (← this).store name value).2
  | this, .load name => do return some (← (← this).load name).2

/-- The stack after a sequence of calls. -/
def runCalls (calls : List (Call V)) : Option (Option (ScopeStack V)) :=
  Transition.run Call.apply none calls

theorem Holds.exitScope_keeps (h : s.Holds levels es) (hrun : s.exitScope = some s') :
    ∃ levels', s'.Holds levels' es ∧ levels' <:+ levels ∧ s'.fresh = s.fresh := by
  cases levels with
  | nil =>
    -- the last level has been left, and the call does nothing
    obtain ⟨cells, hrep, hcells⟩ := h.order
    rw [List.map_eq_nil_iff.1 hcells] at hrep
    have hfirst : s.list.first = none := hrep.chain
    unfold ScopeStack.exitScope at hrun
    rw [hfirst] at hrun
    obtain rfl := Option.some.inj hrun
    exact ⟨[], h, List.suffix_rfl, rfl⟩
  | cons a levels =>
    obtain ⟨s₁, hexit, hhold, hfresh⟩ := h.exitScope
    obtain rfl := Option.some.inj (hexit.symm.trans hrun)
    exact ⟨levels, hhold, List.suffix_cons a levels, hfresh⟩

theorem Holds.exitScopes_keeps (h : s.Holds levels es)
    (hrun : ScopeStack.exitScopes n s = some s') :
    ∃ levels', s'.Holds levels' es ∧ levels' <:+ levels ∧ s'.fresh = s.fresh := by
  induction n generalizing s levels with
  | zero =>
    obtain rfl := Option.some.inj hrun
    exact ⟨levels, h, List.suffix_rfl, rfl⟩
  | succ n ih =>
    unfold ScopeStack.exitScopes at hrun
    obtain ⟨s₁, hexit, hrun⟩ := Option.bind_eq_some_iff.1 hrun
    obtain ⟨levels₁, hhold₁, hsuffix₁, hfresh₁⟩ := h.exitScope_keeps hexit
    obtain ⟨levels', hhold, hsuffix, hfresh⟩ := ih hhold₁ hrun
    exact ⟨levels', hhold, hsuffix.trans hsuffix₁, hfresh.trans hfresh₁⟩

theorem Holds.countIn_keeps {searched : List ℕ} {m : ℕ} (h : s.Holds levels es)
    (hsearched : ∀ a ∈ searched, a ∈ levels)
    (hrun : ScopeStack.countIn k searched m s = some (n, s')) : SameHold s s' levels es := by
  induction searched generalizing s m with
  | nil =>
    obtain ⟨-, rfl⟩ := Prod.mk.inj (Option.some.inj hrun)
    exact .refl h
  | cons a searched ih =>
    obtain ⟨w, s₁, hget, hsame, -⟩ := h.getAt (hsearched a List.mem_cons_self) k
    simp only [ScopeStack.countIn, Option.bind_eq_bind, Option.bind_some, hget] at hrun
    cases w with
    | some w =>
      obtain ⟨-, rfl⟩ := Prod.mk.inj (Option.some.inj hrun)
      exact hsame
    | none =>
      exact hsame.trans (ih hsame.holds (fun b hb => hsearched b (List.mem_cons_of_mem _ hb)) hrun)

theorem Holds.exitTo_keeps (h : s.Holds levels es) (hrun : s.exitTo k = some s') :
    ∃ levels', s'.Holds levels' es ∧ levels' <:+ levels ∧ s'.fresh = s.fresh := by
  cases levels with
  | nil =>
    rw [exitTo_none h.order, Option.some.injEq] at hrun
    subst hrun
    exact ⟨[], h, List.suffix_rfl, rfl⟩
  | cons a levels =>
    obtain ⟨w, s₁, hget, hsame, -⟩ := h.getAt List.mem_cons_self k
    cases w with
    | some w =>
      rw [exitTo_found h.order hget] at hrun
      obtain rfl := Option.some.inj hrun
      exact ⟨a :: levels, hsame.holds, List.suffix_rfl, hsame.fresh⟩
    | none =>
      rw [exitTo_counted h.order hget] at hrun
      obtain ⟨⟨count, s₂⟩, hcount, hrun⟩ := Option.bind_eq_some_iff.1 hrun
      have hsame₂ := hsame.trans
        (hsame.holds.countIn_keeps (fun b hb => List.mem_cons_of_mem _ hb) hcount)
      obtain ⟨levels', hhold, hsuffix, hfresh⟩ := hsame₂.holds.exitScopes_keeps hrun
      exact ⟨levels', hhold, hsuffix, hfresh.trans hsame₂.fresh⟩

/-- A call enters a new level, leaves some or none, and declares names in the innermost only. -/
theorem Call.apply_effect {call : Call V} (h : s.Holds levels es)
    (hrun : Call.apply (some s) call = some (some s')) :
    ∃ levels' es', s'.Holds levels' es' ∧ s.fresh ≤ s'.fresh ∧
      (levels' = s.fresh :: levels ∧ s.fresh < s'.fresh ∨ levels' <:+ levels) ∧
      ∀ b ∈ levels.tail, ∀ j, (∃ e ∈ es' b, e.2.key = j) ↔ ∃ e ∈ es b, e.2.key = j := by
  cases call with
  | enterScope =>
    obtain rfl := Option.some.inj (Option.some.inj hrun)
    refine ⟨_, _, h.enterScope, Nat.le_succ _, .inl ⟨rfl, Nat.lt_succ_self _⟩, fun b hb j => ?_⟩
    have hne : b ≠ s.fresh := Nat.ne_of_lt (h.bounded b (List.mem_of_mem_tail hb))
    rw [Function.update_of_ne hne]
  | exitScope =>
    obtain ⟨s₁, hexit, hrun⟩ := Option.bind_eq_some_iff.1 hrun
    obtain rfl := Option.some.inj (Option.some.inj hrun)
    obtain ⟨levels', hs', hsuffix, hfresh⟩ := h.exitScope_keeps hexit
    exact ⟨levels', es, hs', hfresh.ge, .inr hsuffix, fun _ _ _ => Iff.rfl⟩
  | exitTo name =>
    obtain ⟨s₁, hexit, hrun⟩ := Option.bind_eq_some_iff.1 hrun
    obtain rfl := Option.some.inj (Option.some.inj hrun)
    obtain ⟨levels', hs', hsuffix, hfresh⟩ := h.exitTo_keeps hexit
    exact ⟨levels', es, hs', hfresh.ge, .inr hsuffix, fun _ _ _ => Iff.rfl⟩
  | declare name =>
    obtain ⟨s₁, hdeclare, hrun⟩ := Option.bind_eq_some_iff.1 hrun
    obtain rfl := Option.some.inj (Option.some.inj hrun)
    cases levels with
    | nil =>
      obtain ⟨cells, hrep, hcells⟩ := h.order
      rw [List.map_eq_nil_iff.1 hcells] at hrep
      have hfirst : s.list.first = none := hrep.chain
      unfold ScopeStack.declare at hdeclare
      rw [hfirst] at hdeclare
      cases hdeclare
    | cons a levels =>
      obtain ⟨s₂, fs, hdeclare', hs', hfresh, -⟩ := h.declare name
      obtain rfl := Option.some.inj (hdeclare'.symm.trans hdeclare)
      refine ⟨a :: levels, _, hs', hfresh.ge, .inr List.suffix_rfl, fun b hb j => ?_⟩
      have hne : b ≠ a := by
        rintro rfl
        exact (List.nodup_cons.1 h.distinct).1 hb
      rw [Function.update_of_ne hne]
  | store name value =>
    obtain ⟨⟨found, s₁⟩, hstore, hrun⟩ := Option.bind_eq_some_iff.1 hrun
    obtain rfl := Option.some.inj (Option.some.inj hrun)
    obtain ⟨es', hsame, hcase⟩ := h.store_cases hstore
    refine ⟨levels, es', hsame.holds, hsame.fresh.ge, .inr List.suffix_rfl, fun b _ j => ?_⟩
    rcases hcase with rfl | ⟨a, hstored⟩
    · exact Iff.rfl
    · exact hstored.declares b j
  | load name =>
    obtain ⟨w, s₁, hload, hsame, -⟩ := h.load name
    have hrun' : Call.apply (some s) (.load name) = some (some s₁) := by
      simp [Call.apply, hload]
    obtain rfl := Option.some.inj (Option.some.inj (hrun'.symm.trans hrun))
    exact ⟨levels, es, hsame.holds, hsame.fresh.ge, .inr List.suffix_rfl, fun _ _ _ => Iff.rfl⟩

/-- A call leaves a stack of levels. -/
theorem Call.apply_holds {this : Option (ScopeStack V)} {call : Call V}
    (h : ∀ s, this = some s → ∃ levels es, s.Holds levels es)
    (hrun : Call.apply this call = some (some s')) : ∃ levels es, s'.Holds levels es := by
  cases this with
  | none =>
    cases call with
    | enterScope =>
      obtain rfl := Option.some.inj (Option.some.inj hrun)
      exact ⟨_, _, enterScope_null⟩
    | _ => cases hrun
  | some s =>
    obtain ⟨levels, es, hs⟩ := h s rfl
    obtain ⟨levels', es', hs', -⟩ := Call.apply_effect hs hrun
    exact ⟨levels', es', hs'⟩

theorem runCalls_ordered {calls : List (Call V)} (hrun : runCalls calls = some (some s)) :
    ∃ levels es, s.Ordered levels es := by
  have hholds : ∀ s', some s = some s' → ∃ levels es, s'.Holds levels es := by
    refine Transition.run_keeps (fun this : Option (ScopeStack V) => ∀ s, this = some s →
      ∃ levels es, s.Holds levels es) ?_ (fun s h => by cases h) hrun
    rintro this call this' h hstep s' rfl
    exact Call.apply_holds h hstep
  obtain ⟨levels, es, hs⟩ := hholds s rfl
  obtain ⟨es', hord, -⟩ := hs.exists_ordered
  exact ⟨levels, es', hord⟩

/-! ### One binding for a name -/

/-- The level at `a` is the innermost in which `k` is declared; `post` are the levels outside. -/
def InnermostAt (levels : List ℕ) (es : ℕ → List (Located V)) (k : CString) (a : ℕ)
    (post : List ℕ) : Prop :=
  ∃ pre, levels = pre ++ a :: post ∧ (∀ b ∈ pre, ∀ e ∈ es b, e.2.key ≠ k) ∧
    ∃ e ∈ es a, e.2.key = k

/-- `ScopeStack_load` and `ScopeStack_store` resolve `k` to its binding in the level at `a`: the
load returns the value held there, the store is made there, and the next load returns it. -/
structure ResolvedAt (s : ScopeStack V) (levels : List ℕ) (es : ℕ → List (Located V))
    (k : CString) (a : ℕ) : Prop where
  load : ∃ w s', s.load k = some (w, s') ∧ ∀ e ∈ es a, e.2.key = k → e.2.value = w
  store : ∀ w, ∃ s' es', s.store k w = some (true, s') ∧ s'.Holds levels es' ∧ Stored es es' k w a
  next : ∀ (w : V) s', s.store k (some w) = some (true, s') → ∃ s'', s'.load k = some (some w, s'')

/-- The same for the innermost level that declares `k`; a name that no level declares has no
value. -/
structure Resolves (s : ScopeStack V) (levels : List ℕ) (es : ℕ → List (Located V))
    (k : CString) : Prop where
  declared : ∀ a post, InnermostAt levels es k a post → ResolvedAt s levels es k a
  undeclared : (∀ a ∈ levels, ∀ e ∈ es a, e.2.key ≠ k) → ∃ s', s.load k = some (none, s')

/-- The innermost level that declares `k` has one entry for it, and if that has no value, then in
no level outside has the entry for `k` a value that is met first from the cursor. -/
def OneBinding (levels : List ℕ) (es : ℕ → List (Located V)) (k : CString) : Prop :=
  ∀ a post, InnermostAt levels es k a post → ∀ e ∈ es a, e.2.key = k →
    (∀ d ∈ es a, d.2.key = k → d = e) ∧
      (e.2.value = none → ∀ b ∈ post, heldAt (es b) k = none)

theorem answer_of_inside (hpre : ∀ b ∈ pre, ∀ e ∈ es b, e.2.key ≠ k) :
    answer es k (pre ++ a :: post) = (heldAt (es a) k).or (answer es k post) := by
  have hnone : pre.findSome? (fun b => heldAt (es b) k) = none :=
    List.findSome?_eq_none_iff.2 fun b hb => heldAt_absent (hpre b hb)
  rw [answer, List.findSome?_append, hnone, Option.none_or, List.findSome?_cons]
  cases heldAt (es a) k with
  | none => rfl
  | some w => rfl

theorem answer_eq_none_iff : answer es k levels = none ↔ ∀ b ∈ levels, heldAt (es b) k = none :=
  List.findSome?_eq_none_iff

/-- Of two entries for the name a store fills the first and the next load meets the second. -/
theorem Ordered.not_resolved_of_two [Nontrivial V] {xs ys : List (Located V)} {e : Located V}
    (h : s.Ordered (pre ++ a :: post) es) (hpre : ∀ b ∈ pre, ∀ e ∈ es b, e.2.key ≠ k)
    (hes : es a = xs ++ e :: ys) (hxs : ∀ d ∈ xs, d.2.key ≠ k) (he : e.2.key = k)
    (hys : ∃ d ∈ ys, d.2.key = k) : ¬ ResolvedAt s (pre ++ a :: post) es k a := by
  intro hres
  -- what the next load returns does not depend on what is stored
  have hload : ∀ w : V, (heldAt ys k).or (answer es k post) = some w := by
    intro w
    obtain ⟨s₁, es₁, hstore, hord, hat⟩ := h.store hpre hes hxs he (some w)
    obtain ⟨s₂, hnext⟩ := hres.next w s₁ hstore
    obtain ⟨s₃, hanswer⟩ := hord.load k
    obtain ⟨us, d, zs, rfl, hus, hd⟩ := exists_first_of_key hys
    have hlevel : heldAt (es₁ a) k = heldAt (us ++ d :: zs) k := by
      rw [hat.at_level, List.append_assoc, List.cons_append, heldAt_found hus hd,
        heldAt_found hus hd]
    have hpost : answer es₁ k post = answer es k post := by
      have hnd := h.holds.distinct
      rw [List.nodup_append, List.nodup_cons] at hnd
      obtain ⟨-, ⟨ha, -⟩, hdisjoint⟩ := hnd
      refine answer_congr fun b hb => hat.outside b (fun hbpre => ?_) fun hba => ha (hba ▸ hb)
      exact hdisjoint b hbpre b (List.mem_cons_of_mem _ hb) rfl
    rw [hnext, answer_of_inside hat.inside, hlevel, hpost] at hanswer
    exact (Prod.mk.inj (Option.some.inj hanswer)).1.symm
  obtain ⟨w₁, w₂, hne⟩ := exists_pair_ne V
  exact hne (Option.some.inj ((hload w₁).symm.trans (hload w₂)))

/-- With one entry for the name, load and store meet in it. -/
theorem Ordered.resolved_of_one {e : Located V} (h : s.Ordered (pre ++ a :: post) es)
    (hpre : ∀ b ∈ pre, ∀ e ∈ es b, e.2.key ≠ k) (hmem : e ∈ es a) (he : e.2.key = k)
    (hone : ∀ d ∈ es a, d.2.key = k → d = e)
    (hpost : e.2.value = none → ∀ b ∈ post, heldAt (es b) k = none) :
    ResolvedAt s (pre ++ a :: post) es k a := by
  obtain ⟨xs, d, ys, hes, hxs, hd⟩ := exists_first_of_key ⟨e, hmem, he⟩
  obtain rfl : d = e := hone d (by simp [hes]) hd
  refine ⟨?_, fun w => ?_, fun w s₁ hstore => ?_⟩
  · obtain ⟨s₁, hload⟩ := h.load k
    refine ⟨_, s₁, hload, fun c hc hck => ?_⟩
    rw [hone c hc hck, answer_of_inside hpre, hes, heldAt_found hxs hd]
    cases hvalue : d.2.value with
    | some w => rfl
    | none => rw [Option.none_or, answer_eq_none_iff.2 (hpost hvalue)]
  · obtain ⟨s₁, es₁, hstore, hsame, hstored⟩ := h.holds.store hpre ⟨d, hmem, he⟩ w
    exact ⟨s₁, es₁, hstore, hsame.holds, hstored⟩
  · obtain ⟨s₂, es₁, hstore', hord, hat⟩ := h.store hpre hes hxs hd (some w)
    obtain rfl : s₁ = s₂ := by
      rw [hstore] at hstore'
      exact (Prod.mk.inj (Option.some.inj hstore')).2
    obtain ⟨s₃, hload⟩ := hord.load k
    have hbefore : ∀ c ∈ ys ++ xs, c.2.key ≠ k := by
      intro c hc hck
      rcases List.mem_append.1 hc with hc | hc
      · have hdistinct := (h.order a (by simp)).distinct
        rw [hes, List.map_append, List.map_cons, List.nodup_append, List.nodup_cons] at hdistinct
        obtain rfl := hone c (by simp [hes, hc]) hck
        exact hdistinct.2.1.1 (List.mem_map_of_mem hc)
      · exact hxs c hc hck
    have hheld : heldAt (ys ++ xs ++ [(d.1, { d.2 with value := some w })]) k = some w :=
      heldAt_found hbefore hd
    rw [answer_of_inside hat.inside, hat.at_level, ← List.append_assoc, hheld, Option.some_or]
      at hload
    exact ⟨s₃, hload⟩

theorem Ordered.resolves_iff [Nontrivial V] (h : s.Ordered levels es) (k : CString) :
    Resolves s levels es k ↔ OneBinding levels es k := by
  constructor
  · rintro hres a post ⟨pre, rfl, hpre, hdecl⟩ e he hek
    have hat := hres.declared a post ⟨pre, rfl, hpre, hdecl⟩
    obtain ⟨xs, d, ys, hes, hxs, hd⟩ := exists_first_of_key hdecl
    have hone : ∀ c ∈ es a, c.2.key = k → c = d := by
      intro c hc hck
      rw [hes, List.mem_append, List.mem_cons] at hc
      rcases hc with hc | rfl | hc
      · exact absurd hck (hxs c hc)
      · rfl
      · exact absurd hat (h.not_resolved_of_two hpre hes hxs hd ⟨c, hc, hck⟩)
    refine ⟨fun c hc hck => (hone c hc hck).trans (hone e he hek).symm, fun hnone => ?_⟩
    obtain ⟨w, s₁, hload, hheld⟩ := hat.load
    obtain ⟨s₂, hanswer⟩ := h.load k
    obtain rfl : none = w := hnone.symm.trans (hheld e he hek)
    rw [hload, answer_of_inside hpre] at hanswer
    have hboth := (Prod.mk.inj (Option.some.inj hanswer)).1.symm
    exact answer_eq_none_iff.1 (Option.or_eq_none_iff.1 hboth).2
  · intro hone
    refine ⟨?_, fun hnone => ?_⟩
    · rintro a post ⟨pre, rfl, hpre, e, he, hek⟩
      obtain ⟨heq, hpost⟩ := hone a post ⟨pre, rfl, hpre, e, he, hek⟩ e he hek
      exact h.resolved_of_one hpre he hek heq hpost
    · obtain ⟨s₁, hload⟩ := h.load k
      rw [answer_eq_none_iff.2 fun b hb => heldAt_absent (hnone b hb)] at hload
      exact ⟨s₁, hload⟩

/-- **`ScopeStack_load` and `ScopeStack_store` resolve a name to the same binding exactly when the
innermost level that declares it has one entry for it, and this has a value or no level outside
gives one.** -/
theorem load_store_agree_iff [Nontrivial V] (calls : List (Call V)) (s : ScopeStack V)
    (hrun : runCalls calls = some (some s)) :
    (∃ levels es, s.Ordered levels es) ∧
      ∀ levels es, s.Ordered levels es → ∀ k, Resolves s levels es k ↔ OneBinding levels es k :=
  ⟨runCalls_ordered hrun, fun _ _ h k => h.resolves_iff k⟩

/-- A variable with a value, and in an inner scope one of the same name without. -/
def shadowed : List (Call ℕ) :=
  [.enterScope, .declare [120], .store [120] (some 1), .enterScope, .declare [120]]

theorem shadowed_load :
    ∃ s levels es a post, runCalls shadowed = some (some s) ∧ s.Ordered levels es ∧
      InnermostAt levels es [120] a post ∧ (∃ e ∈ es a, e.2.key = [120] ∧ e.2.value = none) ∧
      ∃ s', s.load [120] = some (some 1, s') := by
  have h₀ : (enterScope (none : Option (ScopeStack ℕ))).Holds [0] fun _ => [] := enterScope_null
  obtain ⟨s₁, s₂, es₂, hdeclare, hstore, h₂, hbinds, -, -⟩ := h₀.bind [120] 1
  obtain ⟨s₄, fs, hdeclare', h₄, -, hfs⟩ := h₂.enterScope.declare [120]
  obtain ⟨es', hord, hperm⟩ := h₄.exists_ordered
  have hrun : runCalls shadowed = some (some s₄) := by
    simp [runCalls, shadowed, Call.apply, hdeclare, hstore, hdeclare']
  have hne : s₂.fresh ≠ 0 := (h₂.bounded 0 List.mem_cons_self).ne'
  rw [Function.update_self] at hfs
  obtain ⟨n, rfl⟩ : ∃ n, fs = [(n, ⟨[120], none⟩)] := by
    rcases hfs with ⟨-, e, he, -⟩ | hfs
    · cases he
    · exact hfs.1
  have hinner := hperm s₂.fresh List.mem_cons_self
  have houter := hperm 0 (by simp)
  rw [Function.update_self, List.perm_singleton] at hinner
  rw [Function.update_of_ne hne.symm, Function.update_of_ne hne.symm] at houter
  obtain ⟨⟨e, he, hek⟩, hall⟩ := hbinds (by simp)
  obtain ⟨xs, d, ys, hes, hxs, hd⟩ := exists_first_of_key ⟨e, houter.mem_iff.2 he, hek⟩
  have hvalue := hall d (houter.mem_iff.1 (by simp [hes])) hd
  obtain ⟨s', hload⟩ := hord.load [120]
  have hanswer : answer es' [120] [s₂.fresh, 0] = some 1 := by
    have hheld : heldAt (es' 0) [120] = some 1 := by rw [hes, heldAt_found hxs hd, hvalue]
    have hnull : heldAt (es' s₂.fresh) [120] = none := by rw [hinner]; rfl
    simp [answer, hheld, hnull]
  rw [hanswer] at hload
  exact ⟨s₄, _, es', s₂.fresh, [0], hrun, hord, ⟨[], rfl, by simp, by simp [hinner]⟩,
    ⟨(n, ⟨[120], none⟩), by simp [hinner], rfl, rfl⟩, s', hload⟩

/-- The load goes to the outer variable, where the store would go to the inner one. -/
theorem shadowed_not_resolved :
    ∃ s levels es, runCalls shadowed = some (some s) ∧ s.Ordered levels es ∧
      ¬ Resolves s levels es [120] := by
  obtain ⟨s, levels, es, a, post, hrun, hord, hin, ⟨e, he, hek, hnone⟩, s', hload⟩ := shadowed_load
  refine ⟨s, levels, es, hrun, hord, fun hres => ?_⟩
  obtain ⟨w, s'', hload', hheld⟩ := (hres.declared a post hin).load
  obtain rfl : none = w := hnone.symm.trans (hheld e he hek)
  rw [hload] at hload'
  cases hload'

theorem load_store_agree_iff_shadowed :
    ∃ s, runCalls shadowed = some (some s) ∧ ∀ levels es, s.Ordered levels es →
      ∀ k, Resolves s levels es k ↔ OneBinding levels es k := by
  obtain ⟨s, -, -, -, -, hrun, -⟩ := shadowed_load
  exact ⟨s, hrun, (load_store_agree_iff shadowed s hrun).2⟩

end ScopeStack

end InsenseCVM
