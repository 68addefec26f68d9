import InsenseCVM.Collections.ScopeResolution
import Mathlib.Data.List.Basic

/-!
# While a scope is open

`ScopeStack_load` stops at the innermost level that gives a value for the name, and
`ScopeStack_store` at the innermost that has it. The levels outside a level that stays open get no
new names, whatever is called in the meantime.
-/

namespace InsenseCVM

namespace ListMap

variable {V : Type} {m : ListMap V} {es : List (Located V)} {k : CString}

/-- `ListMap_put` would find an entry for the key. -/
def has (m : ListMap V) (k : CString) : Bool :=
  match m.search k with
  | some (some _, _) => true
  | _ => false

/-- The value that `ListMap_get` returns. -/
def valueOf (m : ListMap V) (k : CString) : Option V := (m.get k).bind Prod.fst

theorem Represents.has_iff (h : m.Represents es) : m.has k = true ↔ ∃ e ∈ es, e.2.key = k := by
  unfold has
  by_cases hk : ∃ e ∈ es, e.2.key = k
  · obtain ⟨xs, e, ys, rfl, hxs, he⟩ := exists_first_of_key hk
    obtain ⟨p, hsearch, -⟩ := h.search_found hxs he
    rw [hsearch]
    exact iff_of_true rfl hk
  · have hes : ∀ d ∈ es, d.2.key ≠ k := fun d hd hdk => hk ⟨d, hd, hdk⟩
    obtain ⟨p, ys, hsearch, -⟩ := h.search_absent hes
    rw [hsearch]
    exact iff_of_false Bool.false_ne_true hk

theorem Represents.valueOf_eq (h : m.Represents es) : m.valueOf k = heldAt es k := by
  obtain ⟨m', ys, hget, -, -, -⟩ := h.get_heldAt k
  rw [valueOf, hget]
  rfl

end ListMap

namespace ScopeStack

open ListMap

variable {V : Type} {s s' : ScopeStack V} {levels pre post : List ℕ} {a b f : ℕ}
  {es : ℕ → List (Located V)} {k : CString}

/-! ### Where a search ends -/

/-- The level whose value `ScopeStack_load` returns. -/
def loadLevel (s : ScopeStack V) (levels : List ℕ) (k : CString) : Option ℕ :=
  levels.find? fun b => ((s.level b).valueOf k).isSome

/-- The level that `ScopeStack_store` updates. -/
def storeLevel (s : ScopeStack V) (levels : List ℕ) (k : CString) : Option ℕ :=
  levels.find? fun b => (s.level b).has k

theorem Ordered.load_loadLevel (h : s.Ordered levels es) (k : CString) :
    ∃ s', s.load k = some ((s.loadLevel levels k).bind fun b => (s.level b).valueOf k, s') := by
  obtain ⟨s', hload⟩ := h.load k
  have hvalue : ∀ b ∈ levels, (s.level b).valueOf k = heldAt (es b) k := fun b hb =>
    (h.order b hb).valueOf_eq
  refine ⟨s', ?_⟩
  rw [hload]
  congr 2
  clear hload h
  induction levels with
  | nil => rfl
  | cons b levels ih =>
    have hrest := ih fun c hc => hvalue c (List.mem_cons_of_mem _ hc)
    simp only [answer, loadLevel, List.findSome?_cons, List.find?_cons] at hrest ⊢
    rw [hvalue b List.mem_cons_self]
    cases hheld : heldAt (es b) k with
    | some w => simp [hvalue b List.mem_cons_self, hheld]
    | none => simpa using hrest

theorem Holds.has_iff (h : s.Holds levels es) (hb : b ∈ levels) :
    (s.level b).has k = true ↔ ∃ e ∈ es b, e.2.key = k := by
  obtain ⟨ys, hys, hrep⟩ := h.entries b hb
  rw [hrep.has_iff]
  simp only [hys.mem_iff]

theorem Holds.store_storeLevel (h : s.Holds levels es) (hlevel : s.storeLevel levels k = some a)
    (v : Option V) :
    ∃ s' es', s.store k v = some (true, s') ∧ s'.Holds levels es' ∧ Stored es es' k v a := by
  obtain ⟨hhas, pre, post, rfl, hpre⟩ := List.find?_eq_some_iff_append.1 hlevel
  have hnone : ∀ b ∈ pre, ∀ e ∈ es b, e.2.key ≠ k := by
    intro b hb e he hek
    have hhas' := (h.has_iff (List.mem_append_left _ hb)).2 ⟨e, he, hek⟩
    have hnot := hpre b hb
    rw [hhas'] at hnot
    cases hnot
  obtain ⟨s', es', hstore, hsame, hstored⟩ := h.store hnone ((h.has_iff (by simp)).1 hhas) v
  exact ⟨s', es', hstore, hsame.holds, hstored⟩

/-- The loop comes to the null pointer behind the last level, and follows it. -/
theorem Holds.putIn_undeclared {searched : List ℕ} {v : Option V} (h : s.Holds levels es)
    (hsearched : ∀ a ∈ searched, a ∈ levels) (hnone : ∀ b ∈ levels, ∀ e ∈ es b, e.2.key ≠ k) :
    ScopeStack.putIn k v searched s = none := by
  induction searched generalizing s with
  | nil => rfl
  | cons a searched ih =>
    have ha := hsearched a List.mem_cons_self
    rcases h.putAt ha k v with
      ⟨s₁, hput, hsame, -⟩ | ⟨s₁, es', -, -, e, rest, hperm, hek, -⟩
    · simp only [ScopeStack.putIn, hput]
      exact ih hsame.holds fun b hb => hsearched b (List.mem_cons_of_mem _ hb)
    · exact absurd hek (hnone a ha e (hperm.mem_iff.2 List.mem_cons_self))

theorem Holds.store_undeclared (h : s.Holds levels es)
    (hnone : ∀ b ∈ levels, ∀ e ∈ es b, e.2.key ≠ k) (v : Option V) : s.store k v = none := by
  rw [store_eq_putIn h.order]
  exact h.putIn_undeclared (fun _ ha => ha) hnone

/-- `ScopeStack_store` returns `-1`, and the levels hold what they held. -/
def StoreRefused (s : ScopeStack V) (k : CString) (v : Option V) : Prop :=
  ∃ s', s.store k v = some (false, s') ∧ ∀ levels es, s.Holds levels es → s'.Holds levels es

/-- No level has the name. -/
def Undeclared (s : ScopeStack V) (k : CString) : Prop :=
  ∀ levels, s.Levels levels → ∀ b ∈ levels, (s.level b).has k = false

theorem Holds.store_of_undeclared (h : s.Holds levels es) (hk : s.Undeclared k) (v : Option V) :
    s.store k v = none ∧ ¬ StoreRefused s k v := by
  have hstore : s.store k v = none := by
    refine h.store_undeclared (fun b hb e he hek => ?_) v
    have hhas := (h.has_iff hb).2 ⟨e, he, hek⟩
    rw [hk levels h.order b hb] at hhas
    cases hhas
  refine ⟨hstore, ?_⟩
  rintro ⟨s', hrefused, -⟩
  rw [hstore] at hrefused
  cases hrefused

/-- **A store to a name that no level has is never refused: the code follows the null pointer behind
the last level.** -/
theorem undeclared_not_refused (calls : List (Call V)) (s : ScopeStack V)
    (hrun : runCalls calls = some (some s)) (k : CString) (hk : s.Undeclared k) (v : Option V) :
    s.store k v = none ∧ ¬ StoreRefused s k v := by
  obtain ⟨levels, es, hord⟩ := runCalls_ordered hrun
  exact hord.holds.store_of_undeclared hk v

/-- Two levels; the outer one has another name. -/
theorem exists_undeclared : ∃ s levels es, runCalls [.enterScope, .declare [121], .enterScope] =
    some (some s) ∧ (s : ScopeStack ℕ).Holds levels es ∧ s.Undeclared [120] := by
  obtain ⟨s, es, hdeclare, h, -, hes⟩ :=
    (enterScope_null : (enterScope (none : Option (ScopeStack ℕ))).Holds [0] _).declare [121]
  have hrun : runCalls [.enterScope, .declare [121], .enterScope] =
      some (some (enterScope (some s))) := by
    simp [runCalls, Call.apply, hdeclare]
  have hne : 0 ≠ s.fresh := Nat.ne_of_lt (h.bounded 0 List.mem_cons_self)
  refine ⟨_, _, _, hrun, h.enterScope, fun levels horder b hb => ?_⟩
  obtain rfl := horder.unique h.enterScope.order
  rw [← Bool.not_eq_true, h.enterScope.has_iff hb]
  rintro ⟨e, he, hek⟩
  rcases List.mem_cons.1 hb with rfl | hb
  · rw [Function.update_self] at he
    cases he
  · obtain rfl := List.mem_singleton.1 hb
    rw [Function.update_of_ne hne, Function.update_self] at he
    rcases hes with ⟨rfl, -⟩ | ⟨⟨n, rfl⟩, -⟩
    · cases he
    · obtain rfl := List.mem_singleton.1 he
      cases hek

theorem undeclared_not_refused_two : ∃ s : ScopeStack ℕ, ¬ StoreRefused s [120] none := by
  obtain ⟨s, levels, es, hrun, -, hk⟩ := exists_undeclared
  exact ⟨s, (undeclared_not_refused _ s hrun [120] hk none).2⟩

theorem store_not_refused : ∃ s : ScopeStack ℕ,
    runCalls [.enterScope, .declare [121], .enterScope] = some (some s) ∧ s.Undeclared [120] ∧
      ¬ StoreRefused s [120] (some 1) := by
  obtain ⟨s, levels, es, hrun, h, hk⟩ := exists_undeclared
  exact ⟨s, hrun, hk, (h.store_of_undeclared hk _).2⟩

/-! ### The levels outside -/

/-- Where the level at `f` is still open, the levels outside it are `outer`, and have the given
names. -/
structure Outside (f : ℕ) (outer : List ℕ) (names : ℕ → CString → Prop) (s : ScopeStack V) :
    Prop where
  allocated : f < s.fresh
  held : ∃ levels es, s.Holds levels es ∧ (f ∈ levels → (∃ pre, levels = pre ++ f :: outer) ∧
    ∀ b ∈ outer, ∀ j, (∃ e ∈ es b, e.2.key = j) ↔ names b j)

variable {outer : List ℕ} {names : ℕ → CString → Prop}

/-- A suffix that still has the level has all of the levels outside it. -/
theorem split_suffix {levels' : List ℕ} (hnd : (pre ++ f :: outer).Nodup)
    (hsuffix : levels' <:+ pre ++ f :: outer) (hf : f ∈ levels') :
    ∃ pre', levels' = pre' ++ f :: outer := by
  obtain ⟨left, heq⟩ := hsuffix
  obtain ⟨pre', post', rfl⟩ := List.append_of_mem hf
  rw [← List.append_assoc] at heq
  -- the level is met once
  have hnot : f ∉ pre ∧ f ∉ outer := by
    rw [List.nodup_append, List.nodup_cons] at hnd
    obtain ⟨-, ⟨hpost, -⟩, hdisjoint⟩ := hnd
    exact ⟨fun hpre => hdisjoint f hpre f List.mem_cons_self rfl, hpost⟩
  obtain ⟨-, -, rfl⟩ := (List.append_cons_inj_of_notMem hnot.1 hnot.2).1 heq.symm
  exact ⟨pre', rfl⟩

theorem Outside.call {call : Call V} (h : Outside f outer names s)
    (hrun : Call.apply (some s) call = some (some s')) : Outside f outer names s' := by
  obtain ⟨hallocated, levels, es, hs, hopen⟩ := h
  obtain ⟨levels', es', hs', hfresh, hlevels, hnames⟩ := Call.apply_effect hs hrun
  refine ⟨hallocated.trans_le hfresh, levels', es', hs', fun hf => ?_⟩
  have hf' : f ∈ levels := by
    rcases hlevels with ⟨rfl, -⟩ | hsuffix
    · exact (List.mem_cons.1 hf).resolve_left hallocated.ne
    · exact hsuffix.subset hf
  obtain ⟨⟨pre, rfl⟩, hnames'⟩ := hopen hf'
  refine ⟨?_, fun b hb j => ?_⟩
  · rcases hlevels with ⟨rfl, -⟩ | hsuffix
    · exact ⟨s.fresh :: pre, rfl⟩
    · exact split_suffix hs.distinct hsuffix hf
  · refine (hnames b ?_ j).trans (hnames' b hb j)
    cases pre with
    | nil => exact hb
    | cons a pre => exact List.mem_append_right _ (List.mem_cons_of_mem _ hb)

theorem Call.apply_some {call : Call V} {this : Option (ScopeStack V)}
    (hrun : Call.apply (some s) call = some this) : ∃ s', this = some s' := by
  cases call with
  | enterScope => exact ⟨_, (Option.some.inj hrun).symm⟩
  | exitScope | exitTo | declare | store | load =>
    obtain ⟨a, -, hrun⟩ := Option.bind_eq_some_iff.1 hrun
    exact ⟨_, (Option.some.inj hrun).symm⟩

/-- **The levels outside a level that is still open have the names that they had.** -/
theorem Outside.run {calls : List (Call V)} {this : Option (ScopeStack V)}
    (h : Outside f outer names s) (hrun : Transition.run Call.apply (some s) calls = some this) :
    ∃ s', this = some s' ∧ Outside f outer names s' := by
  induction calls generalizing s with
  | nil => exact ⟨s, (Option.some.inj hrun).symm, h⟩
  | cons call calls ih =>
    rw [Transition.run_cons, Option.bind_eq_some_iff] at hrun
    obtain ⟨that, hcall, hrest⟩ := hrun
    obtain ⟨s₁, rfl⟩ := Call.apply_some hcall
    exact ih (h.call hcall) hrest

/-- A level that has just been entered. -/
theorem Holds.outside (h : s.Holds levels es) : Outside s.fresh levels
    (fun b j => (s.level b).has j = true) (ScopeStack.enterScope (some s)) := by
  refine ⟨Nat.lt_succ_self _, _, _, h.enterScope, fun _ => ⟨⟨[], rfl⟩, fun b hb j => ?_⟩⟩
  have hne : b ≠ s.fresh := Nat.ne_of_lt (h.bounded b hb)
  rw [Function.update_of_ne hne, h.has_iff hb]

end ScopeStack

end InsenseCVM
