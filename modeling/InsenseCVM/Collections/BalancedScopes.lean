import InsenseCVM.Collections.OpenScope

/-!
# Leaving a scope

A balanced run enters a scope, works in it and in scopes nested in it, and leaves it. It declares
and stores inside only, but its loads turn the cursors of the levels outside, so a name with two
entries in one of those can be answered differently afterwards. `leaving_restores_iff` says that
these names are the only exception.
-/

namespace InsenseCVM

namespace ScopeStack

open ListMap

variable {V : Type} {s s' s₁ : ScopeStack V} {levels inner : List ℕ} {a b n : ℕ}
  {es es' : ℕ → List (Located V)} {k : CString} {body : List (Call V)}

/-- The call, in a scope entered on `n` levels, stays inside: it does not leave that scope, and
stores to names that one of the levels entered since then has. -/
def Call.Inside (n : ℕ) : Option (ScopeStack V) → Call V → Prop
  | this, .exitScope => ∃ s m, this = some s ∧ s.size = some m ∧ n + 1 < m
  | _, .exitTo _ => False
  | this, .store name _ => ∃ s levels, this = some s ∧ s.Levels levels ∧
      ∃ b ∈ levels.take (levels.length - n), (s.level b).has name = true
  | _, _ => True

/-- No level gets a name declared again before it was stored. -/
def DeclaredOnce (s : ScopeStack V) (body : List (Call V)) : Prop :=
  ∀ before name, before ++ [.declare name] <+: body →
    ∀ t a outer, Transition.run Call.apply (some s) before = some (some t) →
      t.Levels (a :: outer) → (t.level a).has name = true →
        ∃ earlier v u levels, earlier ++ [.store name v] <+: before ∧
          Transition.run Call.apply (some s) earlier = some (some u) ∧
          u.Levels levels ∧ u.storeLevel levels name = some a

/-- `ScopeStack_enterScope`, calls inside the new scope in which every scope entered is left, and
`ScopeStack_exitScope`. -/
def BalancedRun (s : ScopeStack V) (body : List (Call V)) (s' : ScopeStack V) : Prop :=
  ∃ n s₁, s.size = some n ∧
    Transition.run Call.apply (some (ScopeStack.enterScope (some s))) body = some (some s₁) ∧
    Transition.Along Call.apply (Call.Inside n) (some (ScopeStack.enterScope (some s))) body ∧
    s₁.size = some (n + 1) ∧ s₁.exitScope = some s'

/-- Every name is loaded as before, and there are as many levels. -/
def Restored (s s' : ScopeStack V) : Prop :=
  s'.size = s.size ∧ ∀ k, ∃ v t t', s.load k = some (v, t) ∧ s'.load k = some (v, t')

/-- Whichever of its entries a search meets first in each level, a name is answered the same. -/
def Determined (s : ScopeStack V) : Prop :=
  ∀ levels es, s.Holds levels es → ∀ k v v',
    Answers es k levels v → Answers es k levels v' → v = v'

/-! ### What a run inside a scope leaves -/

/-- Some levels have been entered on those that `s` had, and these hold what they held. -/
def Within (levels : List ℕ) (es : ℕ → List (Located V)) (s' : ScopeStack V) : Prop :=
  ∃ inner es', inner ≠ [] ∧ s'.Holds (inner ++ levels) es' ∧ ∀ b ∈ levels, es' b = es b

theorem Holds.within (h : s.Holds levels es) :
    Within levels es (ScopeStack.enterScope (some s)) := by
  refine ⟨[s.fresh], _, List.cons_ne_nil _ _, h.enterScope, fun b hb => ?_⟩
  exact Function.update_of_ne (Nat.ne_of_lt (h.bounded b hb)) ..

/-- An entered level is none of those outside. -/
theorem Holds.ne_inner (h : s.Holds (inner ++ levels) es) (ha : a ∈ inner) (hb : b ∈ levels) :
    b ≠ a := by
  rintro rfl
  exact (List.nodup_append.1 h.distinct).2.2 b ha b hb rfl

theorem Within.call {call : Call V} (h : Within levels es s)
    (hin : Call.Inside levels.length (some s) call)
    (hrun : Call.apply (some s) call = some (some s')) : Within levels es s' := by
  obtain ⟨inner, es', hne, hs, hsame⟩ := h
  cases call with
  | enterScope =>
    obtain rfl := Option.some.inj (Option.some.inj hrun)
    refine ⟨s.fresh :: inner, _, List.cons_ne_nil _ _, hs.enterScope, fun b hb => ?_⟩
    have hfresh : b ≠ s.fresh := Nat.ne_of_lt (hs.bounded b (List.mem_append_right _ hb))
    rw [Function.update_of_ne hfresh]
    exact hsame b hb
  | exitScope =>
    obtain ⟨t, m, ht, hsize, hm⟩ := hin
    obtain rfl := Option.some.inj ht
    obtain rfl := Option.some.inj (hs.size_eq.symm.trans hsize)
    -- the level that is left is one of those entered since
    obtain ⟨a, inner, rfl⟩ := List.exists_cons_of_ne_nil hne
    obtain ⟨s₁, hexit, hrun⟩ := Option.bind_eq_some_iff.1 hrun
    obtain rfl := Option.some.inj (Option.some.inj hrun)
    obtain ⟨s₂, hexit', hs', -⟩ := hs.exitScope
    obtain rfl := Option.some.inj (hexit'.symm.trans hexit)
    refine ⟨inner, es', ?_, hs', hsame⟩
    rintro rfl
    simp at hm
  | exitTo name => exact hin.elim
  | declare name =>
    obtain ⟨s₁, hdeclare, hrun⟩ := Option.bind_eq_some_iff.1 hrun
    obtain rfl := Option.some.inj (Option.some.inj hrun)
    obtain ⟨a, inner, rfl⟩ := List.exists_cons_of_ne_nil hne
    obtain ⟨s₂, fs, hdeclare', hs', -, -⟩ := hs.declare name
    obtain rfl := Option.some.inj (hdeclare'.symm.trans hdeclare)
    refine ⟨a :: inner, _, hne, hs', fun b hb => ?_⟩
    rw [Function.update_of_ne (hs.ne_inner List.mem_cons_self hb)]
    exact hsame b hb
  | store name value =>
    obtain ⟨t, all, ht, hall, c, hc, hhas⟩ := hin
    obtain rfl := Option.some.inj ht
    obtain rfl := hall.unique hs.order
    have hcount : (inner ++ levels).length - levels.length = inner.length := by simp
    rw [hcount, List.take_left] at hc
    obtain ⟨a, hfind⟩ : ∃ a, inner.find? (fun b => (s.level b).has name) = some a :=
      Option.isSome_iff_exists.1 (List.find?_isSome.2 ⟨c, hc, hhas⟩)
    -- the store goes to the innermost level that has the name, and an inner one has it
    have hlevel : s.storeLevel (inner ++ levels) name = some a := by
      rw [storeLevel, List.find?_append, hfind, Option.some_or]
    obtain ⟨⟨found, s₁⟩, hstore, hrun⟩ := Option.bind_eq_some_iff.1 hrun
    obtain rfl := Option.some.inj (Option.some.inj hrun)
    obtain ⟨s₂, es₂, hstore', hs', e, rest, -, -, rfl⟩ := hs.store_storeLevel hlevel value
    obtain ⟨-, rfl⟩ := Prod.mk.inj (Option.some.inj (hstore'.symm.trans hstore))
    refine ⟨inner, _, hne, hs', fun b hb => ?_⟩
    rw [Function.update_of_ne (hs.ne_inner (List.mem_of_find?_eq_some hfind) hb)]
    exact hsame b hb
  | load name =>
    obtain ⟨⟨w, s₁⟩, hload, hrun⟩ := Option.bind_eq_some_iff.1 hrun
    obtain rfl := Option.some.inj (Option.some.inj hrun)
    obtain ⟨w', s₂, hload', hkeep, -⟩ := hs.load name
    obtain ⟨-, rfl⟩ := Prod.mk.inj (Option.some.inj (hload'.symm.trans hload))
    exact ⟨inner, es', hne, hkeep.holds, hsame⟩

theorem Holds.congr (h : s.Holds levels es) (hsame : ∀ b ∈ levels, es b = es' b) :
    s.Holds levels es' where
  order := h.order
  distinct := h.distinct
  bounded := h.bounded
  entries := fun a ha => hsame a ha ▸ h.entries a ha

/-- **After a balanced run the levels hold what they held.** -/
theorem BalancedRun.holds (h : s.Holds levels es) (hbalanced : BalancedRun s body s') :
    s'.Holds levels es := by
  obtain ⟨n, s₁, hsize, hrun, hin, hclosed, hexit⟩ := hbalanced
  obtain rfl := Option.some.inj (h.size_eq.symm.trans hsize)
  have hwithin : ∀ t, some s₁ = some t → Within levels es t := by
    refine Transition.run_invariant
      (fun this : Option (ScopeStack V) => ∃ t, this = some t ∧ Within levels es t)
      ?_ ⟨_, rfl, h.within⟩ hin hrun |>.elim fun t ht u hu => ?_
    · rintro this call this' ⟨t, rfl, ht⟩ hcall hstep
      obtain ⟨t', rfl⟩ := Call.apply_some hstep
      exact ⟨t', rfl, ht.call hcall hstep⟩
    · obtain rfl := Option.some.inj (ht.1.symm.trans hu)
      exact ht.2
  obtain ⟨inner, es', hne, hs, hsame⟩ := hwithin s₁ rfl
  -- only the scope that the run entered is left
  have hlength : (inner ++ levels).length = levels.length + 1 :=
    Option.some.inj (hs.size_eq.symm.trans hclosed)
  obtain ⟨a, rfl⟩ : ∃ a, inner = [a] := List.length_eq_one_iff.1 (by simp at hlength; omega)
  obtain ⟨s₂, hexit', hs', -⟩ := hs.exitScope
  obtain rfl := Option.some.inj (hexit'.symm.trans hexit)
  exact hs'.congr hsame

theorem Holds.restored (h : s.Holds levels es) (hdet : s.Determined) (h' : s'.Holds levels es) :
    Restored s s' := by
  refine ⟨h'.size_eq.trans h.size_eq.symm, fun k => ?_⟩
  obtain ⟨v, t, hload, -, hanswers⟩ := h.load k
  obtain ⟨v', t', hload', -, hanswers'⟩ := h'.load k
  obtain rfl := hdet levels es h k v v' hanswers hanswers'
  exact ⟨v, t, t', hload, hload'⟩

/-! ### Loads inside a scope -/

theorem Ordered.enterScope (h : s.Ordered levels es) :
    (ScopeStack.enterScope (some s)).Ordered (s.fresh :: levels)
      (Function.update es s.fresh []) where
  holds := h.holds.enterScope
  order := fun a ha => by
    show (Function.update s.level s.fresh ListMap.constructor a).Represents _
    rcases List.mem_cons.1 ha with rfl | ha
    · rw [Function.update_self, Function.update_self]
      exact ListMap.constructor_represents
    · have hne : a ≠ s.fresh := Nat.ne_of_lt (h.holds.bounded a ha)
      rw [Function.update_of_ne hne, Function.update_of_ne hne]
      exact h.order a ha

theorem exitScope_level (h : s.exitScope = some s') : s'.level = s.level := by
  unfold ScopeStack.exitScope at h
  split at h
  · rw [Option.some.inj h]
  · obtain ⟨node, -, h⟩ := Option.bind_eq_some_iff.1 h
    obtain ⟨list, -, h⟩ := Option.bind_eq_some_iff.1 h
    rw [← Option.some.inj h]

theorem Ordered.exitScope (h : s.Ordered (a :: levels) es) :
    ∃ s', s.exitScope = some s' ∧ s'.Ordered levels es := by
  obtain ⟨s', hexit, hs', -⟩ := h.holds.exitScope
  refine ⟨s', hexit, hs', fun b hb => ?_⟩
  rw [exitScope_level hexit]
  exact h.order b (List.mem_cons_of_mem _ hb)

/-- Loads of one name search the levels as rings, one time after the other. -/
theorem Ordered.loads (h : s.Ordered levels es) (k : CString) (n : ℕ) :
    ∃ s' es', Transition.run Call.apply (some s) (List.replicate n (.load k)) = some (some s') ∧
      s'.Ordered levels es' ∧ rings es' k levels = Rings.searched n (rings es k levels) := by
  induction n with
  | zero => exact ⟨s, es, rfl, h, rfl⟩
  | succ n ih =>
    obtain ⟨s₁, es₁, hrun, hord, hrings⟩ := ih
    obtain ⟨s₂, es₂, hload, hord₂, hrings₂⟩ := hord.search k
    refine ⟨s₂, es₂, ?_, hord₂, ?_⟩
    · rw [List.replicate_succ', Transition.run_concat, hrun]
      simp [Call.apply, hload]
    · rw [hrings₂, hrings, Rings.searched_succ]

theorem AnswersAt.mem_valuesFor {v : Option V} (h : AnswersAt es k a v) :
    (valuesFor (es a) k = [] ∧ v = none) ∨ v ∈ valuesFor (es a) k := by
  rcases h with ⟨rfl, hnone⟩ | ⟨e, he, hek, rfl⟩
  · exact .inl ⟨valuesFor_eq_nil.2 hnone, rfl⟩
  · exact .inr (ListMap.mem_valuesFor.2 ⟨e, he, hek, rfl⟩)

theorem Answers.finds {v : Option V} (h : Answers es k levels v) :
    Rings.Finds (rings es k levels) v := by
  induction h with
  | nil => exact .nil
  | found hat =>
    rcases hat.mem_valuesFor with ⟨-, hv⟩ | hv
    · cases hv
    · exact .here hv
  | next hat _ ih => exact .past (hat.mem_valuesFor.imp_left And.left) ih

theorem Answers.congr {v : Option V} (h : Answers es k levels v)
    (hperm : ∀ b ∈ levels, (es' b).Perm (es b)) : Answers es' k levels v := by
  have hat : ∀ b v, b ∈ levels → AnswersAt es k b v → AnswersAt es' k b v := by
    rintro b v hb (⟨rfl, hnone⟩ | ⟨e, he, hek, rfl⟩)
    · exact .inl ⟨rfl, fun e he => hnone e ((hperm b hb).mem_iff.1 he)⟩
    · exact .inr ⟨e, (hperm b hb).mem_iff.2 he, hek, rfl⟩
  induction h with
  | nil => exact .nil
  | found h => exact .found (hat _ _ List.mem_cons_self h)
  | next h _ ih =>
    refine .next (hat _ _ List.mem_cons_self h) (ih ?_ ?_)
    · exact fun b hb => hperm b (List.mem_cons_of_mem _ hb)
    · exact fun b v hb => hat b v (List.mem_cons_of_mem _ hb)

/-- A run of loads is balanced. -/
theorem Ordered.balancedRun_loads (h : s.Ordered levels es) (k : CString) (n : ℕ) :
    ∃ s' es', BalancedRun s (List.replicate n (.load k)) s' ∧ s'.Ordered levels es' ∧
      rings es' k levels = Rings.searched n (rings es k levels) := by
  obtain ⟨s₁, es₁, hrun, hord, hrings⟩ := h.enterScope.loads k n
  obtain ⟨s₂, hexit, hord₂⟩ := hord.exitScope
  refine ⟨s₂, es₁, ⟨levels.length, s₁, h.holds.size_eq, hrun, ?_, hord.holds.size_eq, hexit⟩,
    hord₂, ?_⟩
  · intro before call hpre t _
    have hmem : call ∈ List.replicate n (Call.load k) := hpre.subset (by simp)
    rw [List.eq_of_mem_replicate hmem]
    trivial
  · -- the new level has no entry for the name
    have hothers : rings (Function.update es s.fresh []) k levels = rings es k levels :=
      rings_congr fun b hb => Function.update_of_ne (Nat.ne_of_lt (h.holds.bounded b hb)) ..
    rw [rings_cons, rings_cons, Function.update_self, hothers] at hrings
    have hempty : valuesFor ([] : List (Located V)) k = [] := rfl
    rw [hempty, Rings.searched_nil_cons] at hrings
    exact (List.cons.inj hrings).2

/-- Every possible answer is the answer after some number of loads. -/
theorem Ordered.exists_loads {v : Option V} (h : s.Ordered levels es)
    (hv : Answers es k levels v) :
    ∃ n s' t, BalancedRun s (List.replicate n (.load k)) s' ∧ s'.load k = some (v, t) := by
  obtain ⟨n, hn⟩ := Rings.exists_found hv.finds
  obtain ⟨s', es', hbalanced, hord, hrings⟩ := h.balancedRun_loads k n
  obtain ⟨t, -, hload, -, -⟩ := hord.search k
  rw [hrings, hn] at hload
  exact ⟨n, s', t, hbalanced, hload⟩

theorem declaredOnce_loads (s : ScopeStack V) (k : CString) (n : ℕ) :
    DeclaredOnce s (List.replicate n (.load k)) := by
  intro before name hpre
  have hmem : Call.declare name ∈ List.replicate n (Call.load k) := hpre.subset (by simp)
  cases List.eq_of_mem_replicate hmem

/-- **Leaving a scope restores every name exactly when no name outside has entries that a search
answers differently by the order in which it meets them.** -/
theorem leaving_restores_iff (calls : List (Call V)) (s : ScopeStack V)
    (hrun : runCalls calls = some (some s)) :
    (∀ body s', BalancedRun s body s' → DeclaredOnce (ScopeStack.enterScope (some s)) body →
      Restored s s') ↔ s.Determined := by
  obtain ⟨levels₀, es₀, hord₀⟩ := runCalls_ordered hrun
  constructor
  · intro hrestored levels es h k
    obtain ⟨es', hord, hperm⟩ := h.exists_ordered
    have hanswer : ∀ v, Answers es k levels v → ∃ t, s.load k = some (v, t) := by
      intro v hv
      obtain ⟨n, s', t, hbalanced, hload⟩ := hord.exists_loads (hv.congr hperm)
      obtain ⟨-, hloads⟩ := hrestored _ s' hbalanced (declaredOnce_loads _ k n)
      obtain ⟨w, t₁, t₂, hbefore, hafter⟩ := hloads k
      obtain ⟨rfl, -⟩ := Prod.mk.inj (Option.some.inj (hload.symm.trans hafter))
      exact ⟨t₁, hbefore⟩
    intro v v' hv hv'
    obtain ⟨t, hload⟩ := hanswer v hv
    obtain ⟨t', hload'⟩ := hanswer v' hv'
    exact (Prod.mk.inj (Option.some.inj (hload.symm.trans hload'))).1
  · intro hdet body s' hbalanced _
    exact hord₀.holds.restored hdet (hbalanced.holds hord₀.holds)

/-- With one entry for each name in a level, every name is answered the same. -/
theorem determined_of_distinct
    (h : ∀ levels es, s.Holds levels es → ∀ b ∈ levels, KeysDistinct (es b)) : s.Determined := by
  intro levels es hs k v v' hv hv'
  have hdistinct := h levels es hs
  clear hs
  have hat : ∀ b ∈ levels, ∀ v v', AnswersAt es k b v → AnswersAt es k b v' → v = v' := by
    rintro b hb v v' (⟨rfl, hnone⟩ | ⟨e, he, hek, rfl⟩) (⟨rfl, hnone'⟩ | ⟨e', he', hek', rfl⟩)
    · rfl
    · exact absurd hek' (hnone e' he')
    · exact absurd hek (hnone' e he)
    · rw [List.inj_on_of_nodup_map (hdistinct b hb) he he' (hek.trans hek'.symm)]
  induction levels generalizing v v' with
  | nil =>
    cases hv
    cases hv'
    rfl
  | cons b levels ih =>
    have hb := hat b List.mem_cons_self
    cases hv with
    | found hat₁ =>
      cases hv' with
      | found hat₂ => exact hb _ _ hat₁ hat₂
      | next hat₂ _ => cases hb _ _ hat₁ hat₂
    | next hat₁ hrest =>
      cases hv' with
      | found hat₂ => cases hb _ _ hat₁ hat₂
      | next hat₂ hrest' =>
        exact ih _ _ hrest hrest' (fun c hc => hdistinct c (List.mem_cons_of_mem _ hc))
          fun c hc => hat c (List.mem_cons_of_mem _ hc)

/-- A name declared twice before its first value. -/
def redeclared : List (Call ℕ) :=
  [.enterScope, .declare [120], .declare [120], .store [120] (some 1)]

theorem redeclared_values : ∃ s es, runCalls redeclared = some (some s) ∧ s.Ordered [0] es ∧
    (valuesFor (es 0) [120]).Perm [some 1, none] := by
  have h₀ : (enterScope (none : Option (ScopeStack ℕ))).Holds [0] fun _ => [] := enterScope_null
  obtain ⟨s₁, fs₁, hdeclare₁, h₁, -, hfs₁⟩ := h₀.declare [120]
  obtain ⟨m, rfl⟩ : ∃ m, fs₁ = [(m, ⟨[120], none⟩)] := by
    rcases hfs₁ with ⟨-, e, he, -⟩ | hfs₁
    · cases he
    · exact hfs₁.1
  obtain ⟨s₂, fs₂, hdeclare₂, h₂, -, hfs₂⟩ := h₁.declare [120]
  rw [Function.update_self] at hfs₂
  obtain ⟨n, rfl⟩ : ∃ n, fs₂ = [(n, ⟨[120], none⟩), (m, ⟨[120], none⟩)] := by
    rcases hfs₂ with ⟨-, e, he, -, hvalue⟩ | hfs₂
    · rw [List.mem_singleton.1 he] at hvalue
      exact absurd rfl hvalue
    · exact hfs₂.1
  have hinner : s₂.Holds ([] ++ 0 :: []) _ := h₂
  obtain ⟨s₃, es₃, hstore, hs₃, e, rest, hperm, hek, rfl⟩ :=
    hinner.store (k := [120]) (by simp) (by simp) (some 1)
  rw [Function.update_self] at hperm
  -- the entry that is not filled
  have hrest : valuesFor (e :: rest) [120] = List.replicate 2 none :=
    List.perm_replicate.1 (valuesFor_perm hperm [120]).symm
  rw [valuesFor_cons hek] at hrest
  obtain ⟨es', hord, hperm'⟩ := hs₃.holds.exists_ordered
  refine ⟨s₃, es', ?_, hord, ?_⟩
  · simp [runCalls, redeclared, Call.apply, hdeclare₁, hdeclare₂, hstore]
  · have hvalues := valuesFor_perm (hperm' 0 List.mem_cons_self) [120]
    rw [Function.update_self] at hvalues
    have hfilled : valuesFor ((e.1, { e.2 with value := some 1 }) :: rest) [120] =
        [some 1, none] := by
      rw [@valuesFor_cons ℕ _ (e.1, { e.2 with value := some 1 }) _ hek, (List.cons.inj hrest).2]
      rfl
    rwa [hfilled] at hvalues

/-- The load inside the scope turns the level outside. -/
theorem redeclared_not_restored : ∃ s s', runCalls redeclared = some (some s) ∧
    BalancedRun s [.load [120]] s' ∧
    DeclaredOnce (ScopeStack.enterScope (some s)) [.load [120]] ∧ ¬ Restored s s' := by
  obtain ⟨s, es, hrun, hord, hperm⟩ := redeclared_values
  obtain ⟨s', es', hbalanced, hord', hrings⟩ := hord.balancedRun_loads [120] 1
  refine ⟨s, s', hrun, hbalanced, declaredOnce_loads _ _ 1, fun hrestored => ?_⟩
  obtain ⟨v, t, t', hload, hload'⟩ := hrestored.2 [120]
  obtain ⟨_, -, hbefore, -⟩ := hord.search [120]
  obtain ⟨_, -, hafter, -⟩ := hord'.search [120]
  rw [hload] at hbefore
  rw [hload', hrings] at hafter
  have hsame := (Prod.mk.inj (Option.some.inj hbefore)).1.symm.trans
    (Prod.mk.inj (Option.some.inj hafter)).1
  obtain ⟨v₁, v₂, hvalues⟩ := List.length_eq_two.1 hperm.length_eq
  rw [rings_cons, hvalues] at hsame
  rw [hvalues] at hperm
  have h₁ : v₁ ∈ [some 1, none] := hperm.mem_iff.1 List.mem_cons_self
  have h₂ : v₂ ∈ [some 1, none] := hperm.mem_iff.1 (by simp)
  have hne : [v₁, v₂].Nodup := hperm.nodup_iff.2 (by decide)
  simp only [List.mem_cons, List.not_mem_nil, or_false] at h₁ h₂
  rcases h₁ with rfl | rfl <;> rcases h₂ with rfl | rfl <;>
    first | exact absurd hne (by decide) | cases hsame

theorem leaving_restores_iff_shadowed : ∃ s, runCalls shadowed = some (some s) ∧
    ((∀ body s', BalancedRun s body s' → DeclaredOnce (ScopeStack.enterScope (some s)) body →
      Restored s s') ↔ s.Determined) := by
  obtain ⟨s, -, -, -, -, hrun, -⟩ := shadowed_load
  exact ⟨s, hrun, leaving_restores_iff shadowed s hrun⟩

end ScopeStack

end InsenseCVM
