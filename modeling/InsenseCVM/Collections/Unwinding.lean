import InsenseCVM.Collections.Environments
import InsenseCVM.Collections.OpenScope

/-!
# Unwinding to a name

`ScopeStack_exitTo` is to leave the levels inside the innermost one that has a value for the name.
It looks at the first level apart from the others, and counts the levels that it passes from the
second on only: where it does not stop at once it leaves one level fewer than it has passed.

`Unwinds s k a post`: the level at `a` and those outside it, `post`, are what is left.
-/

namespace InsenseCVM

namespace ListMap

variable {V : Type} {m m' : ListMap V} {es : List (Located V)} {k : CString} {value : Option V}

/-- A lookup moves nothing but the cursor. -/
theorem get_moves (h : m.get k = some (value, m')) : ∃ p, m' = m.moved p := by
  obtain ⟨⟨element, m₁⟩, hsearch, h⟩ := Option.bind_eq_some_iff.1 h
  obtain ⟨⟨element', list⟩, hlist, hsearch⟩ := Option.bind_eq_some_iff.1 hsearch
  obtain ⟨p, rfl⟩ := IteratedList.searchList_moves hlist
  cases hsearch
  refine ⟨p, ?_⟩
  cases element with
  | none =>
    cases h
    rfl
  | some element =>
    obtain ⟨e, -, h⟩ := Option.bind_eq_some_iff.1 h
    cases h
    rfl

theorem heldAt_of_null (h : ∀ e ∈ es, e.2.key = k → e.2.value = none) : heldAt es k = none := by
  unfold heldAt
  cases hfind : es.find? fun e => decide (e.2.key = k) with
  | none => rfl
  | some e =>
    have hek : e.2.key = k := by simpa using List.find?_some hfind
    exact h e (List.mem_of_find?_eq_some hfind) hek

/-- Where there is no more than one entry for the key, a lookup finds the value that it has. -/
theorem heldAt_of_one {e : Located V} (hone : (valuesFor es k).length ≤ 1) (he : e ∈ es)
    (hek : e.2.key = k) : heldAt es k = e.2.value := by
  have hmem : e.2.value ∈ valuesFor es k := mem_valuesFor.2 ⟨e, he, hek, rfl⟩
  obtain ⟨v, hv⟩ := List.length_eq_one_iff.1 (hone.antisymm (List.length_pos_of_mem hmem))
  rw [hv, List.mem_singleton] at hmem
  rw [heldAt_eq_headD, hv, hmem]
  rfl

end ListMap

namespace ScopeStack

open ListMap

variable {V : Type} {s s' : ScopeStack V} {levels pre post : List ℕ} {a b n : ℕ}
  {es : ℕ → List (Located V)} {k : CString} {v : Option V}

/-! ### The levels that are left -/

/-- `ListMap_get` on the level finds a value. -/
def gives (s : ScopeStack V) (k : CString) (b : ℕ) : Bool := ((s.level b).valueOf k).isSome

/-- How many levels are left in the search for one with `p`. -/
def cleared (p : ℕ → Bool) : List ℕ → ℕ
  | [] => 0
  | a :: levels => if p a then 0 else levels.findIdx p

section cleared

variable {p : ℕ → Bool}

theorem drop_eq_iff : (pre ++ a :: post).drop n = a :: post ↔ n = pre.length := by
  constructor
  · intro h
    have hlength := congrArg List.length h
    simp only [List.length_drop, List.length_append, List.length_cons] at hlength
    omega
  · rintro rfl
    exact List.drop_left

theorem findIdx_eq_zero_iff : post.findIdx p = 0 ↔ ∀ b ∈ post.head?, p b = true := by
  cases post with
  | nil => simp
  | cons b post => cases hb : p b <;> simp [List.findIdx_cons, hb]

/-- The levels inside `a` are left when `a` is the first level and has `p`, or when it does not have
`p` and the next one does. -/
theorem drop_cleared_iff (hpre : ∀ b ∈ pre, p b = false) :
    (pre ++ a :: post).drop (cleared p (pre ++ a :: post)) = a :: post ↔
      (pre = [] ∧ p a = true) ∨ (p a = false ∧ ∀ b ∈ post.head?, p b = true) := by
  rw [drop_eq_iff, ← findIdx_eq_zero_iff]
  cases pre with
  | nil => cases ha : p a <;> simp [cleared, ha]
  | cons b pre =>
    -- the count starts behind `b`, so it has to pass `a` to come to the number of levels inside it
    have hnone : pre.findIdx p = pre.length :=
      List.findIdx_eq_length.2 fun c hc => hpre c (List.mem_cons_of_mem _ hc)
    have hb := hpre b List.mem_cons_self
    cases ha : p a <;> simp [cleared, hb, List.findIdx_append, hnone, List.findIdx_cons, ha]
    omega

end cleared

/-- The maps of the levels are the same but for their cursors. -/
def MapsMoved (s s' : ScopeStack V) : Prop := ∀ b, ∃ p, s'.level b = (s.level b).moved p

theorem MapsMoved.refl : MapsMoved s s := fun b => ⟨(s.level b).list.next, rfl⟩

theorem MapsMoved.trans {t : ScopeStack V} (h : MapsMoved s s') (h' : MapsMoved s' t) :
    MapsMoved s t := by
  intro b
  obtain ⟨p, hp⟩ := h b
  obtain ⟨q, hq⟩ := h' b
  exact ⟨q, by rw [hq, hp]; rfl⟩

theorem mapsMoved_of_getAt (h : s.getAt a k = some (v, s')) : MapsMoved s s' := by
  obtain ⟨⟨w, m⟩, hget, h⟩ := Option.bind_eq_some_iff.1 h
  cases h
  intro b
  show ∃ p, Function.update s.level a m b = (s.level b).moved p
  by_cases hba : b = a
  · subst hba
    rw [Function.update_self]
    exact get_moves hget
  · rw [Function.update_of_ne hba]
    exact MapsMoved.refl b

theorem level_of_exitScope (h : s.exitScope = some s') : s'.level = s.level := by
  unfold ScopeStack.exitScope at h
  cases hfirst : s.list.first with
  | none =>
    rw [hfirst] at h
    cases h
    rfl
  | some first =>
    rw [hfirst] at h
    obtain ⟨node, -, h⟩ := Option.bind_eq_some_iff.1 h
    obtain ⟨list, -, h⟩ := Option.bind_eq_some_iff.1 h
    cases h
    rfl

theorem level_of_exitScopes (h : exitScopes n s = some s') : s'.level = s.level := by
  induction n generalizing s with
  | zero =>
    cases h
    rfl
  | succ n ih =>
    obtain ⟨s₁, hexit, h⟩ := Option.bind_eq_some_iff.1 h
    exact (ih h).trans (level_of_exitScope hexit)

/-- The loop counts up to the first of the levels that gives a value, or all of them. -/
theorem Ordered.countIn {searched : List ℕ} {m : ℕ} {p : ℕ → Bool} (h : s.Ordered levels es)
    (hsearched : ∀ b ∈ searched, b ∈ levels) (hnd : searched.Nodup)
    (hp : ∀ b ∈ searched, (heldAt (es b) k).isSome = p b) :
    ∃ s' es', countIn k searched m s = some (m + searched.findIdx p, s') ∧
      s'.Ordered levels es' ∧ MapsMoved s s' := by
  induction searched generalizing s es m with
  | nil => exact ⟨s, es, rfl, h, .refl⟩
  | cons c searched ih =>
    rw [List.nodup_cons] at hnd
    obtain ⟨s₁, ys, hget, hord, -⟩ := h.getAt (hsearched c List.mem_cons_self) k
    have hpc := hp c List.mem_cons_self
    simp only [ScopeStack.countIn, hget, Option.bind_eq_bind, Option.bind_some, List.findIdx_cons,
      ← hpc]
    cases hheld : heldAt (es c) k with
    | some w => exact ⟨s₁, _, rfl, hord, mapsMoved_of_getAt hget⟩
    | none =>
      have hp₁ : ∀ b ∈ searched, (heldAt (Function.update es c ys b) k).isSome = p b := by
        intro b hb
        rw [Function.update_of_ne fun hbc : b = c => hnd.1 (hbc ▸ hb)]
        exact hp b (List.mem_cons_of_mem _ hb)
      obtain ⟨s₂, es', hcount, hord', hmoved⟩ := @ih s₁ _ (m + 1) hord
        (fun b hb => hsearched b (List.mem_cons_of_mem _ hb)) hnd.2 hp₁
      refine ⟨s₂, es', ?_, hord', (mapsMoved_of_getAt hget).trans hmoved⟩
      rw [Nat.add_assoc, Nat.add_comm 1] at hcount
      exact hcount

theorem Ordered.exitTo (h : s.Ordered levels es) (k : CString) :
    ∃ s', s.exitTo k = some s' ∧ s'.Levels (levels.drop (cleared (s.gives k) levels)) ∧
      MapsMoved s s' := by
  cases levels with
  | nil => exact ⟨s, exitTo_none h.holds.order k, h.holds.order, .refl⟩
  | cons a levels =>
    have hnd := List.nodup_cons.1 h.holds.distinct
    have hgives : ∀ b ∈ a :: levels, (heldAt (es b) k).isSome = s.gives k b := fun b hb => by
      rw [gives, (h.order b hb).valueOf_eq]
    obtain ⟨s₁, ys, hget, hord, -⟩ := h.getAt List.mem_cons_self k
    have hmoved := mapsMoved_of_getAt hget
    rw [cleared, ← hgives a List.mem_cons_self]
    cases hheld : heldAt (es a) k with
    | some w =>
      rw [hheld] at hget
      exact ⟨s₁, exitTo_found h.holds.order hget, hord.holds.order, hmoved⟩
    | none =>
      rw [hheld] at hget
      have hgives₁ : ∀ b ∈ levels, (heldAt (Function.update es a ys b) k).isSome = s.gives k b := by
        intro b hb
        rw [Function.update_of_ne fun hba : b = a => hnd.1 (hba ▸ hb)]
        exact hgives b (List.mem_cons_of_mem _ hb)
      obtain ⟨s₂, es', hcount, hord', hmoved'⟩ := @Ordered.countIn V s₁ _ _ k levels 0 _ hord
        (fun b hb => List.mem_cons_of_mem _ hb) hnd.2 hgives₁
      have hle : levels.findIdx (s.gives k) ≤ (a :: levels).length :=
        List.findIdx_le_length.trans (Nat.le_succ _)
      obtain ⟨s₃, hexits, hhold, -⟩ := hord'.holds.exitScopes hle
      refine ⟨s₃, ?_, hhold.order, fun b => ?_⟩
      · rw [exitTo_counted h.holds.order hget, hcount, Option.bind_some, Nat.zero_add]
        exact hexits
      · rw [level_of_exitScopes hexits]
        exact (hmoved.trans hmoved') b

/-! ### Unwinding -/

/-- `a` is the innermost level with a value for `k`; `post` are the levels outside. -/
def InnermostValue (levels : List ℕ) (es : ℕ → List (Located V)) (k : CString) (a : ℕ)
    (post : List ℕ) : Prop :=
  ∃ pre, levels = pre ++ a :: post ∧ (∀ b ∈ pre, Passes es k b) ∧
    ∃ e ∈ es a, e.2.key = k ∧ e.2.value ≠ none

/-- `ScopeStack_exitTo` leaves the levels inside `a` and keeps `a` and the levels outside, with the
entries that they had. -/
def Unwinds (s : ScopeStack V) (k : CString) (a : ℕ) (post : List ℕ) : Prop :=
  ∃ s', s.exitTo k = some s' ∧ s'.Levels (a :: post) ∧
    ∀ b ∈ a :: post, ∃ p, s'.level b = (s.level b).moved p

theorem Ordered.unwinds_iff (h : s.Ordered levels es) (hin : InnermostValue levels es k a post) :
    Unwinds s k a post ↔ (levels = a :: post ∧ s.gives k a = true) ∨
      (s.gives k a = false ∧ ∀ b ∈ post.head?, s.gives k b = true) := by
  obtain ⟨pre, rfl, hpre, -⟩ := hin
  have hpass : ∀ b ∈ pre, s.gives k b = false := by
    intro b hb
    have hnone : heldAt (es b) k = none := heldAt_of_null (hpre b hb)
    rw [gives, (h.order b (List.mem_append_left _ hb)).valueOf_eq, hnone]
    rfl
  obtain ⟨s', hexit, hlevels, hmoved⟩ := h.exitTo k
  have hiff := @drop_cleared_iff pre post a (s.gives k) hpass
  have hpost : pre ++ a :: post = a :: post ↔ pre = [] := by simp
  rw [hpost, ← hiff]
  constructor
  · rintro ⟨s₁, hexit₁, hlevels₁, -⟩
    obtain rfl : s' = s₁ := Option.some.inj (hexit.symm.trans hexit₁)
    exact hlevels.unique hlevels₁
  · intro hdrop
    rw [hdrop] at hlevels
    exact ⟨s', hexit, hlevels, fun b _ => hmoved b⟩

/-- With one entry for the name, that is when the level is the first. -/
theorem Ordered.unwinds_iff_first (h : s.Ordered levels es)
    (hin : InnermostValue levels es k a post) (hone : (valuesFor (es a) k).length ≤ 1) :
    Unwinds s k a post ↔ levels = a :: post := by
  rw [h.unwinds_iff hin]
  obtain ⟨pre, rfl, -, e, he, hek, hvalue⟩ := hin
  have hgives : s.gives k a = true := by
    rw [gives, (h.order a (by simp)).valueOf_eq, heldAt_of_one hone he hek]
    exact Option.isSome_iff_ne_none.2 hvalue
  simp [hgives]

/-- **`ScopeStack_exitTo` unwinds to the innermost level with a value for the name exactly when this
is the first level and a lookup in it finds a value, or when a lookup in it finds none, an entry of
the name without a value being met first, and one in the next level outside, if there is any, finds
a value.** Where a name has one entry in the level the second case does not arise. -/
theorem exitTo_unwinds_iff (calls : List (Call V)) (s : ScopeStack V)
    (hrun : runCalls calls = some (some s)) :
    (∃ levels es, s.Ordered levels es) ∧
      ∀ levels es k a post, s.Ordered levels es → InnermostValue levels es k a post →
        (Unwinds s k a post ↔ (levels = a :: post ∧ s.gives k a = true) ∨
          (s.gives k a = false ∧ ∀ b ∈ post.head?, s.gives k b = true)) ∧
        ((valuesFor (es a) k).length ≤ 1 → (Unwinds s k a post ↔ levels = a :: post)) :=
  ⟨runCalls_ordered hrun, fun _ _ _ _ _ h hin => ⟨h.unwinds_iff hin, h.unwinds_iff_first hin⟩⟩

/-- A level that binds the name is the innermost with a value if those inside pass it. -/
theorem Binds.innermostValue {w : V} (h : Binds es k a w) (hpre : ∀ b ∈ pre, Passes es k b) :
    InnermostValue (pre ++ a :: post) es k a post := by
  obtain ⟨⟨e, he, hek⟩, hall⟩ := h
  exact ⟨pre, rfl, hpre, e, he, hek, by simp [hall e he hek]⟩

theorem Binds.heldAt_eq {w : V} (h : Binds es k a w) : heldAt (es a) k = some w := by
  obtain ⟨xs, e, ys, hes, hxs, he⟩ := exists_first_of_key h.1
  rw [hes, heldAt_found hxs he]
  exact h.2 e (by simp [hes]) he

theorem Binds.of_perm {es' : ℕ → List (Located V)} {w : V} (h : Binds es k a w)
    (hperm : (es' a).Perm (es a)) : Binds es' k a w := by
  obtain ⟨⟨e, he, hek⟩, hall⟩ := h
  exact ⟨⟨e, hperm.mem_iff.2 he, hek⟩, fun d hd => hall d (hperm.mem_iff.1 hd)⟩

/-- A name with a value in the only scope. -/
theorem exists_bound : ∃ s es, runCalls [.enterScope, .declare [120], .store [120] (some 1)] =
    some (some s) ∧ (s : ScopeStack ℕ).Holds [0] es ∧ Binds es [120] 0 1 := by
  have h₀ : (enterScope (none : Option (ScopeStack ℕ))).Holds [0] fun _ => [] := enterScope_null
  obtain ⟨s₁, s₂, es, hdeclare, hstore, h₂, hbinds, -, -⟩ := h₀.bind [120] 1
  refine ⟨s₂, es, ?_, h₂, hbinds (by simp)⟩
  simp [runCalls, Call.apply, hdeclare, hstore]

/-- One scope is to be left, and none is. -/
theorem exitTo_leaves_scope : ∃ s levels es a post,
    runCalls [.enterScope, .declare [120], .store [120] (some 1), .enterScope] = some (some s) ∧
      (s : ScopeStack ℕ).Ordered levels es ∧ InnermostValue levels es [120] a post ∧
      ¬ Unwinds s [120] a post := by
  obtain ⟨s, es, hrun, h, hbind⟩ := exists_bound
  have hrun' : runCalls [.enterScope, .declare [120], .store [120] (some 1), .enterScope] =
      some (some (enterScope (some s))) := by
    have hmore : runCalls ([.enterScope, .declare [120], .store [120] (some 1)] ++ [.enterScope]) =
        some (some (enterScope (some s))) := by
      rw [runCalls, Transition.run_append, ← runCalls, hrun]
      rfl
    exact hmore
  have hne : 0 ≠ s.fresh := (h.bounded 0 List.mem_cons_self).ne
  have hinner := h.enterScope
  have hpass : ∀ b ∈ [s.fresh], Passes (Function.update es s.fresh []) [120] b := by
    intro b hb e he
    rw [List.mem_singleton.1 hb, Function.update_self] at he
    cases he
  have hbind' : Binds (Function.update es s.fresh []) [120] 0 1 := by
    unfold Binds
    rwa [Function.update_of_ne hne]
  obtain ⟨s', hexit, hleft, -⟩ := @Holds.exitTo ℕ _ _ 0 [120] [s.fresh] [] 1 hinner hpass hbind'
  obtain ⟨es', hord, hperm⟩ := hinner.exists_ordered
  have hpass' : ∀ b ∈ [s.fresh], Passes es' [120] b := by
    intro b hb e he
    exact hpass b hb e ((hperm b (by simp_all)).mem_iff.1 he)
  refine ⟨_, _, es', 0, [], hrun', hord,
    (hbind'.of_perm (hperm 0 (by simp))).innermostValue hpass', ?_⟩
  rintro ⟨s₁, hexit₁, hlevels, -⟩
  obtain rfl : s' = s₁ := Option.some.inj (hexit.symm.trans hexit₁)
  have hlength := congrArg List.length (hlevels.unique hleft.order)
  simp at hlength

/-- In its own scope nothing has to be left. -/
theorem exitTo_unwinds_iff_own : ∃ s,
    runCalls [.enterScope, .declare [120], .store [120] (some 1)] = some (some s) ∧
      Unwinds (s : ScopeStack ℕ) [120] 0 [] := by
  obtain ⟨s, es, hrun, h, hbind⟩ := exists_bound
  obtain ⟨es', hord, hperm⟩ := h.exists_ordered
  have hbind' := hbind.of_perm (hperm 0 List.mem_cons_self)
  have hin : InnermostValue ([] ++ [0]) es' [120] 0 [] := hbind'.innermostValue (by simp)
  have hgives : s.gives [120] 0 = true := by
    rw [gives, (hord.order 0 List.mem_cons_self).valueOf_eq, hbind'.heldAt_eq]
    rfl
  exact ⟨s, hrun, (((exitTo_unwinds_iff _ s hrun).2 _ _ _ _ _ hord hin).1).2 (.inl ⟨rfl, hgives⟩)⟩

end ScopeStack

end InsenseCVM
