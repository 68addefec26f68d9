import Mathlib.Data.Nat.Notation
import Mathlib.Tactic.Common

/-!
# Programs that can stop with a fault

A program of type `EStateM ε σ α` runs from a state and either returns a value or stops with a
fault; both leave a state behind. `Returns` and `Throws` are the two judgements, with one rule for
each way a program is put together, and `times` and `iterate` are the two kinds of loop.
-/

namespace Execution

variable {ε σ τ α β : Type} {m : EStateM ε σ α} {f : α → EStateM ε σ β} {s t u : σ}
  {a a' : α} {b : β} {e e' : ε}

/-- The program run from `s` returns `a` and leaves the state `t`. -/
def Returns (m : EStateM ε σ α) (s : σ) (a : α) (t : σ) : Prop := m s = .ok a t

/-- The program run from `s` stops with the fault `e` in the state `t`. -/
def Throws (m : EStateM ε σ α) (s : σ) (e : ε) (t : σ) : Prop := m s = .error e t

theorem Returns.unique (h : Returns m s a t) (h' : Returns m s a' u) : a = a' ∧ t = u := by
  unfold Returns at h h'
  rw [h] at h'
  simpa using h'

theorem Returns.not_throws (h : Returns m s a t) : ¬ Throws m s e u := by
  intro h'
  unfold Returns at h
  unfold Throws at h'
  rw [h] at h'
  cases h'

/-! ### Sequencing -/

@[simp] theorem returns_pure : Returns (pure a : EStateM ε σ α) s a' t ↔ a' = a ∧ t = s := by
  show EStateM.Result.ok a s = EStateM.Result.ok a' t ↔ _
  simp [eq_comm]

theorem returns_bind :
    Returns (m >>= f) s b t ↔ ∃ a u, Returns m s a u ∧ Returns (f a) u b t := by
  show EStateM.bind m f s = _ ↔ _
  unfold Returns EStateM.bind
  cases m s with
  | ok a u => simp
  | error e u => simp

theorem Returns.bind (h : Returns m s a u) (h' : Returns (f a) u b t) :
    Returns (m >>= f) s b t :=
  returns_bind.2 ⟨a, u, h, h'⟩

/-- What follows a program that returns runs from where it returned. -/
theorem Returns.bind_iff (h : Returns m s a u) :
    Returns (m >>= f) s b t ↔ Returns (f a) u b t := by
  rw [returns_bind]
  constructor
  · rintro ⟨a', u', h', hf⟩
    obtain ⟨rfl, rfl⟩ := h.unique h'
    exact hf
  · intro hf
    exact ⟨a, u, h, hf⟩

/-- The same for whatever comes of it. -/
theorem Returns.run_bind (h : Returns m s a u) : (m >>= f) s = f a u := by
  show EStateM.bind m f s = f a u
  unfold Returns at h
  unfold EStateM.bind
  rw [h]

theorem returns_map {g : α → β} : Returns (g <$> m) s b t ↔ ∃ a, Returns m s a t ∧ b = g a := by
  show EStateM.map g m s = _ ↔ _
  unfold Returns EStateM.map
  cases m s with
  | ok a u => simp [eq_comm, and_comm]
  | error e u => simp

theorem throws_bind :
    Throws (m >>= f) s e t ↔ Throws m s e t ∨ ∃ a u, Returns m s a u ∧ Throws (f a) u e t := by
  show EStateM.bind m f s = _ ↔ _
  unfold Throws Returns EStateM.bind
  cases m s with
  | ok a u => simp
  | error e u => simp

theorem Throws.bind (h : Throws m s e t) : Throws (m >>= f) s e t := throws_bind.2 (.inl h)

@[simp] theorem returns_throw : ¬ Returns (throw e : EStateM ε σ α) s a t := by
  intro h
  cases h

@[simp] theorem throws_throw : Throws (throw e : EStateM ε σ α) s e' t ↔ e' = e ∧ t = s := by
  show EStateM.Result.error e s = EStateM.Result.error e' t ↔ _
  simp [eq_comm]

@[simp] theorem returns_get : Returns (get : EStateM ε σ σ) s t u ↔ t = s ∧ u = s := by
  show EStateM.Result.ok s s = EStateM.Result.ok t u ↔ _
  simp [eq_comm]

theorem returns_modify {g : σ → σ} : Returns (modify g : EStateM ε σ PUnit) s ⟨⟩ (g s) := by
  rfl

theorem returns_get_bind {g : σ → EStateM ε σ β} :
    Returns (get >>= g) s b t ↔ Returns (g s) s b t :=
  (returns_get.2 ⟨rfl, rfl⟩ : Returns get s s s).bind_iff

theorem returns_set_bind {g : PUnit → EStateM ε σ β} :
    Returns (set u >>= g) s b t ↔ Returns (g ⟨⟩) u b t :=
  (show Returns (set u) s ⟨⟩ u from rfl).bind_iff

/-! ### Programs that only look -/

/-- Whenever the program returns, the state is as it was. -/
def Keeps (m : EStateM ε σ α) : Prop := ∀ s a t, Returns m s a t → t = s

theorem Keeps.pure : Keeps (pure a : EStateM ε σ α) := fun _ _ _ h => (returns_pure.1 h).2

theorem Keeps.throw : Keeps (throw e : EStateM ε σ α) := fun _ _ _ h => absurd h returns_throw

theorem Keeps.get : Keeps (get : EStateM ε σ σ) := fun _ _ _ h => (returns_get.1 h).2

theorem Keeps.bind (hm : Keeps m) (hf : ∀ a, Keeps (f a)) : Keeps (m >>= f) := by
  intro s b t h
  obtain ⟨a, u, ha, hb⟩ := returns_bind.1 h
  obtain rfl := hm s a u ha
  exact hf a u b t hb

theorem Keeps.ite {p : Prop} [Decidable p] {m' : EStateM ε σ α} (hm : Keeps m) (hm' : Keeps m') :
    Keeps (if p then m else m') := by
  split_ifs
  · exact hm
  · exact hm'

/-! ### What a program does to the state -/

/-- Whenever the program returns, the states before and after it are related. -/
def Respects (R : σ → σ → Prop) (m : EStateM ε σ α) : Prop := ∀ s a t, Returns m s a t → R s t

variable {R : σ → σ → Prop} [IsPreorder σ R]

theorem Keeps.respects (hm : Keeps m) : Respects R m := by
  intro s a t h
  rw [hm s a t h]
  exact refl s

theorem Respects.pure : Respects R (pure a : EStateM ε σ α) := Keeps.pure.respects

theorem Respects.get : Respects R (get : EStateM ε σ σ) := Keeps.get.respects

omit [IsPreorder σ R] in
theorem Respects.throw : Respects R (throw e : EStateM ε σ α) := fun _ _ _ h =>
  absurd h returns_throw

theorem Respects.bind (hm : Respects R m) (hf : ∀ a, Respects R (f a)) : Respects R (m >>= f) := by
  intro s b t h
  obtain ⟨a, u, ha, hb⟩ := returns_bind.1 h
  exact trans_of R (hm s a u ha) (hf a u b t hb)

omit [IsPreorder σ R] in
theorem Respects.map {g : α → β} (hm : Respects R m) : Respects R (g <$> m) := by
  intro s b t h
  obtain ⟨a, ha, -⟩ := returns_map.1 h
  exact hm s a t ha

omit [IsPreorder σ R] in
theorem Respects.ite {p : Prop} [Decidable p] {m' : EStateM ε σ α} (hm : Respects R m)
    (hm' : Respects R m') : Respects R (if p then m else m') := by
  split_ifs
  · exact hm
  · exact hm'

/-! ### Loops -/

/-- `for(i = 0; i < n; i++)` where the body does not look at `i`. -/
def times : ℕ → EStateM ε σ Unit → EStateM ε σ Unit
  | 0, _ => pure ()
  | n + 1, body => do body; times n body

/-- A `while` loop: the body answers `inl` to go round again and `inr` to leave. The loop is given
a number of rounds, and throws `endless` when they run out. -/
def iterate (endless : ε) (body : β → EStateM ε σ (β ⊕ α)) : ℕ → β → EStateM ε σ α
  | 0, _ => throw endless
  | rounds + 1, b => do
    match ← body b with
    | .inl b' => iterate endless body rounds b'
    | .inr a => pure a

variable {endless : ε} {body : β → EStateM ε σ (β ⊕ α)} {rounds : ℕ} {b' : β}

theorem Returns.iterate_inl (h : Returns (body b) s (.inl b') u) :
    Returns (iterate endless body (rounds + 1) b) s a t ↔
      Returns (iterate endless body rounds b') u a t := by
  rw [iterate, h.bind_iff]

theorem Returns.iterate_inr (h : Returns (body b) s (.inr a) t) :
    Returns (iterate endless body (rounds + 1) b) s a t := by
  rw [iterate, h.bind_iff, returns_pure]
  exact ⟨rfl, rfl⟩

/-- A loop that is left within some rounds is left the same way when more are allowed. -/
theorem Returns.iterate_mono {more : ℕ} (hle : rounds ≤ more)
    (h : Returns (iterate endless body rounds b) s a t) :
    Returns (iterate endless body more b) s a t := by
  induction rounds generalizing more b s with
  | zero => exact absurd h returns_throw
  | succ n ih =>
    obtain ⟨more, rfl⟩ := Nat.exists_eq_add_one.2 (Nat.zero_lt_of_lt hle)
    rw [iterate, returns_bind] at h ⊢
    obtain ⟨next, u, hbody, hrest⟩ := h
    refine ⟨next, u, hbody, ?_⟩
    cases next with
    | inl b' => exact ih (by omega) hrest
    | inr a' => exact hrest

/-- The rounds that a loop begins, from the first on: with `c`, in the state `t`. -/
inductive Begins (body : β → EStateM ε σ (β ⊕ α)) (b : β) (s : σ) : β → σ → Prop
  | first : Begins body b s b s
  | next {b' c : β} {u t : σ} :
      Begins body b s b' u → Returns (body b') u (.inl c) t → Begins body b s c t

/-- What every round keeps holds of every round that begins. -/
theorem Begins.keeps {c : β} {holds : β → σ → Prop} (h : Begins body b s c t)
    (hround : ∀ {b u c t}, holds b u → Returns (body b) u (.inl c) t → holds c t)
    (hb : holds b s) : holds c t := by
  induction h with
  | first => exact hb
  | next _ hreturns ih => exact hround ih hreturns

section respects

variable {R : σ → σ → Prop} [IsPreorder σ R]

theorem Respects.times {body : EStateM ε σ Unit} {n : ℕ} (h : Respects R body) :
    Respects R (times n body) := by
  induction n with
  | zero => exact Respects.pure
  | succ n ih => exact h.bind fun _ => ih

end respects

/-! ### However a program ends -/

/-- The program run from `s` ends in the state `t`, with a value or with a fault. -/
def Ends (m : EStateM ε σ α) (s t : σ) : Prop := (∃ a, Returns m s a t) ∨ ∃ e, Throws m s e t

/-- However the program ends, the states before and after it are related. -/
def Always (R : σ → σ → Prop) (m : EStateM ε σ α) : Prop := ∀ s t, Ends m s t → R s t

theorem ends_pure : Ends (pure a : EStateM ε σ α) s t ↔ t = s := by
  constructor
  · rintro (⟨b, h⟩ | ⟨e, h⟩)
    · exact (returns_pure.1 h).2
    · cases h
  · rintro rfl
    exact .inl ⟨a, rfl⟩

theorem ends_throw : Ends (throw e : EStateM ε σ α) s t ↔ t = s := by
  constructor
  · rintro (⟨b, h⟩ | ⟨e', h⟩)
    · exact absurd h returns_throw
    · exact (throws_throw.1 h).2
  · rintro rfl
    exact .inr ⟨e, rfl⟩

theorem ends_bind :
    Ends (m >>= f) s t ↔ (∃ e, Throws m s e t) ∨ ∃ a u, Returns m s a u ∧ Ends (f a) u t := by
  constructor
  · rintro (⟨b, h⟩ | ⟨e, h⟩)
    · obtain ⟨a, u, ha, hb⟩ := returns_bind.1 h
      exact .inr ⟨a, u, ha, .inl ⟨b, hb⟩⟩
    · rcases throws_bind.1 h with h | ⟨a, u, ha, hb⟩
      · exact .inl ⟨e, h⟩
      · exact .inr ⟨a, u, ha, .inr ⟨e, hb⟩⟩
  · rintro (⟨e, h⟩ | ⟨a, u, ha, ⟨b, hb⟩ | ⟨e, hb⟩⟩)
    · exact .inr ⟨e, h.bind⟩
    · exact .inl ⟨b, ha.bind hb⟩
    · exact .inr ⟨e, throws_bind.2 (.inr ⟨a, u, ha, hb⟩)⟩

/-- Behind a part that returns, a program ends where the rest of it does. -/
theorem Returns.ends_bind (h : Returns m s a u) : Ends (m >>= f) s t ↔ Ends (f a) u t := by
  unfold Ends Returns Throws
  rw [h.run_bind]

theorem ends_get_bind {g : σ → EStateM ε σ β} : Ends (get >>= g) s t ↔ Ends (g s) s t :=
  (returns_get.2 ⟨rfl, rfl⟩ : Returns get s s s).ends_bind

theorem ends_set_bind {g : PUnit → EStateM ε σ β} : Ends (set u >>= g) s t ↔ Ends (g ⟨⟩) u t :=
  (show Returns (set u) s ⟨⟩ u from rfl).ends_bind

/-- A program that returns ends there and nowhere else. -/
theorem Returns.ends (h : Returns m s a u) : Ends m s t ↔ t = u := by
  constructor
  · rintro (⟨b, h'⟩ | ⟨e, h'⟩)
    · exact (h'.unique h).2
    · exact absurd h' h.not_throws
  · rintro rfl
    exact .inl ⟨a, h⟩

section always

variable {R : σ → σ → Prop} {n rounds : ℕ} {endless : ε}

variable [IsPreorder σ R]

theorem Always.pure : Always R (pure a : EStateM ε σ α) := by
  intro s t h
  rw [ends_pure.1 h]
  exact refl s

theorem Always.throw : Always R (throw e : EStateM ε σ α) := by
  intro s t h
  rw [ends_throw.1 h]
  exact refl s

theorem Always.get : Always R (get : EStateM ε σ σ) := by
  intro s t h
  rw [(returns_get.2 ⟨rfl, rfl⟩ : Returns _ s s s).ends.1 h]
  exact refl s

theorem Always.bind (hm : Always R m) (hf : ∀ a, Always R (f a)) : Always R (m >>= f) := by
  intro s t h
  rcases ends_bind.1 h with ⟨e, h⟩ | ⟨a, u, ha, hb⟩
  · exact hm s t (.inr ⟨e, h⟩)
  · exact trans_of R (hm s u (.inl ⟨a, ha⟩)) (hf a u t hb)

omit [IsPreorder σ R] in
theorem Always.ite {p : Prop} [Decidable p] {m' : EStateM ε σ α} (hm : Always R m)
    (hm' : Always R m') : Always R (if p then m else m') := by
  split_ifs
  · exact hm
  · exact hm'

omit [IsPreorder σ R] in
theorem Always.map {g : α → β} (hm : Always R m) : Always R (g <$> m) := by
  rintro s t (⟨b, h⟩ | ⟨e, h⟩)
  · obtain ⟨a, ha, -⟩ := returns_map.1 h
    exact hm s t (.inl ⟨a, ha⟩)
  · refine hm s t (.inr ⟨e, ?_⟩)
    unfold Throws at h ⊢
    rw [show (g <$> m) s = EStateM.map g m s from rfl, EStateM.map] at h
    split at h
    · cases h
    · rename_i hm'
      cases h
      exact hm'

end always

/-! ### Programs on a part of the state -/

/-- A program on a part of the state, run on the whole. -/
def zoom (view : σ → τ) (put : τ → σ → σ) (m : EStateM ε τ α) : EStateM ε σ α := fun s =>
  match m (view s) with
  | .ok a p => .ok a (put p s)
  | .error e p => .error e (put p s)

variable {view : σ → τ} {put : τ → σ → σ} {p : EStateM ε τ α}

theorem returns_zoom :
    Returns (zoom view put p) s a t ↔ ∃ q, Returns p (view s) a q ∧ t = put q s := by
  unfold Returns zoom
  cases p (view s) with
  | ok a' q => simp [eq_comm, and_assoc]
  | error e q => simp

/-- The whole program changes the part and nothing else. -/
theorem Ends.zoom (h : Ends (zoom view put p) s t) : ∃ q, t = put q s := by
  unfold Ends Returns Throws Execution.zoom at h
  cases hrun : p (view s) with
  | ok a q =>
    simp only [hrun, reduceCtorEq, exists_false, or_false] at h
    obtain ⟨b, h⟩ := h
    cases h
    exact ⟨q, rfl⟩
  | error e q =>
    simp only [hrun, reduceCtorEq, exists_false, false_or] at h
    obtain ⟨e', h⟩ := h
    cases h
    exact ⟨q, rfl⟩

end Execution
