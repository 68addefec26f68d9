import InsenseCVM.Lib.Execution

/-!
# Programs that come to an end

A loop that is given a number of rounds stops with a fault of its own when they run out. `Halts`
says that some number of rounds is enough. Where a program is put together of others, the fault
comes out of one of them: `Reaches` says from where the program comes to run it.
-/

namespace Execution

variable {ε σ α β γ : Type} {e e' : ε} {m : EStateM ε σ α} {p : EStateM ε σ β}
  {f : α → EStateM ε σ γ} {s t u : σ}

/-- With some number of rounds the program does not run out of them. -/
def Halts (endless : ε) (m : ℕ → EStateM ε σ α) (s : σ) : Prop :=
  ∃ rounds, ∀ t, ¬ Throws (m rounds) s endless t

/-- Run from `s`, the program comes to run `p` from `t`. -/
inductive Reaches (p : EStateM ε σ β) : {α : Type} → EStateM ε σ α → σ → σ → Prop
  | self {s : σ} : Reaches p p s s
  | first {α γ : Type} {m : EStateM ε σ α} {f : α → EStateM ε σ γ} {s t : σ}
      (h : Reaches p m s t) : Reaches p (m >>= f) s t
  | later {α γ : Type} {m : EStateM ε σ α} {f : α → EStateM ε σ γ} {a : α} {s t u : σ}
      (before : Returns m s a u) (h : Reaches p (f a) u t) : Reaches p (m >>= f) s t

/-- What stops a part stops the program. -/
theorem Reaches.throws (h : Reaches p m s t) (hp : Throws p t e u) : Throws m s e u := by
  induction h with
  | self => exact hp
  | first _ ih => exact (ih hp).bind
  | later before _ ih => exact throws_bind.2 (.inr ⟨_, _, before, ih hp⟩)

/-- Where the program stops with the fault, it is `p` that stops with it. -/
def OnlyFrom (p : EStateM ε σ β) (e : ε) (m : EStateM ε σ α) : Prop :=
  ∀ s u, Throws m s e u → ∃ t, Reaches p m s t ∧ Throws p t e u

theorem OnlyFrom.self : OnlyFrom p e p := fun s _ h => ⟨s, .self, h⟩

theorem OnlyFrom.of_never (h : ∀ s u, ¬ Throws m s e u) : OnlyFrom p e m :=
  fun s u hm => absurd hm (h s u)

theorem OnlyFrom.pure {a : α} : OnlyFrom p e (pure a : EStateM ε σ α) :=
  .of_never fun _ _ h => nomatch h

theorem OnlyFrom.bind (hm : OnlyFrom p e m) (hf : ∀ a, OnlyFrom p e (f a)) :
    OnlyFrom p e (m >>= f) := by
  intro s u h
  rcases throws_bind.1 h with h | ⟨a, v, ha, h⟩
  · obtain ⟨t, ht, hp⟩ := hm s u h
    exact ⟨t, .first ht, hp⟩
  · obtain ⟨t, ht, hp⟩ := hf a v u h
    exact ⟨t, .later ha ht, hp⟩

theorem OnlyFrom.times {body : EStateM ε σ Unit} {n : ℕ} (h : OnlyFrom p e body) :
    OnlyFrom p e (times n body) := by
  induction n with
  | zero => exact OnlyFrom.pure
  | succ n ih => exact h.bind fun _ => ih

/-- Behind a part that returns, a program stops where the rest of it does. -/
theorem Returns.throws_bind {a : α} (h : Returns m s a u) :
    Throws (m >>= f) s e t ↔ Throws (f a) u e t := by
  unfold Throws
  rw [h.run_bind]

theorem returns_or_throws (m : EStateM ε σ α) (s : σ) :
    (∃ a t, Returns m s a t) ∨ ∃ e t, Throws m s e t := by
  unfold Returns Throws
  cases m s with
  | ok a t => exact .inl ⟨a, t, rfl⟩
  | error e t => exact .inr ⟨e, t, rfl⟩

/-- A loop whose body does not stop with a fault stops with its own only. -/
theorem iterate_fault {endless : ε} {body : β → EStateM ε σ (β ⊕ α)} {rounds : ℕ} {b : β}
    (hbody : ∀ b s e t, ¬ Throws (body b) s e t)
    (h : Throws (iterate endless body rounds b) s e t) : e = endless := by
  induction rounds generalizing b s with
  | zero => exact (throws_throw.1 h).1
  | succ n ih =>
    rcases throws_bind.1 h with h | ⟨next, u, -, h⟩
    · exact absurd h (hbody b s e t)
    · cases next with
      | inl b' => exact ih h
      | inr a => cases h

end Execution
