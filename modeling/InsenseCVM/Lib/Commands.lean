import Mathlib.Order.Basic
import Mathlib.Data.Nat.Basic

/-!
# Commands

Actions and tests on a state, put together by sequence, choice and loops, and an instruction that
stops everything. `does` and `finds` say what an action makes of a state and what a test finds there,
where they are defined. `Ends` is the big-step meaning; a command that has no end is stuck or runs
for ever.

`Triple P c Q R` is total correctness: from a state with `P` the command ends, in a state with `Q`
when it comes to its end and with `R` when it was stopped.
-/

namespace Commands

variable {A B σ : Type}

inductive Command (A B : Type)
  | skip
  | stop
  | act (a : A)
  | seq (first second : Command A B)
  | ifThen (test : B) (branch : Command A B)
  | ifThenElse (test : B) (branch elseBranch : Command A B)
  | loop (test : B) (body : Command A B)
  | forever (body : Command A B)

/-- Several commands one after the other. -/
def Command.block : List (Command A B) → Command A B
  | [] => .skip
  | c :: cs => .seq c (Command.block cs)

section Meaning

variable (does : A → σ → Option σ) (finds : B → σ → Option Bool)

/-- The command ends in the last state; the truth value says that it was stopped. -/
inductive Ends : Command A B → σ → Bool → σ → Prop
  | skip {s : σ} : Ends .skip s false s
  | stop {s : σ} : Ends .stop s true s
  | act {a : A} {s t : σ} (h : does a s = some t) : Ends (.act a) s false t
  | seq {c d : Command A B} {s t u : σ} {stopped : Bool} (first : Ends c s false u)
      (second : Ends d u stopped t) : Ends (.seq c d) s stopped t
  | seq_stopped {c d : Command A B} {s t : σ} (first : Ends c s true t) :
      Ends (.seq c d) s true t
  | ifThen_true {b : B} {c : Command A B} {s t : σ} {stopped : Bool}
      (h : finds b s = some true) (branch : Ends c s stopped t) : Ends (.ifThen b c) s stopped t
  | ifThen_false {b : B} {c : Command A B} {s : σ} (h : finds b s = some false) :
      Ends (.ifThen b c) s false s
  | ifThenElse_true {b : B} {c d : Command A B} {s t : σ} {stopped : Bool}
      (h : finds b s = some true) (branch : Ends c s stopped t) :
      Ends (.ifThenElse b c d) s stopped t
  | ifThenElse_false {b : B} {c d : Command A B} {s t : σ} {stopped : Bool}
      (h : finds b s = some false) (branch : Ends d s stopped t) :
      Ends (.ifThenElse b c d) s stopped t
  | loop_done {b : B} {c : Command A B} {s : σ} (h : finds b s = some false) :
      Ends (.loop b c) s false s
  | loop_again {b : B} {c : Command A B} {s t u : σ} {stopped : Bool}
      (h : finds b s = some true) (body : Ends c s false u)
      (again : Ends (.loop b c) u stopped t) : Ends (.loop b c) s stopped t
  | loop_stopped {b : B} {c : Command A B} {s t : σ} (h : finds b s = some true)
      (body : Ends c s true t) : Ends (.loop b c) s true t
  | forever_again {c : Command A B} {s t u : σ} (body : Ends c s false u)
      (again : Ends (.forever c) u true t) : Ends (.forever c) s true t
  | forever_stopped {c : Command A B} {s t : σ} (body : Ends c s true t) :
      Ends (.forever c) s true t

/-- Total correctness. -/
def Triple (P : σ → Prop) (c : Command A B) (Q R : σ → Prop) : Prop :=
  ∀ s, P s → ∃ stopped t, Ends does finds c s stopped t ∧ (stopped = false → Q t) ∧
    (stopped = true → R t)

end Meaning

variable {does : A → σ → Option σ} {finds : B → σ → Option Bool} {c d : Command A B} {b : B}
  {P Q Q' R : σ → Prop}

/-! ### Rules -/

theorem Triple.skip : Triple does finds P .skip P R := fun s hs =>
  ⟨false, s, .skip, fun _ => hs, fun h => absurd h Bool.false_ne_true⟩

theorem Triple.act {a : A} (h : ∀ s, P s → ∃ t, does a s = some t ∧ Q t) :
    Triple does finds P (.act a) Q R := fun s hs => by
  obtain ⟨t, ht, hq⟩ := h s hs
  exact ⟨false, t, .act ht, fun _ => hq, fun h => absurd h Bool.false_ne_true⟩

theorem Triple.seq (hc : Triple does finds P c Q R) (hd : Triple does finds Q d Q' R) :
    Triple does finds P (.seq c d) Q' R := fun s hs => by
  obtain ⟨stopped, u, hc, hq, hr⟩ := hc s hs
  cases stopped with
  | true => exact ⟨true, u, .seq_stopped hc, fun h => absurd h.symm Bool.false_ne_true, hr⟩
  | false =>
    obtain ⟨stopped, t, hd, hq', hr'⟩ := hd u (hq rfl)
    exact ⟨stopped, t, .seq hc hd, hq', hr'⟩

/-- A loop with an invariant for every number of rounds that are left at most. -/
theorem Triple.loop {inv : ℕ → σ → Prop}
    (htest : ∀ n s, inv n s → finds b s = some false ∧ Q s ∨ finds b s = some true)
    (hbody : ∀ n, Triple does finds (fun s => inv n s ∧ finds b s = some true) c
      (fun s => ∃ m < n, inv m s) R) (n : ℕ) : Triple does finds (inv n) (.loop b c) Q R := by
  induction n using Nat.strong_induction_on with
  | h n ih =>
    intro s hs
    rcases htest n s hs with ⟨hfalse, hq⟩ | htrue
    · exact ⟨false, s, .loop_done hfalse, fun _ => hq, fun h => absurd h Bool.false_ne_true⟩
    · obtain ⟨stopped, u, hc, hq, hr⟩ := hbody n s ⟨hs, htrue⟩
      cases stopped with
      | true =>
        exact ⟨true, u, .loop_stopped htrue hc, fun h => absurd h.symm Bool.false_ne_true, hr⟩
      | false =>
        obtain ⟨m, hm, hinv⟩ := hq rfl
        obtain ⟨stopped, t, hagain, hq', hr'⟩ := ih m hm u hinv
        exact ⟨stopped, t, .loop_again htrue hc hagain, hq', hr'⟩

end Commands
