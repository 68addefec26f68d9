import Mathlib.Data.List.Basic
import Mathlib.Logic.Function.Basic

/-!
# Processes that share a resource

Processes take steps in turn; a step changes the state of its process, and may use a resource that
all of them share. `Use` tells how: the step does not use the resource, it sets it whatever it was
before, it looks at it, or it moves it on from where it was.

A process does the same as alone as long as no step looks at the resource, or moves it on, when another
process has set or moved it last.
-/

namespace Interleaving

variable {ι E S R : Type*} [DecidableEq ι]

inductive Use
  | none
  | sets
  | looks
  | moves
deriving DecidableEq

/-- The resource is left as it was. -/
def Use.Keeps : Use → Prop
  | none | looks => True
  | sets | moves => False

/-- What the step does depends on the resource. -/
def Use.Depends : Use → Prop
  | looks | moves => True
  | none | sets => False

instance : DecidablePred Use.Keeps
  | .none | .looks => isTrue trivial
  | .sets | .moves => isFalse id

instance : DecidablePred Use.Depends
  | .looks | .moves => isTrue trivial
  | .none | .sets => isFalse id

/-- What steps do, and how they use the resource; no step changes it but among those that are
`same`. -/
structure Sharing (ι E S R : Type*) where
  owner : E → ι
  step : E → S → R → S × R
  use : E → S → Use
  same : R → R → Prop
  equivalence : Equivalence same
  step_same (e : E) (s : S) (r : R) : same r (step e s r).2
  step_keeps (e : E) (s : S) (r : R) (h : (use e s).Keeps) : (step e s r).2 = r
  step_none (e : E) (s : S) (r r' : R) (h : use e s = .none) : (step e s r').1 = (step e s r).1
  step_sets (e : E) (s : S) (r r' : R) (h : use e s = .sets) (hr : same r r') :
    step e s r' = step e s r

/-- The states of the processes, the resource, and the process that set or moved it last. -/
structure State (ι S R : Type*) where
  process : ι → S
  shared : R
  user : Option ι

namespace Sharing

variable (M : Sharing ι E S R)

def next (σ : State ι S R) (e : E) : State ι S R where
  process := Function.update σ.process (M.owner e)
    (M.step e (σ.process (M.owner e)) σ.shared).1
  shared := (M.step e (σ.process (M.owner e)) σ.shared).2
  user := if (M.use e (σ.process (M.owner e))).Keeps then σ.user else some (M.owner e)

/-- The steps of the processes, in the order in which they are taken. -/
def run (σ : State ι S R) (events : List E) : State ι S R := events.foldl M.next σ

/-- The step does not depend on what another process left of the resource. -/
def Own (σ : State ι S R) (e : E) : Prop :=
  (M.use e (σ.process (M.owner e))).Depends → ∀ c ∈ σ.user, c = M.owner e

/-- No step of the run does. -/
def OwnRun : State ι S R → List E → Prop
  | _, [] => True
  | σ, e :: events => M.Own σ e ∧ OwnRun (M.next σ e) events

instance decidableOwnRun : ∀ (σ : State ι S R) (events : List E), Decidable (M.OwnRun σ events)
  | _, [] => isTrue trivial
  | σ, e :: events =>
    have : Decidable (M.OwnRun (M.next σ e) events) := decidableOwnRun (M.next σ e) events
    inferInstanceAs (Decidable (((M.use e (σ.process (M.owner e))).Depends →
      ∀ c ∈ σ.user, c = M.owner e) ∧ M.OwnRun (M.next σ e) events))

/-- What a run and the steps that `c` takes in it have in common. -/
structure Agrees (c : ι) (σ τ : State ι S R) : Prop where
  process : σ.process c = τ.process c
  same : M.same σ.shared τ.shared
  shared : (∀ d ∈ σ.user, d = c) → σ.shared = τ.shared

variable {M} {c : ι} {σ τ : State ι S R} {e : E} {events : List E}

omit [DecidableEq ι] in
theorem Agrees.refl : M.Agrees c σ σ := ⟨rfl, M.equivalence.refl _, fun _ => rfl⟩

/-- A step of another process. -/
theorem Agrees.next_other (h : M.Agrees c σ τ) (hc : M.owner e ≠ c) : M.Agrees c (M.next σ e) τ := by
  refine ⟨?_, ?_, fun huser => ?_⟩
  · exact (Function.update_of_ne (Ne.symm hc) ..).trans h.process
  · exact M.equivalence.trans (M.equivalence.symm (M.step_same e _ _)) h.same
  · unfold next at huser ⊢
    simp only at huser ⊢
    split_ifs at huser with hkeeps
    · rw [M.step_keeps e _ _ hkeeps]
      exact h.shared huser
    · exact absurd (huser _ rfl) hc

/-- A step of the process, which is to be its own. -/
theorem Agrees.next_own (h : M.Agrees c σ τ) (hc : M.owner e = c) (hown : M.Own σ e) :
    M.Agrees c (M.next σ e) (M.next τ e) := by
  subst hc
  have hprocess := h.process
  have hsame : M.same (M.next σ e).shared (M.next τ e).shared := by
    refine M.equivalence.trans (M.equivalence.symm (M.step_same e _ _)) ?_
    exact M.equivalence.trans h.same (M.step_same e _ _)
  -- where the two steps are the same, so are the states behind them
  have hstep : M.step e (τ.process (M.owner e)) τ.shared =
      M.step e (σ.process (M.owner e)) σ.shared → M.Agrees (M.owner e) (M.next σ e) (M.next τ e) := by
    intro hstep
    refine ⟨?_, hsame, fun _ => (congrArg Prod.snd hstep).symm⟩
    unfold next
    simp only [Function.update_self]
    exact (congrArg Prod.fst hstep).symm
  have hdepends : (M.use e (σ.process (M.owner e))).Depends →
      M.Agrees (M.owner e) (M.next σ e) (M.next τ e) := by
    intro huse
    refine hstep ?_
    rw [← hprocess, h.shared (hown huse)]
  cases huse : M.use e (σ.process (M.owner e)) with
  | none =>
    have hkeeps : (M.use e (σ.process (M.owner e))).Keeps := by
      rw [huse]
      trivial
    refine ⟨?_, hsame, fun huser => ?_⟩
    · unfold next
      simp only [Function.update_self]
      rw [← hprocess]
      exact M.step_none e _ τ.shared σ.shared huse
    · unfold next at huser ⊢
      simp only [if_pos hkeeps] at huser ⊢
      rw [← hprocess, M.step_keeps e _ _ hkeeps, M.step_keeps e _ _ hkeeps]
      exact h.shared huser
  | sets =>
    refine hstep ?_
    rw [← hprocess]
    exact M.step_sets e _ σ.shared τ.shared huse h.same
  | looks =>
    exact hdepends (by rw [huse]; trivial)
  | moves =>
    exact hdepends (by rw [huse]; trivial)

theorem Agrees.run (h : M.Agrees c σ τ) (hown : M.OwnRun σ events) :
    M.Agrees c (M.run σ events) (M.run τ (events.filter (M.owner · = c))) := by
  induction events generalizing σ τ with
  | nil => exact h
  | cons e events ih =>
    obtain ⟨hstep, hrest⟩ := hown
    by_cases hc : M.owner e = c
    · rw [List.filter_cons_of_pos (by simpa using hc)]
      exact ih (h.next_own hc hstep) hrest
    · rw [List.filter_cons_of_neg (by simpa using hc)]
      exact ih (h.next_other hc) hrest

/-- **A process does the same as alone when no step of the run depends on what another process left of
the resource.** -/
theorem run_alone (hown : M.OwnRun σ events) (c : ι) :
    (M.run σ events).process c = (M.run σ (events.filter (M.owner · = c))).process c :=
  (Agrees.refl.run hown).process

end Sharing

end Interleaving
