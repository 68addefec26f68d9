import Mathlib.Data.List.Infix
import Mathlib.Data.List.Induction

/-!
# Runs of a transition system

A system steps from a state by an event, when the event is possible there. `run` takes a whole
sequence of events, `Along` says that each step of a run meets a condition on the state it is
taken in, `outputs` puts together what the steps put out, and `run_invariant` is the induction over
runs. Steps that lower a measure come to rest: `exists_run_to_rest`.
-/

namespace Transition

variable {σ ε : Type} {step : σ → ε → Option σ} {s t : σ} {events : List ε} {e : ε}

/-! The numerals of the small index types in examples of runs. -/

instance neZeroOne : @NeZero ℕ Zero.ofOfNat0 1 := ⟨by decide⟩
instance neZeroTwo : @NeZero ℕ Zero.ofOfNat0 2 := ⟨by decide⟩
instance neZeroThree : @NeZero ℕ Zero.ofOfNat0 3 := ⟨by decide⟩
instance neZeroFour : @NeZero ℕ Zero.ofOfNat0 4 := ⟨by decide⟩

/-- The state after a sequence of events. -/
def run (step : σ → ε → Option σ) (s : σ) (events : List ε) : Option σ := events.foldlM step s

@[simp] theorem run_nil : run step s [] = some s := rfl

@[simp] theorem run_cons : run step s (e :: events) = (step s e).bind (run step · events) := by
  rw [run, List.foldlM_cons]
  rfl

theorem run_concat : run step s (events ++ [e]) = (run step s events).bind (step · e) := by
  simp [run, List.foldlM_append]

theorem run_append {events' : List ε} :
    run step s (events ++ events') = (run step s events).bind (run step · events') := by
  rw [run, List.foldlM_append]
  rfl

/-- Each step of the run from `s` is taken in a state that meets the condition. -/
def Along (step : σ → ε → Option σ) (ok : σ → ε → Prop) (s : σ) (events : List ε) : Prop :=
  ∀ pre e, pre ++ [e] <+: events → ∀ t, run step s pre = some t → ok t e

variable {ok : σ → ε → Prop}

theorem along_nil : Along step ok s [] := fun pre e hpre => by simp at hpre

theorem along_concat :
    Along step ok s (events ++ [e]) ↔
      Along step ok s events ∧ ∀ t, run step s events = some t → ok t e := by
  constructor
  · intro h
    exact ⟨fun pre e' hpre => h pre e' (hpre.trans (List.prefix_append _ _)),
      h events e List.prefix_rfl⟩
  · rintro ⟨h, hlast⟩ pre e' hpre t ht
    rcases List.prefix_concat_iff.1 hpre with heq | hlt
    · obtain ⟨rfl, hee⟩ := List.append_inj' heq rfl
      obtain rfl : e' = e := by simpa using hee
      exact hlast t ht
    · exact h pre e' hlt t ht

theorem along_cons :
    Along step ok s (e :: events) ↔ ok s e ∧ ∀ t, step s e = some t → Along step ok t events := by
  constructor
  · intro h
    refine ⟨h [] e ⟨events, rfl⟩ s rfl, fun t ht pre e' hpre u hu => ?_⟩
    refine h (e :: pre) e' (List.cons_prefix_cons.2 ⟨rfl, hpre⟩) u ?_
    rw [run_cons, ht, Option.bind_some, hu]
  · rintro ⟨he, h⟩ pre e' hpre u hu
    cases pre with
    | nil =>
      obtain ⟨rfl, -⟩ := List.cons_prefix_cons.1 hpre
      obtain rfl : s = u := by simpa using hu
      exact he
    | cons d pre =>
      obtain ⟨rfl, hpre'⟩ := List.cons_prefix_cons.1 hpre
      rw [run_cons, Option.bind_eq_some_iff] at hu
      obtain ⟨t, ht, hu⟩ := hu
      exact h t ht pre e' hpre' u hu

theorem Along.mono {ok' : σ → ε → Prop} (h : Along step ok s events)
    (himp : ∀ s e, ok s e → ok' s e) : Along step ok' s events :=
  fun pre e hpre t ht => himp t e (h pre e hpre t ht)

theorem Along.and {ok' : σ → ε → Prop} (h : Along step ok s events)
    (h' : Along step ok' s events) : Along step (fun s e => ok s e ∧ ok' s e) s events :=
  fun pre e hpre t ht => ⟨h pre e hpre t ht, h' pre e hpre t ht⟩

theorem along_of_forall {kind : ε → Prop} (h : ∀ e ∈ events, kind e) :
    Along step (fun _ => kind) s events :=
  fun _ e hpre _ _ => h e (hpre.subset (List.mem_append_right _ (List.mem_singleton.2 rfl)))

instance decidableAlong [∀ s e, Decidable (ok s e)] :
    ∀ (s : σ) (events : List ε), Decidable (Along step ok s events)
  | _, [] => isTrue along_nil
  | s, e :: events =>
    match hstep : step s e with
    | none => decidable_of_iff (ok s e) (by simp [along_cons, hstep])
    | some t =>
      have : Decidable (Along step ok t events) := decidableAlong t events
      decidable_of_iff (ok s e ∧ Along step ok t events) (by simp [along_cons, hstep])

/-- What the events of a run put out, in order. -/
def outputs {β : Type} (step : σ → ε → Option σ) (out : σ → ε → List β) : σ → List ε → List β
  | _, [] => []
  | s, e :: events =>
    out s e ++ match step s e with
      | none => []
      | some t => outputs step out t events

theorem outputs_concat {β : Type} {out : σ → ε → List β} (hrun : run step s events = some t) :
    outputs step out s (events ++ [e]) = outputs step out s events ++ out t e := by
  induction events generalizing s with
  | nil =>
    obtain rfl : s = t := by simpa using hrun
    cases hstep : step s e <;> simp [outputs, hstep]
  | cons d events ih =>
    rw [run_cons, Option.bind_eq_some_iff] at hrun
    obtain ⟨u, hu, hrun⟩ := hrun
    simp only [List.cons_append, outputs, hu, ih hrun, List.append_assoc]

/-- What holds before the run, and what every step meeting the condition keeps of the run so far,
holds of the whole run. -/
theorem run_history (inv : List ε → σ → Prop) (hinit : inv [] s)
    (hstep : ∀ events t e t', run step s events = some t → inv events t → ok t e →
      step t e = some t' → inv (events ++ [e]) t')
    (hok : Along step ok s events) (hrun : run step s events = some t) : inv events t := by
  induction events using List.reverseRecOn generalizing t with
  | nil =>
    obtain rfl : s = t := by simpa using hrun
    exact hinit
  | append_singleton events e ih =>
    obtain ⟨hok, hlast⟩ := along_concat.1 hok
    rw [run_concat, Option.bind_eq_some_iff] at hrun
    obtain ⟨t', ht', hstep'⟩ := hrun
    exact hstep events t' e t ht' (ih hok ht') (hlast t' ht') hstep'

/-- **An invariant that every step meeting the condition keeps holds after the run.** -/
theorem run_invariant (inv : σ → Prop)
    (hstep : ∀ s e s', inv s → ok s e → step s e = some s' → inv s') (hinit : inv s)
    (hok : Along step ok s events) (hrun : run step s events = some t) : inv t :=
  run_history (fun _ => inv) hinit (fun _ t e t' _ => hstep t e t') hok hrun

/-- What every step keeps of the run so far holds of the whole run. -/
theorem run_record (inv : List ε → σ → Prop) (hinit : inv [] s)
    (hstep : ∀ events t e t', inv events t → step t e = some t' → inv (events ++ [e]) t')
    (hrun : run step s events = some t) : inv events t :=
  @run_history _ _ step s t events (fun _ _ => True) inv hinit
    (fun events t e t' _ h _ => hstep events t e t' h) (fun _ _ _ _ _ => trivial) hrun

/-- An invariant that every step keeps holds after the run. -/
theorem run_keeps (inv : σ → Prop) (hstep : ∀ s e s', inv s → step s e = some s' → inv s')
    (hinit : inv s) (hrun : run step s events = some t) : inv t :=
  run_record (fun _ => inv) hinit (fun _ => hstep) hrun

/-! ### Measures -/

/-- Steps that lower a measure where they meet the condition: a run of them is no longer than the
measure. -/
theorem length_le_of_lowers_along (inv : σ → Prop) (measure : σ → ℕ)
    (hinv : ∀ s e s', inv s → ok s e → step s e = some s' → inv s')
    (hlower : ∀ s e s', inv s → ok s e → step s e = some s' → measure s' < measure s)
    (hs : inv s) (hok : Along step ok s events) (hrun : run step s events = some t) :
    events.length ≤ measure s := by
  induction events generalizing s with
  | nil => exact Nat.zero_le _
  | cons e events ih =>
    obtain ⟨he, hok⟩ := along_cons.1 hok
    rw [run_cons, Option.bind_eq_some_iff] at hrun
    obtain ⟨u, hu, hrun⟩ := hrun
    have hrest := ih (hinv s e u hs he hu) (hok u hu) hrun
    have hlt := hlower s e u hs he hu
    rw [List.length_cons]
    omega

/-- Steps of a kind that lower a measure: a run of them is no longer than the measure. -/
theorem length_le_of_lowers (inv : σ → Prop) (measure : σ → ℕ) {kind : ε → Prop}
    (hinv : ∀ s e s', inv s → step s e = some s' → inv s')
    (hlower : ∀ s e s', inv s → kind e → step s e = some s' → measure s' < measure s)
    (hs : inv s) (hkind : ∀ e ∈ events, kind e) (hrun : run step s events = some t) :
    events.length ≤ measure s :=
  length_le_of_lowers_along inv measure (fun s e s' h _ => hinv s e s' h) hlower hs
    (along_of_forall hkind) hrun

/-- Steps of a kind that lower a measure lead to a state where none of them is possible. -/
theorem exists_run_to_rest (inv : σ → Prop) (measure : σ → ℕ) {kind : ε → Prop}
    (hinv : ∀ s e s', inv s → step s e = some s' → inv s')
    (hlower : ∀ s e s', inv s → kind e → step s e = some s' → measure s' < measure s)
    (hs : inv s) : ∃ events t, (∀ e ∈ events, kind e) ∧ run step s events = some t ∧
      ∀ e, kind e → step t e = none := by
  induction hn : measure s using Nat.strong_induction_on generalizing s with
  | h n ih =>
    by_cases hrest : ∀ e, kind e → step s e = none
    · exact ⟨[], s, fun e he => absurd he List.not_mem_nil, rfl, hrest⟩
    · push Not at hrest
      obtain ⟨e, he, hne⟩ := hrest
      obtain ⟨u, hu⟩ := Option.ne_none_iff_exists'.1 hne
      have hlt := hlower s e u hs he hu
      obtain ⟨events, t, hkind, hrun, hlast⟩ := ih _ (hn ▸ hlt) (hinv s e u hs hu) rfl
      refine ⟨e :: events, t, fun d hd => ?_, by rw [run_cons, hu, Option.bind_some, hrun], hlast⟩
      rcases List.mem_cons.1 hd with rfl | hd
      · exact he
      · exact hkind d hd

end Transition
