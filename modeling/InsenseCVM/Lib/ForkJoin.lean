import InsenseCVM.Lib.Transition
import Mathlib.Algebra.BigOperators.Group.Finset.Basic
import Mathlib.Algebra.Order.BigOperators.Group.Finset
import Mathlib.Data.Finset.Max
import Mathlib.Logic.Relation

/-!
# Threads that join the threads they start

A thread runs and starts other threads; then it leaves its work and, before it ends, joins each of
the threads that it has started, the last one first. Threads carry an order in which a new thread
comes behind those there are. In every interleaving a thread that has ended has none left that it
has started (`ended_of_started`), each thread is joined by the one that started it and no other, and
once (`count_join_add_pending`), and threads that have left their work never wait for each other
(`Joinable.exists_step`), while every step lowers their effort (`Joinable.effort_lt`).
-/

namespace ForkJoin
open Transition

/-- Where a thread is, and the threads that it has still to join, the last one first. -/
inductive Phase (T : Type)
  | running (children : List T)
  | leaving (children : List T)
  | joining (child : T) (children : List T)
  | ended
  deriving DecidableEq

/-- The threads that have been started, and where each of them is. -/
structure State (T : Type) where
  started : Finset T
  phase : T → Phase T

inductive Event (T : Type)
  | start (thread child : T)
  | leave (thread : T)
  | take (thread : T)
  | join (thread child : T)
  | finish (thread : T)
  deriving DecidableEq

variable {T : Type}

/-- The threads that it has still to join. -/
def Phase.pending : Phase T → List T
  | .running children => children
  | .leaving children => children
  | .joining child children => child :: children
  | .ended => []

/-- The steps that it takes a thread to end, its last step of work included. -/
def Phase.effort : Phase T → ℕ
  | .running children => 2 * children.length + 2
  | .leaving children => 2 * children.length + 1
  | .joining _ children => 2 * children.length + 2
  | .ended => 0

/-- The thread is at its work. -/
def Phase.IsRunning (p : Phase T) : Prop := ∃ children, p = .running children

/-- The event is no step of a thread at its work. -/
def Event.IsLast : Event T → Prop
  | .start _ _ | .leave _ => False
  | .take _ | .join _ _ | .finish _ => True

variable [LinearOrder T]

/-- At first there is only the thread `root`. -/
def init (root : T) : State T := ⟨{root}, fun _ => .running []⟩

/-- A thread passes to another phase. -/
def State.set (s : State T) (t : T) (p : Phase T) : State T :=
  { s with phase := Function.update s.phase t p }

def step (s : State T) : Event T → Option (State T)
  | .start t child =>
    match s.phase t with
    | .running children =>
      if t ∈ s.started ∧ ∀ u ∈ s.started, u < child then
        some ((State.mk (insert child s.started) s.phase).set t (.running (child :: children)))
      else none
    | _ => none
  | .leave t =>
    match s.phase t with
    | .running children => if t ∈ s.started then some (s.set t (.leaving children)) else none
    | _ => none
  | .take t =>
    match s.phase t with
    | .leaving (child :: children) => some (s.set t (.joining child children))
    | _ => none
  | .join t child =>
    match s.phase t with
    | .joining child' children =>
      if child' = child ∧ s.phase child = .ended then some (s.set t (.leaving children)) else none
    | _ => none
  | .finish t =>
    match s.phase t with
    | .leaving [] => some (s.set t .ended)
    | _ => none

/-- What a step needs, and what it leaves. -/
inductive Step (s : State T) : Event T → State T → Prop
  | start {t child : T} {children : List T} (ht : t ∈ s.started)
      (hphase : s.phase t = .running children) (hnew : ∀ u ∈ s.started, u < child) :
      Step s (.start t child)
        ((State.mk (insert child s.started) s.phase).set t (.running (child :: children)))
  | leave {t : T} {children : List T} (ht : t ∈ s.started)
      (hphase : s.phase t = .running children) : Step s (.leave t) (s.set t (.leaving children))
  | take {t child : T} {children : List T} (hphase : s.phase t = .leaving (child :: children)) :
      Step s (.take t) (s.set t (.joining child children))
  | join {t child : T} {children : List T} (hphase : s.phase t = .joining child children)
      (hended : s.phase child = .ended) : Step s (.join t child) (s.set t (.leaving children))
  | finish {t : T} (hphase : s.phase t = .leaving []) : Step s (.finish t) (s.set t .ended)

variable {s s' : State T} {e : Event T} {events : List (Event T)} {root t u c : T}

theorem step_iff : step s e = some s' ↔ Step s e s' := by
  constructor
  · intro h
    cases e with
    | start t child =>
      simp only [step] at h
      split at h
      · next children hphase =>
        split_ifs at h with hif
        cases h
        exact .start hif.1 hphase hif.2
      · cases h
    | leave t =>
      simp only [step] at h
      split at h
      · next children hphase =>
        split_ifs at h with hif
        cases h
        exact .leave hif hphase
      · cases h
    | take t =>
      simp only [step] at h
      split at h
      · next child children hphase =>
        cases h
        exact .take hphase
      · cases h
    | join t child =>
      simp only [step] at h
      split at h
      · next child' children hphase =>
        split_ifs at h with hif
        obtain ⟨rfl, hended⟩ := hif
        cases h
        exact .join hphase hended
      · cases h
    | finish t =>
      simp only [step] at h
      split at h
      · next hphase =>
        cases h
        exact .finish hphase
      · cases h
  · intro h
    cases h with
    | start ht hphase hnew => simp only [step, hphase, if_pos (And.intro ht hnew)]
    | leave ht hphase => simp only [step, hphase, if_pos ht]
    | take hphase => simp only [step, hphase]
    | join hphase hended =>
      simp only [step, hphase]
      exact if_pos ⟨trivial, hended⟩
    | finish hphase => simp only [step, hphase]

@[simp] theorem State.set_phase_self {p : Phase T} : (s.set t p).phase t = p :=
  Function.update_self ..

theorem State.set_phase_ne {p : Phase T} (h : u ≠ t) : (s.set t p).phase u = s.phase u :=
  Function.update_of_ne h ..

/-! ### Who joins whom -/

/-- The threads pending are younger ones that have been started, each at one thread, and every
thread but the first is pending until it has ended. -/
structure Joinable (root : T) (s : State T) : Prop where
  rooted : root ∈ s.started
  least : ∀ t ∈ s.started, root ≤ t
  fresh : ∀ t, t ∉ s.started → s.phase t = .running []
  pending : ∀ t, ∀ c ∈ (s.phase t).pending, c ∈ s.started ∧ t < c
  unique : ∀ t u, ∀ c ∈ (s.phase t).pending, c ∈ (s.phase u).pending → t = u
  nodup : ∀ t, (s.phase t).pending.Nodup
  held : ∀ c ∈ s.started, c = root ∨ s.phase c = .ended ∨ ∃ t, c ∈ (s.phase t).pending

theorem joinable_init (root : T) : Joinable root (init root) where
  rooted := Finset.mem_singleton_self root
  least t ht := le_of_eq (Finset.mem_singleton.1 ht).symm
  fresh _ _ := rfl
  pending _ c hc := by cases hc
  unique _ _ c hc := by cases hc
  nodup _ := List.nodup_nil
  held c hc := .inl (Finset.mem_singleton.1 hc)

theorem Joinable.started_of_phase {p : Phase T} (h : Joinable root s) (hphase : s.phase t = p)
    (hp : p ≠ .running []) : t ∈ s.started := by
  by_contra ht
  exact hp (hphase.symm.trans (h.fresh t ht))

/-- A thread passes on with the same threads pending. -/
theorem Joinable.set {p : Phase T} (h : Joinable root s) (ht : t ∈ s.started)
    (hpending : p.pending = (s.phase t).pending) (hended : s.phase t ≠ .ended) :
    Joinable root (s.set t p) := by
  have hall : ∀ u, ((s.set t p).phase u).pending = (s.phase u).pending := by
    intro u
    by_cases hu : u = t
    · subst hu
      rw [State.set_phase_self, hpending]
    · rw [State.set_phase_ne hu]
  refine ⟨h.rooted, h.least, fun u hu => ?_, fun u c hc => ?_, fun u v c hc hc' => ?_, fun u => ?_,
    fun c hc => ?_⟩
  · have hne : u ≠ t := by
      rintro rfl
      exact hu ht
    rw [State.set_phase_ne hne]
    exact h.fresh u hu
  · rw [hall] at hc
    exact h.pending u c hc
  · rw [hall] at hc hc'
    exact h.unique u v c hc hc'
  · rw [hall]
    exact h.nodup u
  · rcases h.held c hc with hroot | hended' | ⟨u, hu⟩
    · exact .inl hroot
    · have hne : c ≠ t := fun heq => hended (heq ▸ hended')
      exact .inr (.inl ((State.set_phase_ne hne).trans hended'))
    · exact .inr (.inr ⟨u, (hall u).symm ▸ hu⟩)

theorem Joinable.start {child : T} {children : List T} (h : Joinable root s) (ht : t ∈ s.started)
    (hphase : s.phase t = .running children) (hnew : ∀ u ∈ s.started, u < child) :
    Joinable root
      ((State.mk (insert child s.started) s.phase).set t (.running (child :: children))) := by
  have hchild : child ∉ s.started := fun hmem => lt_irrefl child (hnew child hmem)
  have hnone : ∀ u, child ∉ (s.phase u).pending := fun u hu => hchild (h.pending u child hu).1
  have hold : (s.phase t).pending = children := by
    rw [hphase]
    rfl
  -- what is pending at a thread afterwards
  have hcases : ∀ u c, c ∈ (((State.mk (insert child s.started) s.phase).set t
      (.running (child :: children))).phase u).pending →
      (u = t ∧ c = child) ∨ c ∈ (s.phase u).pending := by
    intro u c hc
    by_cases hu : u = t
    · subst hu
      rw [State.set_phase_self] at hc
      rcases List.mem_cons.1 hc with rfl | hc
      · exact .inl ⟨rfl, rfl⟩
      · exact .inr (hold.symm ▸ hc)
    · rw [State.set_phase_ne hu] at hc
      exact .inr hc
  refine ⟨Finset.mem_insert_of_mem h.rooted, fun u hu => ?_, fun u hu => ?_, fun u c hc => ?_,
    fun u v c hc hc' => ?_, fun u => ?_, fun c hc => ?_⟩
  · rcases Finset.mem_insert.1 hu with rfl | hu
    · exact (hnew root h.rooted).le
    · exact h.least u hu
  · have hne : u ≠ t := fun heq => hu (Finset.mem_insert_of_mem (heq ▸ ht))
    rw [State.set_phase_ne hne]
    exact h.fresh u fun hmem => hu (Finset.mem_insert_of_mem hmem)
  · rcases hcases u c hc with ⟨rfl, rfl⟩ | hc
    · exact ⟨Finset.mem_insert_self _ _, hnew u ht⟩
    · exact ⟨Finset.mem_insert_of_mem (h.pending u c hc).1, (h.pending u c hc).2⟩
  · rcases hcases u c hc with ⟨rfl, rfl⟩ | hu
    · rcases hcases v c hc' with ⟨rfl, -⟩ | hv
      · rfl
      · exact absurd hv (hnone v)
    · rcases hcases v c hc' with ⟨rfl, rfl⟩ | hv
      · exact absurd hu (hnone u)
      · exact h.unique u v c hu hv
  · by_cases hu : u = t
    · subst hu
      rw [State.set_phase_self]
      exact List.nodup_cons.2 ⟨hold ▸ hnone u, hold ▸ h.nodup u⟩
    · rw [State.set_phase_ne hu]
      exact h.nodup u
  · have hkept : ∀ u, c ∈ (s.phase u).pending → c ∈ (((State.mk (insert child s.started)
        s.phase).set t (.running (child :: children))).phase u).pending := by
      intro u hu
      by_cases hut : u = t
      · subst hut
        rw [State.set_phase_self]
        exact List.mem_cons_of_mem _ (hold ▸ hu)
      · rwa [State.set_phase_ne hut]
    rcases Finset.mem_insert.1 hc with rfl | hc
    · refine .inr (.inr ⟨t, ?_⟩)
      rw [State.set_phase_self]
      exact List.mem_cons_self
    · rcases h.held c hc with hroot | hended | ⟨u, hu⟩
      · exact .inl hroot
      · have hne : c ≠ t := by
          rintro rfl
          rw [hphase] at hended
          cases hended
        exact .inr (.inl ((State.set_phase_ne hne).trans hended))
      · exact .inr (.inr ⟨u, hkept u hu⟩)

theorem Joinable.join {child : T} {children : List T} (h : Joinable root s)
    (hphase : s.phase t = .joining child children) (hended : s.phase child = .ended) :
    Joinable root (s.set t (.leaving children)) := by
  have ht : t ∈ s.started := h.started_of_phase hphase fun heq => by cases heq
  have hold : (s.phase t).pending = child :: children := by
    rw [hphase]
    rfl
  have hsub : ∀ u c, c ∈ ((s.set t (.leaving children)).phase u).pending →
      c ∈ (s.phase u).pending := by
    intro u c hc
    by_cases hu : u = t
    · subst hu
      rw [State.set_phase_self] at hc
      exact hold.symm ▸ List.mem_cons_of_mem _ hc
    · rwa [State.set_phase_ne hu] at hc
  refine ⟨h.rooted, h.least, fun u hu => ?_, fun u c hc => h.pending u c (hsub u c hc),
    fun u v c hc hc' => h.unique u v c (hsub u c hc) (hsub v c hc'), fun u => ?_, fun c hc => ?_⟩
  · have hne : u ≠ t := by
      rintro rfl
      exact hu ht
    rw [State.set_phase_ne hne]
    exact h.fresh u hu
  · by_cases hu : u = t
    · subst hu
      rw [State.set_phase_self]
      have hnodup := h.nodup u
      rw [hold] at hnodup
      exact (List.nodup_cons.1 hnodup).2
    · rw [State.set_phase_ne hu]
      exact h.nodup u
  · have hends : ∀ u, s.phase u = .ended → (s.set t (.leaving children)).phase u = .ended := by
      intro u hu
      have hne : u ≠ t := by
        rintro rfl
        rw [hphase] at hu
        cases hu
      exact (State.set_phase_ne hne).trans hu
    rcases h.held c hc with hroot | hc | ⟨u, hu⟩
    · exact .inl hroot
    · exact .inr (.inl (hends c hc))
    · by_cases hut : u = t
      · subst hut
        rw [hold] at hu
        rcases List.mem_cons.1 hu with rfl | hu
        · exact .inr (.inl (hends c hended))
        · refine .inr (.inr ⟨u, ?_⟩)
          rwa [State.set_phase_self]
      · refine .inr (.inr ⟨u, ?_⟩)
        rwa [State.set_phase_ne hut]

/-- **Every step keeps the threads joinable.** -/
theorem Joinable.step (h : Joinable root s) (hstep : Step s e s') : Joinable root s' := by
  cases hstep with
  | start ht hphase hnew => exact h.start ht hphase hnew
  | leave ht hphase =>
    refine h.set ht ?_ ?_
    · rw [hphase]
      rfl
    · simp [hphase]
  | take hphase =>
    refine h.set (h.started_of_phase hphase (by simp)) ?_ ?_
    · rw [hphase]
      rfl
    · simp [hphase]
  | join hphase hended => exact h.join hphase hended
  | finish hphase =>
    refine h.set (h.started_of_phase hphase (by simp)) ?_ ?_
    · rw [hphase]
      rfl
    · simp [hphase]

theorem joinable_run (hrun : run step (init root) events = some s) : Joinable root s :=
  run_keeps (Joinable root) (fun _ _ _ h hstep => h.step (step_iff.1 hstep)) (joinable_init root) hrun

/-! ### The history of a run -/

/-- A step joins what was pending, and starts what is then pending. -/
theorem Step.count (h : Step s e s') (t c : T) :
    [e].count (.join t c) + (s'.phase t).pending.count c =
      (s.phase t).pending.count c + [e].count (.start t c) := by
  have hother : ∀ {u : T} {p : Phase T} {started : Finset T}, t ≠ u →
      (((State.mk started s.phase).set u p).phase t).pending = (s.phase t).pending := by
    intro u p started hne
    rw [State.set_phase_ne hne]
  cases h with
  | @start u child children ht hphase hnew =>
    by_cases hu : t = u
    · subst hu
      by_cases hc : child = c
      · subst hc
        simp [hphase, Phase.pending]
      · simp [hphase, Phase.pending, hc]
    · rw [hother hu]
      simp [Ne.symm hu]
  | @leave u children ht hphase =>
    by_cases hu : t = u
    · subst hu
      simp [hphase, Phase.pending]
    · rw [State.set_phase_ne hu]
      simp
  | @take u child children hphase =>
    by_cases hu : t = u
    · subst hu
      simp [hphase, Phase.pending]
    · rw [State.set_phase_ne hu]
      simp
  | @join u child children hphase hended =>
    by_cases hu : t = u
    · subst hu
      by_cases hc : child = c
      · subst hc
        simp [hphase, Phase.pending, Nat.add_comm]
      · simp [hphase, Phase.pending, hc]
    · rw [State.set_phase_ne hu]
      simp [Ne.symm hu]
  | @finish u hphase =>
    by_cases hu : t = u
    · subst hu
      simp [hphase, Phase.pending]
    · rw [State.set_phase_ne hu]
      simp

/-- **A thread has joined those that it started and that are not pending, each of them once.** -/
theorem count_join_add_pending (hrun : run step (init root) events = some s) (t c : T) :
    events.count (.join t c) + (s.phase t).pending.count c = events.count (.start t c) := by
  refine run_record (fun events s => events.count (.join t c) + (s.phase t).pending.count c =
    events.count (.start t c)) rfl (fun events s e s' ih hstep => ?_) hrun
  have hcount := (step_iff.1 hstep).count t c
  rw [List.count_append, List.count_append]
  omega

/-- A thread that has ended does nothing more, and has joined what it started. -/
theorem Step.ended (h : Step s e s') (ht : s.phase t = .ended) : s'.phase t = .ended := by
  have hkept : ∀ {u : T} {p q : Phase T} {started : Finset T}, s.phase u = q → q ≠ .ended →
      ((State.mk started s.phase).set u p).phase t = .ended := by
    intro u p q started hphase hq
    have hne : t ≠ u := by
      rintro rfl
      exact hq (hphase.symm.trans ht)
    exact (State.set_phase_ne hne).trans ht
  cases h with
  | start _ hphase _ => exact hkept hphase (by simp)
  | leave _ hphase => exact hkept hphase (by simp)
  | take hphase => exact hkept hphase (by simp)
  | join hphase _ => exact hkept hphase (by simp)
  | finish hphase => exact hkept hphase (by simp)

/-- What a thread has started is pending there until it has ended. -/
theorem pending_or_ended (hrun : run step (init root) events = some s)
    (hstart : .start t c ∈ events) : c ∈ (s.phase t).pending ∨ s.phase c = .ended := by
  refine run_record (fun events s => .start t c ∈ events →
    c ∈ (s.phase t).pending ∨ s.phase c = .ended) (fun h => absurd h List.not_mem_nil) ?_ hrun hstart
  intro events s e s' ih hstep hmem
  have h := step_iff.1 hstep
  have hcount := h.count t c
  rcases List.mem_append.1 hmem with hmem | hmem
  · rcases ih hmem with hpending | hended
    · by_cases hjoin : e = .join t c
      · subst hjoin
        cases h with
        | join hphase hended => exact .inr ((Step.join hphase hended).ended hended)
      · left
        rw [List.count_singleton, if_neg (by simpa using hjoin)] at hcount
        have hpos := List.count_pos_iff.2 hpending
        exact List.count_pos_iff.1 (by omega)
    · exact .inr (h.ended hended)
  · obtain rfl := List.mem_singleton.1 hmem
    left
    rw [List.count_singleton, List.count_singleton_self, if_neg (by simp)] at hcount
    exact List.count_pos_iff.1 (by omega)

/-- **Once a thread has ended, so have all that it has started, and all that these have.** -/
theorem ended_of_started (hrun : run step (init root) events = some s)
    (hstarts : Relation.ReflTransGen (fun t c => .start t c ∈ events) t u)
    (ht : s.phase t = .ended) : s.phase u = .ended := by
  induction hstarts with
  | refl => exact ht
  | tail _ hstart ih =>
    rcases pending_or_ended hrun hstart with hpending | hended
    · rw [ih] at hpending
      cases hpending
    · exact hended

/-- Every thread has been started from the first one. -/
theorem starts_root (hrun : run step (init root) events = some s) (ht : t ∈ s.started) :
    Relation.ReflTransGen (fun t c => .start t c ∈ events) root t := by
  refine run_record (fun events s => ∀ t ∈ s.started,
    Relation.ReflTransGen (fun t c => .start t c ∈ events) root t) (fun t ht => ?_) ?_ hrun t ht
  · rw [Finset.mem_singleton.1 ht]
  · intro events s e s' ih hstep t ht
    have hmono : ∀ t ∈ s.started,
        Relation.ReflTransGen (fun t c => .start t c ∈ events ++ [e]) root t :=
      fun t ht => Relation.ReflTransGen.mono (fun _ _ h => List.mem_append_left _ h) _ _ (ih t ht)
    cases step_iff.1 hstep with
    | start hthread _ _ =>
      rcases Finset.mem_insert.1 ht with rfl | ht
      · exact (hmono _ hthread).tail (List.mem_append_right _ List.mem_cons_self)
      · exact hmono t ht
    | leave | take | join | finish => exact hmono t ht

/-- A thread is started once, and by one thread. -/
theorem start_unique (hrun : run step (init root) events = some s) (ht : .start t c ∈ events)
    (hu : .start u c ∈ events) : t = u ∧ events.count (.start t c) = 1 := by
  have hinv : (∀ t c, .start t c ∈ events → c ∈ s.started) ∧ ∀ t u c, .start t c ∈ events →
      .start u c ∈ events → t = u ∧ events.count (.start t c) = 1 := by
    refine run_record (fun events s => (∀ t c, .start t c ∈ events → c ∈ s.started) ∧
      ∀ t u c, .start t c ∈ events → .start u c ∈ events →
        t = u ∧ events.count (.start t c) = 1) ?_ ?_ hrun
    · exact ⟨fun _ _ h => absurd h List.not_mem_nil, fun _ _ _ h => absurd h List.not_mem_nil⟩
    intro events s e s' ⟨hmem, ih⟩ hstep
    have h := step_iff.1 hstep
    have hmono : ∀ c ∈ s.started, c ∈ s'.started := by
      intro c hc
      cases h with
      | start => exact Finset.mem_insert_of_mem hc
      | leave | take | join | finish => exact hc
    have hnew : ∀ {t c}, e = .start t c → c ∉ s.started ∧ c ∈ s'.started := by
      rintro t c rfl
      cases h with
      | start _ _ hnew => exact ⟨fun hc => lt_irrefl c (hnew c hc), Finset.mem_insert_self _ _⟩
    refine ⟨fun t c ht => ?_, fun t u c ht hu => ?_⟩
    · rcases List.mem_append.1 ht with ht | ht
      · exact hmono c (hmem t c ht)
      · exact (hnew (List.mem_singleton.1 ht).symm).2
    · rw [List.count_append]
      rcases List.mem_append.1 ht with ht | ht
      · have hc := hmem t c ht
        have hold : ∀ {v}, .start v c ∉ [e] := fun hv =>
          (hnew (List.mem_singleton.1 hv).symm).1 hc
        obtain ⟨heq, hcount⟩ := ih t u c ht ((List.mem_append.1 hu).resolve_right hold)
        exact ⟨heq, by rw [hcount, List.count_eq_zero_of_not_mem hold]⟩
      · obtain rfl := List.mem_singleton.1 ht
        have hold : ∀ {v}, .start v c ∉ events := fun hv => (hnew rfl).1 (hmem _ c hv)
        obtain heq := List.mem_singleton.1 ((List.mem_append.1 hu).resolve_left hold)
        cases heq
        exact ⟨rfl, by rw [List.count_eq_zero_of_not_mem hold, List.count_singleton_self]⟩
  exact hinv.2 t u c ht hu

/-- **When the first thread has ended, each of the others has been joined, once, by the thread that
has started it.** -/
theorem joined_once (hrun : run step (init root) events = some s) (hroot : s.phase root = .ended)
    (hc : c ∈ s.started) (hne : c ≠ root) :
    ∃ t, .start t c ∈ events ∧ ∀ u, events.count (.join u c) = if u = t then 1 else 0 := by
  rcases (starts_root hrun hc).cases_tail with heq | ⟨t, hreach, hstart⟩
  · exact absurd heq hne
  · refine ⟨t, hstart, fun u => ?_⟩
    have hcount := count_join_add_pending hrun u c
    by_cases hu : u = t
    · subst hu
      rw [if_pos rfl]
      rw [ended_of_started hrun hreach hroot, (start_unique hrun hstart hstart).2] at hcount
      exact hcount
    · rw [if_neg hu]
      have hnot : .start u c ∉ events := fun h => hu (start_unique hrun h hstart).1
      rw [List.count_eq_zero_of_not_mem hnot] at hcount
      exact Nat.eq_zero_of_add_eq_zero_right hcount

/-! ### Threads that have left their work -/

/-- What is left until all threads have ended. -/
def State.effort (s : State T) : ℕ := ∑ t ∈ s.started, (s.phase t).effort

/-- A step that starts no thread takes one of them on. -/
theorem Joinable.effort_lt (h : Joinable root s) (hstep : Step s e s')
    (hstart : ∀ t c, e ≠ .start t c) : s'.effort < s.effort := by
  have hset : ∀ {t : T} {p q : Phase T}, s.phase t = q → q ≠ .running [] ∨ t ∈ s.started →
      p.effort < q.effort → (s.set t p).effort < s.effort := by
    intro t p q hphase hq hlt
    have ht : t ∈ s.started := hq.elim (h.started_of_phase hphase) id
    refine Finset.sum_lt_sum (fun u _ => ?_) ⟨t, ht, ?_⟩
    · by_cases hu : u = t
      · subst hu
        rw [State.set_phase_self, hphase]
        exact hlt.le
      · rw [State.set_phase_ne hu]
    · rw [State.set_phase_self, hphase]
      exact hlt
  cases hstep with
  | start => exact absurd rfl (hstart _ _)
  | leave ht hphase => exact hset hphase (.inr ht) (Nat.lt_succ_self _)
  | take hphase => exact hset hphase (.inl (by simp)) (by simp [Phase.effort, Nat.mul_succ])
  | join hphase _ => exact hset hphase (.inl (by simp)) (Nat.lt_succ_self _)
  | finish hphase => exact hset hphase (.inl (by simp)) Nat.one_pos

/-- **Threads that have left their work do not wait in a circle.** -/
theorem Joinable.exists_step (h : Joinable root s)
    (hrunning : ∀ t ∈ s.started, ¬ (s.phase t).IsRunning)
    (hended : ∃ t ∈ s.started, s.phase t ≠ .ended) : ∃ e s', Event.IsLast e ∧ Step s e s' := by
  classical
  -- the youngest thread that has not ended
  have hne : (s.started.filter fun t => s.phase t ≠ .ended).Nonempty := by
    obtain ⟨t, ht, hphase⟩ := hended
    exact ⟨t, Finset.mem_filter.2 ⟨ht, hphase⟩⟩
  obtain ⟨t, htop, hmax⟩ := Finset.exists_max_image _ id hne
  obtain ⟨ht, hphase⟩ := Finset.mem_filter.1 htop
  cases hp : s.phase t with
  | running children => exact absurd ⟨children, hp⟩ (hrunning t ht)
  | leaving children =>
    cases children with
    | nil => exact ⟨.finish t, _, trivial, .finish hp⟩
    | cons child children => exact ⟨.take t, _, trivial, .take hp⟩
  | joining child children =>
    have hpending := h.pending t child (by rw [hp]; exact List.mem_cons_self)
    have hchild : s.phase child = .ended := by
      by_contra hnot
      exact absurd (hmax child (Finset.mem_filter.2 ⟨hpending.1, hnot⟩)) (not_le_of_gt hpending.2)
    exact ⟨.join t child, _, trivial, .join hp hchild⟩
  | ended => exact absurd hp hphase

end ForkJoin
