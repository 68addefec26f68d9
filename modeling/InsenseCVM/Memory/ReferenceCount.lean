import InsenseCVM.Lib.Transition
import Mathlib.Algebra.Order.Ring.Int
import Mathlib.Data.Fintype.Basic
import Mathlib.Logic.Function.Basic

/-!
# Reference counts

`GC/GC_mem_common.c`: threads in `GC_incRef` and `GC_decRef` on one object. The count is changed
under the mutex, but `GC_decRef` tests it afterwards without, so that every thread that has given up
its reference before the last test can find zero.

One event is the change of the count, the test, the finaliser `decRef` of the object, or `GC_free`.
`held` has one entry for each reference, the thread that holds it. `finalised` and `freed` record
which threads have run the finaliser and freed the memory.
-/

namespace InsenseCVM

namespace ReferenceCount

open Transition

/-- Where a thread is in `GC_decRef`. -/
inductive Pc
  | idle
  | test
  | finalise
  | free
  deriving DecidableEq

structure State (T : Type) where
  refCount : ℤ
  memContainsPointers : Bool
  held : List T
  pc : T → Pc
  finalised : List T
  freed : List T

/-- A thread calls `GC_incRef` or `GC_decRef`, or takes the next step in `GC_decRef`. -/
inductive Event (T : Type)
  | incRef (t : T)
  | decRef (t : T)
  | step (t : T)

variable {T : Type} [DecidableEq T]

def State.setPc (s : State T) (t : T) (pc : Pc) : State T :=
  { s with pc := Function.update s.pc t pc }

/-- The steps of `GC_decRef` behind the change of the count. -/
def stepDecRef (s : State T) (t : T) : Option (State T) :=
  match s.pc t with
  | .idle => none
  | .test =>
    if s.refCount ≤ 0 then
      some (s.setPc t (if s.memContainsPointers = true then .finalise else .free))
    else some (s.setPc t .idle)
  | .finalise => some { s.setPc t .free with finalised := t :: s.finalised }
  | .free =>
    -- `GC_free` does nothing with an object that is still referenced
    if 0 < s.refCount then some (s.setPc t .idle)
    else some { s.setPc t .idle with freed := t :: s.freed }

/-- A thread gives up a reference that it holds, and takes another one only of an object that is
referenced. -/
def step (s : State T) : Event T → Option (State T)
  | .incRef t =>
    if s.pc t = .idle ∧ s.held ≠ [] then
      some { s with refCount := s.refCount + 1, held := t :: s.held }
    else none
  | .decRef t =>
    if s.pc t = .idle ∧ t ∈ s.held then
      some { s.setPc t .test with refCount := s.refCount - 1, held := s.held.erase t }
    else none
  | .step t => stepDecRef s t

/-- No thread is in a call, and the count is that of the references. -/
structure Initial (s : State T) : Prop where
  refCount : s.refCount = s.held.length
  pc : ∀ t, s.pc t = .idle
  finalised : s.finalised = []
  freed : s.freed = []

/-- The object is finalised and freed at most once, by one thread, and only when there is no
reference left. -/
structure CollectedOnce (s : State T) : Prop where
  finalised : s.finalised.length ≤ 1
  freed : s.freed.length ≤ 1
  oneThread : ∀ t ∈ s.finalised, ∀ u ∈ s.freed, t = u
  unreferenced : s.finalised ≠ [] ∨ s.freed ≠ [] → s.held = []

/-- A test that finds zero is made while no other thread is between its decrement and its test. -/
def TestsAlone (s : State T) : Event T → Prop
  | .step t => s.pc t = .test → s.refCount ≤ 0 → ∀ u ≠ t, s.pc u ≠ .test
  | _ => True

instance [Fintype T] (s : State T) : ∀ e, Decidable (TestsAlone s e)
  | .incRef _ => isTrue trivial
  | .decRef _ => isTrue trivial
  | .step t =>
    inferInstanceAs
      (Decidable (s.pc t = .test → s.refCount ≤ 0 → ∀ u, u ≠ t → s.pc u ≠ .test))

/-! ### What a step can do -/

inductive Step (s : State T) : Event T → State T → Prop
  | incRef (t : T) (hpc : s.pc t = .idle) (hheld : s.held ≠ []) :
      Step s (.incRef t) { s with refCount := s.refCount + 1, held := t :: s.held }
  | decRef (t : T) (hpc : s.pc t = .idle) (hheld : t ∈ s.held) :
      Step s (.decRef t)
        { s.setPc t .test with refCount := s.refCount - 1, held := s.held.erase t }
  | found (t : T) (pc : Pc) (hpc : s.pc t = .test) (hzero : s.refCount ≤ 0)
      (hnext : pc = .finalise ∨ pc = .free) : Step s (.step t) (s.setPc t pc)
  | passed (t : T) (hpc : s.pc t = .test) (hpos : 0 < s.refCount) :
      Step s (.step t) (s.setPc t .idle)
  | finalised (t : T) (hpc : s.pc t = .finalise) :
      Step s (.step t) { s.setPc t .free with finalised := t :: s.finalised }
  | kept (t : T) (hpc : s.pc t = .free) (hpos : 0 < s.refCount) : Step s (.step t) (s.setPc t .idle)
  | freed (t : T) (hpc : s.pc t = .free) (hzero : s.refCount ≤ 0) :
      Step s (.step t) { s.setPc t .idle with freed := t :: s.freed }

variable {s s' : State T} {e : Event T}

theorem step_cases (h : step s e = some s') : Step s e s' := by
  cases e with
  | incRef t =>
    simp only [step] at h
    split_ifs at h with hcan
    cases h
    exact .incRef t hcan.1 hcan.2
  | decRef t =>
    simp only [step] at h
    split_ifs at h with hcan
    cases h
    exact .decRef t hcan.1 hcan.2
  | step t =>
    simp only [step, stepDecRef] at h
    cases hpc : s.pc t with
    | idle => simp [hpc] at h
    | test =>
      simp only [hpc] at h
      split_ifs at h with hzero hpointers
      · cases h
        exact .found t _ hpc hzero (.inl rfl)
      · cases h
        exact .found t _ hpc hzero (.inr rfl)
      · cases h
        exact .passed t hpc (not_le.1 hzero)
    | finalise =>
      simp only [hpc] at h
      cases h
      exact .finalised t hpc
    | free =>
      simp only [hpc] at h
      split_ifs at h with hpos
      · cases h
        exact .kept t hpc hpos
      · cases h
        exact .freed t hpc (not_lt.1 hpos)

/-! ### Collecting alone -/

/-- The count is that of the references. -/
def Counts (s : State T) : Prop := s.refCount = s.held.length

theorem Counts.step (h : Counts s) (hstep : Step s e s') : Counts s' := by
  unfold Counts at h ⊢
  cases hstep with
  | incRef t hpc hheld =>
    show s.refCount + 1 = ((t :: s.held).length : ℤ)
    rw [List.length_cons]
    omega
  | decRef t hpc hheld =>
    show s.refCount - 1 = ((s.held.erase t).length : ℤ)
    have hlength := List.length_erase_of_mem hheld
    have hpos := List.length_pos_of_mem hheld
    omega
  | found => exact h
  | passed => exact h
  | finalised => exact h
  | kept => exact h
  | freed => exact h

omit [DecidableEq T] in
theorem Counts.held_eq_nil (h : Counts s) (hzero : s.refCount ≤ 0) : s.held = [] := by
  unfold Counts at h
  exact List.length_eq_zero_iff.1 (by omega)

/-- Nobody has found the count to be zero. -/
structure Uncollected (s : State T) : Prop where
  pc : ∀ t, s.pc t = .idle ∨ s.pc t = .test
  finalised : s.finalised = []
  freed : s.freed = []

/-- One thread collects the object or has collected it, and all the others are done with it. -/
structure CollectedBy (s : State T) (c : T) : Prop where
  held : s.held = []
  others : ∀ t ≠ c, s.pc t = .idle
  pc : s.pc c ≠ .test
  finalised : s.finalised = [] ∨ (s.finalised = [c] ∧ s.pc c ≠ .finalise)
  freed : s.freed = [] ∨ (s.freed = [c] ∧ s.pc c = .idle)

theorem CollectedBy.step {c : T} (h : CollectedBy s c) (hcounts : Counts s) (hstep : Step s e s') :
    CollectedBy s' c := by
  have hzero : s.refCount = 0 := by
    unfold Counts at hcounts
    rw [hcounts, h.held]
    rfl
  -- only the collecting thread can move
  have honly : ∀ t, s.pc t ≠ .idle → t = c := by
    intro t ht
    by_contra hne
    exact ht (h.others t hne)
  cases hstep with
  | incRef t hpc hheld => exact absurd h.held hheld
  | decRef t hpc hheld =>
    rw [h.held] at hheld
    cases hheld
  | found t pc hpc =>
    obtain rfl := honly t (by rw [hpc]; decide)
    exact absurd hpc h.pc
  | passed t hpc hpos => omega
  | kept t hpc hpos => omega
  | finalised t hpc =>
    obtain rfl := honly t (by rw [hpc]; decide)
    refine ⟨h.held, fun u hu => ?_, ?_, .inr ⟨?_, ?_⟩, ?_⟩
    · exact (Function.update_of_ne hu ..).trans (h.others u hu)
    · show Function.update s.pc t .free t ≠ .test
      rw [Function.update_self]
      decide
    · rcases h.finalised with hnil | ⟨-, hne⟩
      · show t :: s.finalised = [t]
        rw [hnil]
      · exact absurd hpc hne
    · show Function.update s.pc t .free t ≠ .finalise
      rw [Function.update_self]
      decide
    · rcases h.freed with hnil | ⟨-, hidle⟩
      · exact .inl hnil
      · rw [hpc] at hidle
        cases hidle
  | freed t hpc _ =>
    obtain rfl := honly t (by rw [hpc]; decide)
    have hpc' : Function.update s.pc t .idle t = .idle := Function.update_self ..
    refine ⟨h.held, fun u hu => ?_, ?_, ?_, .inr ⟨?_, hpc'⟩⟩
    · exact (Function.update_of_ne hu ..).trans (h.others u hu)
    · show Function.update s.pc t .idle t ≠ .test
      rw [hpc']
      decide
    · rcases h.finalised with hnil | ⟨hone, -⟩
      · exact .inl hnil
      · refine .inr ⟨hone, ?_⟩
        show Function.update s.pc t .idle t ≠ .finalise
        rw [hpc']
        decide
    · rcases h.freed with hnil | ⟨-, hidle⟩
      · show t :: s.freed = [t]
        rw [hnil]
      · rw [hpc] at hidle
        cases hidle

theorem Uncollected.step (h : Uncollected s) (hcounts : Counts s) (halone : TestsAlone s e)
    (hstep : Step s e s') : Uncollected s' ∨ ∃ c, CollectedBy s' c := by
  have hmoved : ∀ t pc, pc = .idle ∨ pc = .test → ∀ u,
      (s.setPc t pc).pc u = .idle ∨ (s.setPc t pc).pc u = .test := by
    intro t pc hpc u
    show Function.update s.pc t pc u = _ ∨ Function.update s.pc t pc u = _
    by_cases hu : u = t
    · subst hu
      rw [Function.update_self]
      exact hpc
    · rw [Function.update_of_ne hu]
      exact h.pc u
  cases hstep with
  | incRef t => exact .inl ⟨h.pc, h.finalised, h.freed⟩
  | decRef t => exact .inl ⟨hmoved t .test (.inr rfl), h.finalised, h.freed⟩
  | passed t => exact .inl ⟨hmoved t .idle (.inl rfl), h.finalised, h.freed⟩
  | found t pc hpc hzero hnext =>
    refine .inr ⟨t, hcounts.held_eq_nil hzero, fun u hu => ?_, ?_, .inl h.finalised, .inl h.freed⟩
    -- the count is zero, and no other thread is at its test
    · have hne := halone hpc hzero u hu
      exact (Function.update_of_ne hu ..).trans ((h.pc u).resolve_right hne)
    · show Function.update s.pc t pc t ≠ .test
      rw [Function.update_self]
      rcases hnext with rfl | rfl
      · decide
      · decide
  | finalised t hpc =>
    rcases h.pc t with hidle | htest
    · rw [hpc] at hidle
      cases hidle
    · rw [hpc] at htest
      cases htest
  | kept t hpc =>
    rcases h.pc t with hidle | htest
    · rw [hpc] at hidle
      cases hidle
    · rw [hpc] at htest
      cases htest
  | freed t hpc =>
    rcases h.pc t with hidle | htest
    · rw [hpc] at hidle
      cases hidle
    · rw [hpc] at htest
      cases htest

omit [DecidableEq T] in
theorem Uncollected.once (h : Uncollected s) : CollectedOnce s where
  finalised := by
    rw [h.finalised]
    exact Nat.zero_le _
  freed := by
    rw [h.freed]
    exact Nat.zero_le _
  oneThread := by
    rw [h.finalised]
    simp
  unreferenced := by
    rw [h.finalised, h.freed]
    simp

omit [DecidableEq T] in
theorem CollectedBy.once {c : T} (h : CollectedBy s c) : CollectedOnce s where
  finalised := by
    rcases h.finalised with hnil | ⟨hone, -⟩
    · simp [hnil]
    · simp [hone]
  freed := by
    rcases h.freed with hnil | ⟨hone, -⟩
    · simp [hnil]
    · simp [hone]
  oneThread := by
    intro t ht u hu
    have htc : t = c := by
      rcases h.finalised with hnil | ⟨hone, -⟩
      · rw [hnil] at ht
        cases ht
      · simpa [hone] using ht
    have huc : u = c := by
      rcases h.freed with hnil | ⟨hone, -⟩
      · rw [hnil] at hu
        cases hu
      · simpa [hone] using hu
    rw [htc, huc]
  unreferenced := fun _ => h.held

/-! ### Two threads that find zero -/

/-- The thread is in front of its test or behind one that found zero. -/
def Collects (s : State T) (t : T) : Prop := s.pc t ≠ .idle ∨ t ∈ s.freed

omit [DecidableEq T] in
/-- Two threads have given up their references, and there are none left. -/
def Doomed (s : State T) : Prop :=
  s.held = [] ∧ ∃ t u, t ≠ u ∧ Collects s t ∧ Collects s u

theorem Collects.step {t : T} (h : Collects s t) (hzero : s.refCount = 0) (hheld : s.held = [])
    (hstep : Step s e s') : Collects s' t := by
  have hmoved : ∀ u pc, pc ≠ .idle → (s.setPc u pc).pc t ≠ .idle ∨ t ∈ s.freed := by
    intro u pc hpc
    rcases h with hne | hfreed
    · left
      show Function.update s.pc u pc t ≠ .idle
      by_cases htu : t = u
      · subst htu
        rwa [Function.update_self]
      · rwa [Function.update_of_ne htu]
    · exact .inr hfreed
  cases hstep with
  | incRef u hpc hne => exact absurd hheld hne
  | decRef u hpc hmem =>
    rw [hheld] at hmem
    cases hmem
  | passed u hpc hpos => omega
  | kept u hpc hpos => omega
  | found u pc hpc _ hnext =>
    refine hmoved u pc ?_
    rcases hnext with rfl | rfl
    · decide
    · decide
  | finalised u hpc => exact hmoved u .free (by decide)
  | freed u hpc _ =>
    by_cases htu : t = u
    · exact .inr (htu ▸ List.mem_cons_self)
    · rcases h with hne | hfreed
      · exact .inl (by
          show Function.update s.pc u .idle t ≠ .idle
          rwa [Function.update_of_ne htu])
      · exact .inr (List.mem_cons_of_mem _ hfreed)

theorem Doomed.step (h : Doomed s) (hcounts : Counts s) (hstep : Step s e s') : Doomed s' := by
  obtain ⟨hheld, t, u, hne, ht, hu⟩ := h
  have hzero : s.refCount = 0 := by
    unfold Counts at hcounts
    rw [hcounts, hheld]
    rfl
  refine ⟨?_, t, u, hne, ht.step hzero hheld hstep, hu.step hzero hheld hstep⟩
  cases hstep with
  | incRef v hpc hnil => exact absurd hheld hnil
  | decRef v hpc hmem =>
    rw [hheld] at hmem
    cases hmem
  | found => exact hheld
  | passed => exact hheld
  | finalised => exact hheld
  | kept => exact hheld
  | freed => exact hheld

omit [DecidableEq T] in
/-- When all calls are done, both threads have freed the object. -/
theorem Doomed.not_once (h : Doomed s) (hidle : ∀ t, s.pc t = .idle) : ¬ CollectedOnce s := by
  obtain ⟨-, t, u, hne, ht, hu⟩ := h
  intro honce
  have ht' := ht.resolve_left fun h => h (hidle t)
  have hu' := hu.resolve_left fun h => h (hidle u)
  have hlength := honce.freed
  match hfreed : s.freed with
  | [] =>
    rw [hfreed] at ht'
    cases ht'
  | [v] =>
    rw [hfreed] at ht' hu'
    exact hne ((List.mem_singleton.1 ht').trans (List.mem_singleton.1 hu').symm)
  | _ :: _ :: _ =>
    rw [hfreed] at hlength
    simp at hlength

/-! ### Runs -/

variable {u : State T} {events : List (Event T)}

theorem Initial.counts_run (h : Initial s) (hrun : run ReferenceCount.step s events = some u) :
    Counts u :=
  run_keeps Counts (fun _ _ _ hcounts hstep => hcounts.step (step_cases hstep)) h.refCount hrun

theorem Initial.once (h : Initial s) (halone : Along ReferenceCount.step TestsAlone s events)
    (hrun : run ReferenceCount.step s events = some u) : CollectedOnce u := by
  have hinv : Counts u ∧ (Uncollected u ∨ ∃ c, CollectedBy u c) := by
    refine run_invariant (fun s => Counts s ∧ (Uncollected s ∨ ∃ c, CollectedBy s c)) ?_
      ⟨h.refCount, .inl ⟨fun t => .inl (h.pc t), h.finalised, h.freed⟩⟩ halone hrun
    rintro s e s' ⟨hcounts, hcase⟩ hok hstep
    have hcases := step_cases hstep
    refine ⟨hcounts.step hcases, ?_⟩
    rcases hcase with huncollected | ⟨c, hc⟩
    · exact huncollected.step hcounts hok hcases
    · exact .inr ⟨c, hc.step hcounts hcases⟩
  rcases hinv.2 with huncollected | ⟨c, hc⟩
  · exact huncollected.once
  · exact hc.once

/-- **The object is finalised and freed at most once, after its last reference, in every run in
which each test that finds zero is made while no other thread is in front of its test; and in a run
at whose end all calls are done, only then.** -/
theorem collectedOnce_of_testsAlone (h : Initial s)
    (hrun : run ReferenceCount.step s events = some u) :
    (Along ReferenceCount.step TestsAlone s events →
      ∀ pre, pre <+: events → ∀ v, run ReferenceCount.step s pre = some v → CollectedOnce v) ∧
    ((∀ t, u.pc t = .idle) → CollectedOnce u → Along ReferenceCount.step TestsAlone s events) := by
  refine ⟨fun halone pre hpre v hv => ?_, fun hidle honce pre e hpre v hv => ?_⟩
  · exact h.once (fun pre' e hpre' => halone pre' e (hpre'.trans hpre)) hv
  · by_contra hnot
    have hcounts := h.counts_run hv
    have hdoomed : Doomed v := by
      cases e with
      | step t =>
        simp only [TestsAlone, not_forall] at hnot
        obtain ⟨htest, hzero, x, hne, hx⟩ := hnot
        rw [not_not] at hx
        refine ⟨hcounts.held_eq_nil hzero, t, x, hne.symm, .inl ?_, .inl ?_⟩
        · rw [htest]
          decide
        · rw [hx]
          decide
      | incRef t => exact absurd trivial hnot
      | decRef t => exact absurd trivial hnot
    obtain ⟨rest, rfl⟩ := hpre
    rw [List.append_assoc, run_append, hv] at hrun
    have hlast : Counts u ∧ Doomed u :=
      run_keeps (fun s => Counts s ∧ Doomed s)
        (fun _ _ _ hs hstep => ⟨hs.1.step (step_cases hstep), hs.2.step hs.1 (step_cases hstep)⟩)
        ⟨hcounts, hdoomed⟩ hrun
    exact hlast.2.not_once hidle honce

/-- An object without pointers to which two threads hold a reference each. -/
def shared : State (Fin 2) where
  refCount := 2
  memContainsPointers := false
  held := [0, 1]
  pc _ := .idle
  finalised := []
  freed := []

theorem initial_shared : Initial shared := ⟨rfl, fun _ => rfl, rfl, rfl⟩

/-- The second thread gives up its reference behind the test of the first. -/
def inTurn : List (Event (Fin 2)) := [.decRef 0, .step 0, .decRef 1, .step 1, .step 1]

/-- Both threads give up their references before either of them looks at the count. -/
def atOnce : List (Event (Fin 2)) := [.decRef 0, .decRef 1, .step 0, .step 1, .step 0, .step 1]

theorem collectedOnce_of_testsAlone_inTurn :
    ∃ u, run ReferenceCount.step shared inTurn = some u ∧ CollectedOnce u ∧ u.freed = [1] := by
  have halone : Along ReferenceCount.step TestsAlone shared inTurn := by decide +kernel
  obtain ⟨u, hu⟩ : ∃ u, run ReferenceCount.step shared inTurn = some u := ⟨_, rfl⟩
  have hfreed : (run ReferenceCount.step shared inTurn).map State.freed = some [1] := by
    decide +kernel
  rw [hu] at hfreed
  refine ⟨u, hu, ?_, Option.some.inj hfreed⟩
  exact (collectedOnce_of_testsAlone initial_shared hu).1 halone _ List.prefix_rfl u hu

theorem freed_twice :
    Initial shared ∧ ∃ u, run ReferenceCount.step shared atOnce = some u ∧ ¬ CollectedOnce u := by
  refine ⟨initial_shared, ?_⟩
  obtain ⟨u, hu⟩ : ∃ u, run ReferenceCount.step shared atOnce = some u := ⟨_, rfl⟩
  have hfreed : (run ReferenceCount.step shared atOnce).map State.freed = some [1, 0] := by
    decide +kernel
  rw [hu] at hfreed
  refine ⟨u, hu, fun honce => ?_⟩
  have hlength := honce.freed
  rw [Option.some.inj hfreed] at hlength
  simp at hlength

end ReferenceCount

end InsenseCVM
