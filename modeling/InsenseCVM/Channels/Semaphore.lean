import InsenseCVM.Lib.Transition
import Mathlib.Algebra.Order.Ring.Int
import Mathlib.Logic.Function.Basic

/-!
# The semaphores

`Channels/my_semaphore.c`. A wait looks at the value once: when it has to wait for the condition, it
takes a token as soon as `pthread_cond_wait` returns, whatever the value is by then. Another thread
may have come in between the signal and the wake-up, and a wake-up may be spurious.

One event is one section under the mutex of the semaphore. A section of a wait ends where it
returns or where it begins to wait for the condition. The record `done` has the returned waits and
the posts, the latest first.
-/

namespace InsenseCVM

namespace Semaphore

open Transition

/-- When a wait has to wait for the condition, what it makes of the value, and what a post does. -/
structure Kind where
  blocks : ℤ → Bool
  taken : ℤ → ℤ
  posted : ℤ → ℤ

/-- `my_sem_wait` and `my_sem_post`. -/
def mySem : Kind where
  blocks value := value ≤ 0
  taken value := value - 1
  posted value := value + 1

/-- `binary_sem_wait` and `binary_sem_post`. -/
def binarySem : Kind where
  blocks value := value = 0
  taken _ := 0
  posted _ := 1

inductive Mark
  | wait
  | post
  deriving DecidableEq

/-- A semaphore, the threads that wait for its condition, and the record. -/
structure State (T : Type) where
  value : ℤ
  waiting : T → Bool
  done : List Mark

/-- A thread calls wait or post, or wakes up from `pthread_cond_wait`. -/
inductive Event (T : Type)
  | wait (t : T)
  | wake (t : T)
  | post (t : T)

variable {T : Type} [DecidableEq T]

def step (kind : Kind) (s : State T) : Event T → Option (State T)
  | .wait t =>
    if s.waiting t = true then none
    else if kind.blocks s.value = true then
      some { s with waiting := Function.update s.waiting t true }
    else some { s with value := kind.taken s.value, done := .wait :: s.done }
  | .wake t =>
    if s.waiting t = true then
      some
        { value := kind.taken s.value, waiting := Function.update s.waiting t false
          done := .wait :: s.done }
    else none
  | .post t =>
    if s.waiting t = true then none
    else some { s with value := kind.posted s.value, done := .post :: s.done }

/-- `my_sem_init` -/
def init (value : ℕ) : State T where
  value := value
  waiting _ := false
  done := []

/-- A thread that wakes up finds a value with which it would not have had to wait. -/
def Wakes (kind : Kind) (s : State T) : Event T → Prop
  | .wake t => s.waiting t = true → kind.blocks s.value = false
  | _ => True

/-! ### What a step can do -/

variable {kind : Kind} {s s' : State T} {e : Event T}

/-- A step begins to wait for the condition, or a wait returns, or it is a post. -/
theorem step_cases (h : step kind s e = some s') :
    (s'.value = s.value ∧ s'.done = s.done) ∨
    (s'.value = kind.taken s.value ∧ s'.done = .wait :: s.done ∧
      (Wakes kind s e → kind.blocks s.value = false)) ∨
    (s'.value = kind.posted s.value ∧ s'.done = .post :: s.done) := by
  cases e with
  | wait t =>
    simp only [step] at h
    split_ifs at h with hwaiting hblocks
    · cases h
      exact .inl ⟨rfl, rfl⟩
    · cases h
      exact .inr (.inl ⟨rfl, rfl, fun _ => Bool.eq_false_iff.2 hblocks⟩)
  | wake t =>
    simp only [step] at h
    split_ifs at h with hwaiting
    cases h
    exact .inr (.inl ⟨rfl, rfl, fun hwakes => hwakes hwaiting⟩)
  | post t =>
    simp only [step] at h
    split_ifs at h with hwaiting
    cases h
    exact .inr (.inr ⟨rfl, rfl⟩)

omit [DecidableEq T] in
/-- A wake-up that finds a value it would have had to wait for takes a token nevertheless. -/
theorem exists_wake (h : ¬ Wakes kind s e) :
    ∃ t, e = .wake t ∧ s.waiting t = true ∧ kind.blocks s.value = true := by
  cases e with
  | wake t =>
    unfold Wakes at h
    rw [not_forall] at h
    obtain ⟨hwaiting, hblocks⟩ := h
    exact ⟨t, rfl, hwaiting, by simpa using hblocks⟩
  | wait t => exact absurd trivial h
  | post t => exact absurd trivial h

/-- A property of all states of a run holds exactly if the threads wake up in time. -/
theorem run_iff_wakes {good : State T → Prop} (inv : State T → Prop)
    (hinv : ∀ s e s', inv s → step kind s e = some s' → inv s')
    (hgood : ∀ s e s', inv s → good s → Wakes kind s e → step kind s e = some s' → good s')
    (hbad : ∀ s t s', inv s → kind.blocks s.value = true → step kind s (.wake t) = some s' →
      ¬ good s')
    (hinit : inv s ∧ good s) (events : List (Event T)) :
    (∀ pre, pre <+: events → ∀ u, run (step kind) s pre = some u → good u) ↔
      Along (step kind) (Wakes kind) s events := by
  constructor
  · intro hall pre e hpre u hu
    by_contra hnot
    obtain ⟨t, rfl, hwaiting, hblocks⟩ := exists_wake hnot
    have huinv : inv u := run_keeps inv hinv hinit.1 hu
    obtain ⟨u', hu'⟩ : ∃ u', step kind u (.wake t) = some u' := by
      simp only [step, if_pos hwaiting]
      exact ⟨_, rfl⟩
    refine hbad u t u' huinv hblocks hu' (hall _ hpre u' ?_)
    rw [run_concat, hu]
    exact hu'
  · intro hwakes pre hpre u hu
    have hpair : inv u ∧ good u :=
      run_invariant (fun s => inv s ∧ good s)
        (fun s e s' h hok hstep => ⟨hinv s e s' h.1 hstep, hgood s e s' h.1 h.2 hok hstep⟩)
        hinit (fun pre' e hpre' => hwakes pre' e (hpre'.trans hpre)) hu
    exact hpair.2

/-! ### Counting semaphores -/

/-- No more waits have returned than there were tokens at first and posts since. -/
def Counted (value : ℕ) (s : State T) : Prop := s.done.count .wait ≤ value + s.done.count .post

/-- The value of the semaphore counts the tokens. -/
def Counts (value : ℕ) (s : State T) : Prop :=
  s.value = value + s.done.count .post - s.done.count .wait

omit [DecidableEq T] in
theorem Counts.counted_iff {value : ℕ} (h : Counts value s) : Counted value s ↔ 0 ≤ s.value := by
  unfold Counts at h
  unfold Counted
  omega

theorem Counts.step {value : ℕ} (h : Counts value s) (hstep : step mySem s e = some s') :
    Counts value s' := by
  unfold Counts at h ⊢
  rcases step_cases hstep with ⟨hvalue, hdone⟩ | ⟨hvalue, hdone, -⟩ | ⟨hvalue, hdone⟩
  · rw [hvalue, hdone]
    exact h
  · rw [hvalue, hdone]
    simp only [mySem, List.count_cons_self, List.count_cons_of_ne (show Mark.wait ≠ Mark.post by decide)]
    push_cast
    omega
  · rw [hvalue, hdone]
    simp only [mySem, List.count_cons_self, List.count_cons_of_ne (show Mark.post ≠ Mark.wait by decide)]
    push_cast
    omega

theorem mySem_counted_iff (value : ℕ) (events : List (Event T)) :
    (∀ pre, pre <+: events → ∀ u, run (Semaphore.step mySem) (init value) pre = some u →
      Counted value u) ↔ Along (Semaphore.step mySem) (Wakes mySem) (init value) events := by
  refine run_iff_wakes (Counts value) (fun s e s' h hstep => h.step hstep) ?_ ?_ ?_ events
  · intro s e s' h hgood hwakes hstep
    have hvalue := h.counted_iff.1 hgood
    rw [(h.step hstep).counted_iff]
    rcases step_cases hstep with ⟨heq, -⟩ | ⟨heq, -, htoken⟩ | ⟨heq, -⟩
    · omega
    · have hpos : ¬ s.value ≤ 0 := by simpa [mySem] using htoken hwakes
      rw [heq]
      show 0 ≤ s.value - 1
      omega
    · rw [heq]
      show 0 ≤ s.value + 1
      omega
  · intro s t s' h hblocks hstep
    have hle : s.value ≤ 0 := by simpa [mySem] using hblocks
    rw [(h.step hstep).counted_iff]
    simp only [Semaphore.step] at hstep
    split_ifs at hstep
    cases hstep
    show ¬ 0 ≤ s.value - 1
    omega
  · refine ⟨?_, ?_⟩
    · simp [Counts, init]
    · simp [Counted, init]

/-! ### Binary semaphores -/

/-- A wait may return: it is the first to do so and there was an initial token, or the last thing
that was done is a post. -/
def Token (value : ℕ) : List Mark → Prop
  | [] => value ≠ 0
  | mark :: _ => mark = .post

/-- Each wait has returned with a token of its own. -/
def Separated (value : ℕ) (s : State T) : Prop :=
  ∀ pre, .wait :: pre <:+ s.done → Token value pre

/-- The value of the semaphore says whether there is a token. -/
def Tells (value : ℕ) (s : State T) : Prop := s.value ≠ 0 ↔ Token value s.done

theorem Tells.step {value : ℕ} (h : Tells value s) (hstep : step binarySem s e = some s') :
    Tells value s' := by
  unfold Tells at h ⊢
  rcases step_cases hstep with ⟨hvalue, hdone⟩ | ⟨hvalue, hdone, -⟩ | ⟨hvalue, hdone⟩
  · rw [hvalue, hdone]
    exact h
  · rw [hvalue, hdone]
    simp [binarySem, Token]
  · rw [hvalue, hdone]
    simp [binarySem, Token]

theorem binarySem_separated_iff (value : ℕ) (events : List (Event T)) :
    (∀ pre, pre <+: events → ∀ u, run (Semaphore.step binarySem) (init value) pre = some u →
      Separated value u) ↔ Along (Semaphore.step binarySem) (Wakes binarySem) (init value) events := by
  refine run_iff_wakes (Tells value) (fun s e s' h hstep => h.step hstep) ?_ ?_ ?_ events
  · intro s e s' h hgood hwakes hstep pre hpre
    rcases step_cases hstep with ⟨-, hdone⟩ | ⟨-, hdone, htoken⟩ | ⟨-, hdone⟩
    · rw [hdone] at hpre
      exact hgood pre hpre
    · rw [hdone] at hpre
      rcases List.suffix_cons_iff.1 hpre with heq | hold
      · obtain ⟨-, rfl⟩ := List.cons.inj heq
        have hne : s.value ≠ 0 := by simpa [binarySem] using htoken hwakes
        exact h.1 hne
      · exact hgood pre hold
    · rw [hdone] at hpre
      rcases List.suffix_cons_iff.1 hpre with heq | hold
      · cases heq
      · exact hgood pre hold
  · intro s t s' h hblocks hstep hgood
    have hzero : s.value = 0 := by simpa [binarySem] using hblocks
    simp only [Semaphore.step] at hstep
    split_ifs at hstep
    cases hstep
    exact h.2 (hgood s.done List.suffix_rfl) hzero
  · refine ⟨?_, fun pre hpre => ?_⟩
    · simp [Tells, init, Token]
    · cases List.suffix_nil.1 hpre

/-- **The semaphores let no waiter through without a token if and only if every thread that wakes up
finds a value with which it would not have had to wait.** -/
theorem tokens_iff_wakes (value : ℕ) (events : List (Event T)) :
    ((∀ pre, pre <+: events → ∀ u, run (Semaphore.step mySem) (init value) pre = some u →
        Counted value u) ↔ Along (Semaphore.step mySem) (Wakes mySem) (init value) events) ∧
      ((∀ pre, pre <+: events → ∀ u, run (Semaphore.step binarySem) (init value) pre = some u →
        Separated value u) ↔
        Along (Semaphore.step binarySem) (Wakes binarySem) (init value) events) :=
  ⟨mySem_counted_iff value events, binarySem_separated_iff value events⟩

/-- The first thread waits for the condition, the second posts and the third comes in before the
first has woken up: both waits return for one token. -/
theorem wait_without_token :
    (∃ u : State (Fin 3), run (Semaphore.step mySem) (init 0)
      [.wait 0, .post 1, .wait 2, .wake 0] = some u ∧ ¬ Counted 0 u) ∧
    ∃ u : State (Fin 3), run (Semaphore.step binarySem) (init 0)
      [.wait 0, .post 1, .wait 2, .wake 0] = some u ∧ ¬ Separated 0 u := by
  refine ⟨⟨_, rfl, by unfold Counted; decide⟩, ⟨_, rfl, fun h => ?_⟩⟩
  have hlast := h [.wait, .post] List.suffix_rfl
  cases hlast

end Semaphore

end InsenseCVM
