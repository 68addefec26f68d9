import InsenseCVM.Channels.Semaphore
import Mathlib.Data.Finset.Card
import Mathlib.Logic.Function.Iterate

/-!
# Signals

A post of a semaphore signals its condition. What `pthread_cond_signal` promises is that of the threads
that wait and have not been signalled yet at least one is unblocked, if there are any; a thread that
was unblocked wakes up some time later, and threads may wake up without a signal as well.

That is enough for no wake-up to get lost, although the semaphores look at their value only once: when
the threads that were signalled have woken up, a thread waits only if a wait that is called then has
to wait, too.
-/

namespace InsenseCVM

namespace Semaphore

open Transition

/-- A semaphore, and the threads that were signalled and have not woken up since. -/
structure Signalling (T : Type) extends State T where
  signalled : Finset T

/-- A post comes with the threads that its signal unblocks. -/
inductive SignalEvent (T : Type)
  | wait (t : T)
  | wake (t : T)
  | post (t : T) (unblocked : Finset T)

variable {T : Type} [DecidableEq T] {kind : Kind} {s s' u : Signalling T} {e : SignalEvent T}
  {events : List (SignalEvent T)} {value : ℕ} {v : ℤ} {n m : ℕ} {t : T}

def SignalEvent.event : SignalEvent T → Event T
  | wait t => .wait t
  | wake t => .wake t
  | post t _ => .post t

/-- The threads that are signalled after the event. -/
def SignalEvent.signals (signalled : Finset T) : SignalEvent T → Finset T
  | wait _ => signalled
  | wake t => signalled.erase t
  | post _ unblocked => signalled ∪ unblocked

def signalStep (kind : Kind) (s : Signalling T) (e : SignalEvent T) : Option (Signalling T) :=
  (step kind s.toState e.event).map fun u => ⟨u, e.signals s.signalled⟩

/-- The thread waits for a signal. -/
def Signalling.Unsignalled (s : Signalling T) (t : T) : Prop :=
  s.waiting t = true ∧ t ∉ s.signalled

/-- A signal unblocks threads that wait for one, and at least one if there are any. -/
def Conforms (s : Signalling T) : SignalEvent T → Prop
  | .post _ unblocked => (∀ t ∈ unblocked, s.Unsignalled t) ∧
      ((∃ t, s.Unsignalled t) → unblocked.Nonempty)
  | _ => True

def start (value : ℕ) : Signalling T := ⟨init value, ∅⟩

/-- Signals aside, it is a run of the semaphore. -/
theorem run_toState (hrun : run (signalStep kind) s events = some u) :
    run (step kind) s.toState (events.map SignalEvent.event) = some u.toState := by
  induction events generalizing s with
  | nil =>
    obtain rfl := Option.some.inj hrun
    rfl
  | cons e events ih =>
    rw [run_cons, Option.bind_eq_some_iff] at hrun
    obtain ⟨s', hs', hrun⟩ := hrun
    obtain ⟨v, hv, rfl⟩ := Option.map_eq_some_iff.1 hs'
    rw [List.map_cons, run_cons, hv, Option.bind_some]
    exact ih hrun

/-! ### The tokens that are on their way -/

/-- What keeps waits from overlooking tokens: no token comes from a wait, and the token of a post is
gone when one more wait has returned. -/
structure Kind.Spends (kind : Kind) : Prop where
  taken : ∀ v, kind.blocks v = true → kind.blocks (kind.taken v) = true
  posted : ∀ v n, kind.blocks (kind.taken^[n] v) = true →
    kind.blocks (kind.taken^[n + 1] (kind.posted v)) = true

theorem iterate_taken_mySem (n : ℕ) (v : ℤ) : mySem.taken^[n] v = v - n := by
  induction n generalizing v with
  | zero => simp
  | succ n ih =>
    rw [Function.iterate_succ_apply, ih]
    show v - 1 - n = v - (n + 1 : ℕ)
    omega

theorem spends_mySem : mySem.Spends where
  taken v h := by
    have hle : v ≤ 0 := by simpa [mySem] using h
    show decide (v - 1 ≤ 0) = true
    exact decide_eq_true (by omega)
  posted v n h := by
    rw [iterate_taken_mySem] at h ⊢
    have hle : v - n ≤ 0 := by simpa [mySem] using h
    show decide (v + 1 - (n + 1 : ℕ) ≤ 0) = true
    exact decide_eq_true (by omega)

theorem spends_binarySem : binarySem.Spends where
  taken _ _ := rfl
  posted _ n _ := by
    rw [Function.iterate_succ_apply']
    rfl

theorem Kind.Spends.iterate (h : kind.Spends) (hv : kind.blocks v = true) (n : ℕ) :
    kind.blocks (kind.taken^[n] v) = true := by
  induction n with
  | zero => exact hv
  | succ n ih =>
    rw [Function.iterate_succ_apply']
    exact h.taken _ ih

theorem Kind.Spends.mono (h : kind.Spends) (hnm : n ≤ m)
    (hv : kind.blocks (kind.taken^[n] v) = true) : kind.blocks (kind.taken^[m] v) = true := by
  obtain ⟨k, rfl⟩ := Nat.exists_eq_add_of_le' hnm
  rw [Function.iterate_add_apply]
  exact h.iterate hv k

/-! ### What is kept -/

/-- The threads that were signalled wait, and while another one waits they take all the tokens. -/
structure Promised (kind : Kind) (s : Signalling T) : Prop where
  waiting : ∀ t ∈ s.signalled, s.waiting t = true
  taken : ∀ t, s.Unsignalled t → kind.blocks (kind.taken^[s.signalled.card] s.value) = true

theorem Promised.wait (hkind : kind.Spends) (h : Promised kind s)
    (hstep : signalStep kind s (.wait t) = some s') : Promised kind s' := by
  obtain ⟨u, hu, rfl⟩ := Option.map_eq_some_iff.1 hstep
  simp only [SignalEvent.event, step] at hu
  split_ifs at hu with hwaiting hblocks
  · obtain rfl := Option.some.inj hu
    refine ⟨fun x hx => ?_, fun x _ => hkind.iterate hblocks _⟩
    by_cases hxt : x = t
    · rw [hxt]
      exact Function.update_self ..
    · exact (Function.update_of_ne hxt ..).trans (h.waiting x hx)
  · obtain rfl := Option.some.inj hu
    refine ⟨h.waiting, fun x hx => ?_⟩
    show kind.blocks (kind.taken^[s.signalled.card] (kind.taken s.value)) = true
    rw [← Function.iterate_succ_apply]
    exact hkind.mono (Nat.le_succ _) (h.taken x hx)

theorem Promised.wake (hkind : kind.Spends) (h : Promised kind s)
    (hstep : signalStep kind s (.wake t) = some s') : Promised kind s' := by
  obtain ⟨u, hu, rfl⟩ := Option.map_eq_some_iff.1 hstep
  simp only [SignalEvent.event, step] at hu
  split_ifs at hu with hwaiting
  obtain rfl := Option.some.inj hu
  refine ⟨fun x hx => ?_, fun x hx => ?_⟩
  · obtain ⟨hxt, hx⟩ := Finset.mem_erase.1 hx
    exact (Function.update_of_ne hxt ..).trans (h.waiting x hx)
  · obtain ⟨hx, hnot⟩ := hx
    replace hx : Function.update s.waiting t false x = true := hx
    have hxt : x ≠ t := by
      rintro rfl
      rw [Function.update_self] at hx
      cases hx
    rw [Function.update_of_ne hxt] at hx
    have hold := h.taken x ⟨hx, fun hmem => hnot (Finset.mem_erase.2 ⟨hxt, hmem⟩)⟩
    show kind.blocks (kind.taken^[(s.signalled.erase t).card] (kind.taken s.value)) = true
    rw [← Function.iterate_succ_apply]
    by_cases ht : t ∈ s.signalled
    · rwa [Nat.succ_eq_add_one, Finset.card_erase_add_one ht]
    · -- a wake-up without a signal
      rw [Finset.erase_eq_of_notMem ht]
      exact hkind.mono (Nat.le_succ _) hold

theorem Promised.post {unblocked : Finset T} (hkind : kind.Spends) (h : Promised kind s)
    (hok : Conforms s (.post t unblocked))
    (hstep : signalStep kind s (.post t unblocked) = some s') : Promised kind s' := by
  obtain ⟨u, hu, rfl⟩ := Option.map_eq_some_iff.1 hstep
  simp only [SignalEvent.event, step] at hu
  split_ifs at hu with hwaiting
  obtain rfl := Option.some.inj hu
  obtain ⟨hunsignalled, hany⟩ := hok
  refine ⟨fun x hx => ?_, fun x hx => ?_⟩
  · rcases Finset.mem_union.1 hx with hx | hx
    · exact h.waiting x hx
    · exact (hunsignalled x hx).1
  · have hold : s.Unsignalled x := ⟨hx.1, fun hmem => hx.2 (Finset.mem_union_left _ hmem)⟩
    have hdisjoint : Disjoint s.signalled unblocked :=
      Finset.disjoint_right.2 fun y hy => (hunsignalled y hy).2
    have hpos : 0 < unblocked.card := (hany ⟨x, hold⟩).card_pos
    show kind.blocks (kind.taken^[(s.signalled ∪ unblocked).card] (kind.posted s.value)) = true
    rw [Finset.card_union_of_disjoint hdisjoint]
    exact hkind.mono (by omega) (hkind.posted _ _ (h.taken x hold))

theorem promised_run (hkind : kind.Spends)
    (hok : Along (signalStep kind) Conforms (start value) events)
    (hrun : run (signalStep kind) (start value) events = some s) : Promised kind s := by
  refine run_invariant (Promised kind) (fun s e s' h hok hstep => ?_) ⟨?_, ?_⟩ hok hrun
  · cases e with
    | wait t => exact h.wait hkind hstep
    | wake t => exact h.wake hkind hstep
    | post t unblocked => exact h.post hkind hok hstep
  · exact fun t ht => absurd ht (Finset.notMem_empty t)
  · exact fun t ht => absurd ht.1 Bool.false_ne_true

/-- The threads that were signalled wake up, in any order. -/
theorem Promised.wakes (hkind : kind.Spends) {order : List T} (horder : order.Nodup)
    (h : Promised kind s) (hmem : ∀ t, t ∈ order ↔ t ∈ s.signalled) :
    ∃ u, run (signalStep kind) s (order.map .wake) = some u ∧ Promised kind u ∧
      u.signalled = ∅ := by
  induction order generalizing s with
  | nil =>
    refine ⟨s, rfl, h, Finset.eq_empty_of_forall_notMem fun t ht => ?_⟩
    exact absurd ((hmem t).2 ht) List.not_mem_nil
  | cons t order ih =>
    obtain ⟨hnew, horder⟩ := List.nodup_cons.1 horder
    have ht := (hmem t).1 List.mem_cons_self
    obtain ⟨s', hs'⟩ : ∃ s', signalStep kind s (.wake t) = some s' := by
      simp only [signalStep, SignalEvent.event, step, if_pos (h.waiting t ht)]
      exact ⟨_, rfl⟩
    have hsignalled : s'.signalled = s.signalled.erase t := by
      obtain ⟨u, -, rfl⟩ := Option.map_eq_some_iff.1 hs'
      rfl
    obtain ⟨u, hrun, hu, hnone⟩ := ih horder (h.wake hkind hs') fun x => by
      rw [hsignalled, Finset.mem_erase, ← hmem x, List.mem_cons]
      constructor
      · intro hx
        refine ⟨?_, .inr hx⟩
        rintro rfl
        exact hnew hx
      · rintro ⟨hne, hx⟩
        exact hx.resolve_left hne
    refine ⟨u, ?_, hu, hnone⟩
    rw [List.map_cons, run_cons, hs', Option.bind_some, hrun]

/-- **No wake-up is lost: whatever waits, posts and wake-ups there were, also wake-ups without a signal,
once the signalled threads have woken up, in any order, a thread waits for the condition only if a
wait that is called now has to wait as well.** -/
theorem no_wakeup_lost {order : List T} (hkind : kind = mySem ∨ kind = binarySem)
    (hok : Along (signalStep kind) Conforms (start value) events)
    (hrun : run (signalStep kind) (start value) events = some s) (horder : order.Nodup)
    (hmem : ∀ t, t ∈ order ↔ t ∈ s.signalled) :
    ∃ u, run (signalStep kind) s (order.map .wake) = some u ∧
      run (step kind) (init value) ((events ++ order.map SignalEvent.wake).map SignalEvent.event) =
        some u.toState ∧
      ∀ t, u.waiting t = true → kind.blocks u.value = true := by
  have hspends : kind.Spends := by
    rcases hkind with rfl | rfl
    · exact spends_mySem
    · exact spends_binarySem
  obtain ⟨u, hwakes, hu, hnone⟩ := (promised_run hspends hok hrun).wakes hspends horder hmem
  have hall : run (signalStep kind) (start value) (events ++ order.map .wake) = some u := by
    rw [run_append, hrun, Option.bind_some, hwakes]
  refine ⟨u, hwakes, run_toState hall, fun t ht => ?_⟩
  have hblocks := hu.taken t ⟨ht, by rw [hnone]; exact Finset.notMem_empty t⟩
  rwa [hnone] at hblocks

/-- The first thread and the second wait, the third posts. -/
theorem no_wakeup_lost_two : ∃ s u : Signalling (Fin 3),
    run (signalStep mySem) (start 0) [.wait 0, .wait 1, .post 2 {0}] = some s ∧
      run (signalStep mySem) s [.wake 0] = some u ∧
      ∀ t, u.waiting t = true → mySem.blocks u.value = true := by
  have hok : Along (signalStep mySem) Conforms (start 0)
      [.wait (0 : Fin 3), .wait 1, .post 2 {0}] := by
    refine along_cons.2 ⟨trivial, fun s hs => along_cons.2 ⟨trivial, fun s' hs' => ?_⟩⟩
    obtain rfl := Option.some.inj hs
    obtain rfl := Option.some.inj hs'
    refine along_cons.2 ⟨⟨fun t ht => ?_, fun _ => Finset.singleton_nonempty 0⟩, fun _ _ => along_nil⟩
    obtain rfl := Finset.mem_singleton.1 ht
    exact ⟨rfl, Finset.notMem_empty _⟩
  obtain ⟨u, hu⟩ := no_wakeup_lost (.inl rfl) hok rfl (List.nodup_singleton 0)
    (show ∀ t, t ∈ [0] ↔ _ by decide)
  exact ⟨_, u, rfl, hu.1, hu.2.2⟩

end Semaphore

end InsenseCVM
