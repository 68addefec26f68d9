import InsenseCVM.Channels.Wiring

/-!
# What an unbinding leaves connected

The loop of `channel_unbind` counts up to a length that it reads again in each round, while each
round removes an element: of `n` connections it removes every other one, and `n / 2` are left.
-/

namespace InsenseCVM

namespace Network

open Transition Activity

variable {C T Ptr : Type} [DecidableEq C] [DecidableEq T] {p : Ports C} {s s' : Network C T Ptr}
  {t : T} {peers before lists : C → List C} {id : C} {n : ℕ}

/-! ### Rounds -/

/-- How far the thread has got in the loop, which began with `n` connections. -/
def Rounds (peers lists : C → List C) (id : C) (n : ℕ) : Activity C Ptr → Prop
  | .unbindLoop id' i length => id' = id ∧ length = (peers id).length ∧
      (peers id).length + i = n ∧ (i = 0 ∨ 2 * (i - 1) < n)
  | .unbind stage id' _ i => id' = id ∧ (peers id).length + (i + removed stage) = n ∧ 2 * i < n
  | .idle => lists = peers ∧ (peers id).length = n / 2
  | _ => False

/-- The connections between other channels are those of `before`. -/
def OthersSame (before peers : C → List C) (id : C) : Prop :=
  ∀ c d, c ≠ id → d ≠ id → (d ∈ peers c ↔ d ∈ before c)

/-- The state of an unbinding of `id` by `t`. -/
def Unbinding (p : Ports C) (before : C → List C) (id : C) (n : ℕ) (t : T)
    (s : Network C T Ptr) : Prop :=
  ∃ peers lists, Wired p s peers lists ∧ Rounds peers lists id n (s.thread t) ∧
    OthersSame before peers id

theorem OthersSame.unlink {opposite : C} (h : OthersSame before peers id) (hgraph : Graph p peers)
    (hmem : opposite ∈ peers id) : OthersSame before (unlink peers id opposite) id := by
  intro c d hc hd
  rw [← h c d hc hd, mem_unlink (hgraph.ne hmem) hgraph.nodup]
  simp [hc, hd]

omit [DecidableEq C] in
theorem Rounds.holdsOp {activity : Activity C Ptr} (h : Rounds peers lists id n activity)
    (hne : activity ≠ .idle) : activity.HoldsOp := by
  cases activity with
  | idle => exact absurd rfl hne
  | unbindLoop | unbind => trivial
  | bind | unbindLock | send | receive => exact h.elim

/-- One event keeps the state of the unbinding. -/
theorem Unbinding.step {e : NetworkEvent C T Ptr} (h : Unbinding p before id n t s)
    (hne : s.thread t ≠ .idle) (hstep : Network.step p s e = some s') :
    Unbinding p before id n t s' := by
  obtain ⟨peers, lists, hwired, hrounds, hothers⟩ := h
  by_cases hactor : actor e = t
  · subst hactor
    rw [eq_step_of_not_idle hstep hne] at hstep
    simp only [Network.step, stepThread] at hstep
    generalize actor e = t at hne hrounds hstep ⊢
    cases hthread : s.thread t with
    | idle => exact absurd hthread hne
    | bind | unbindLock | send | receive =>
      rw [hthread] at hrounds
      exact hrounds.elim
    | unbindLoop id' i length =>
      rw [hthread] at hrounds hstep
      obtain ⟨rfl, rfl, hcount, hi⟩ := hrounds
      obtain ⟨activity, hgo, ⟨hwired', -⟩, hgoes⟩ := hwired.unbindLoop hthread hstep
      refine ⟨peers, lists, hwired', ?_, hothers⟩
      rw [hgo, Function.update_self]
      rcases hgoes with ⟨hlt, opposite, rfl⟩ | ⟨hle, rfl, rfl⟩
      · exact ⟨rfl, hcount, by omega⟩
      · exact ⟨rfl, by omega⟩
    | unbind stage id' opposite i =>
      rw [hthread] at hrounds hstep
      obtain ⟨rfl, hcount, hi⟩ := hrounds
      obtain ⟨activity, peers', lists', hgo, ⟨hwired', -⟩, hgoes⟩ := hwired.unbind hthread hstep
      refine ⟨peers', lists', hwired', ?_⟩
      rw [hgo, Function.update_self]
      cases stage with
      | removeFirst =>
        obtain ⟨hmem, rfl, rfl⟩ := hgoes
        refine ⟨⟨rfl, ?_, hi⟩, hothers.unlink hwired.graph hmem⟩
        -- the removal takes one peer away, and the round counts it
        have hpos := List.length_pos_of_mem hmem
        rw [unlink_first (hwired.graph.ne hmem), List.length_erase_of_mem hmem]
        simp only [removed] at hcount ⊢
        omega
      | postSecond =>
        obtain ⟨rfl, rfl⟩ := hgoes
        exact ⟨⟨rfl, rfl, hcount, .inr (by omega)⟩, hothers⟩
      | waitFirst | waitSecond | lockFirst | lockSecond | removeSecond | unlock | postFirst =>
        obtain ⟨rfl, stage', rfl, hremoved⟩ := hgoes
        exact ⟨⟨rfl, by rw [hremoved]; exact hcount, hi⟩, hothers⟩
  -- another thread is outside the section
  · obtain ⟨hwired', hsame⟩ := hwired.step_other hstep (hrounds.holdsOp hne) hactor
    exact ⟨peers, lists, hwired', hsame ▸ hrounds, hothers⟩

/-- The unbinding takes `conn_op_mutex`. -/
theorem Wired.unbinds (h : Wired p s peers lists) (hthread : s.thread t = .unbindLock id)
    (hstep : Network.step p s (.step t) = some s') :
    lists = peers ∧ Unbinding p peers id (peers id).length t s' := by
  simp only [Network.step, stepThread, hthread, stepUnbindLock] at hstep
  split_ifs at hstep with hheld
  have hfree : s.connOpMutex = none := by simpa using hheld
  have hlength := (h.standsFor id).getListLength_eq
  rw [hlength] at hstep
  have henters : Enters p s s' t (.unbindLoop id 0 (lists id).length) := by
    rw [← Option.some.inj hstep]
    exact ⟨rfl, hfree, rfl, rfl, .inr ⟨id, _, hthread, hlength, rfl⟩⟩
  have hrest := h.rest hfree
  subst hrest
  refine ⟨rfl, lists, lists, (h.enters henters).1, ?_, fun c d _ _ => Iff.rfl⟩
  rw [henters.thread, Function.update_self]
  exact ⟨rfl, rfl, rfl, .inl rfl⟩

/-! ### What is left -/

/-- The channel is connected no more, and the connections between other channels are as they
were. -/
structure Disconnects (s s' : Network C T Ptr) (id : C) : Prop where
  empty : (s'.channel id).connections.isEmpty = true
  peers : ∀ c, (s'.channel c).connections.containsElement id = some false
  others : ∀ c d, c ≠ id → d ≠ id →
    (s'.channel c).connections.containsElement d = (s.channel c).connections.containsElement d

theorem Completes.unbinding {calls : List (NetworkEvent C T Ptr)}
    (h : Completes p t s calls s') (hself : Unbinding p before id n t s) :
    ∃ peers, Wired p s' peers peers ∧ (peers id).length = n / 2 ∧ OthersSame before peers id := by
  obtain ⟨peers, lists, hwired, hrounds, hothers⟩ : Unbinding p before id n t s' :=
    run_invariant (Unbinding p before id n t) (fun _ _ _ hs hne hstep => hs.step hne hstep) hself
      h.within h.run
  rw [h.returned] at hrounds
  obtain ⟨rfl, hhalf⟩ := hrounds
  exact ⟨lists, hwired, hhalf, hothers⟩

/-- **An unbinding disconnects the channel exactly when it has one connection at most: of `n` it
leaves `n / 2`.** -/
theorem disconnects_iff_le_one {events calls : List (NetworkEvent C T Ptr)}
    (hreach : run (Network.step p) (created C T Ptr) events = some s)
    (hcall : s.thread t = .unbindLock id) (hreturn : Completes p t s (.step t :: calls) s') :
    Disconnects s s' id ↔ ∃ n, (s.channel id).connections.getListLength = some n ∧ n ≤ 1 := by
  obtain ⟨before, lists, hwired⟩ := wired_run hreach
  obtain ⟨s₁, hstep, hrest⟩ := hreturn.first
  obtain ⟨rfl, hself⟩ := hwired.unbinds hcall hstep
  obtain ⟨peers, hwired', hhalf, hothers⟩ := hrest.unbinding hself
  have hcount : (s.channel id).connections.getListLength = some (lists id).length :=
    (hwired.standsFor id).getListLength_eq
  constructor
  · intro hall
    refine ⟨_, hcount, ?_⟩
    have hempty := hall.empty
    rw [(hwired'.standsFor id).isEmpty_eq, List.isEmpty_iff] at hempty
    rw [hempty, List.length_nil] at hhalf
    omega
  · rintro ⟨n, hn, hle⟩
    obtain rfl := Option.some.inj (hn.symm.trans hcount)
    have hnil : peers id = [] := List.eq_nil_of_length_eq_zero (by omega)
    refine ⟨?_, fun c => ?_, fun c d hc hd => ?_⟩
    · rw [(hwired'.standsFor id).isEmpty_eq, hnil]
      rfl
    · have hnot : id ∉ peers c := by
        intro hmem
        have hpeer := hwired'.graph.symm c id hmem
        rw [hnil] at hpeer
        cases hpeer
      rw [(hwired'.standsFor c).containsElement_eq, decide_eq_false hnot]
    · rw [(hwired'.standsFor c).containsElement_eq, (hwired.standsFor c).containsElement_eq,
        Option.some.injEq, decide_eq_decide]
      exact hothers c d hc hd

/-! ### One sender and two receivers -/

/-- A thread binds an outgoing channel to incoming ones and begins to unbind it. -/
def connectAll (receivers : List (Fin 3)) : List (NetworkEvent (Fin 3) (Fin 1) Unit) :=
  (receivers.flatMap fun c => .bind 0 0 c :: List.replicate 8 (.step 0)) ++ [.unbind 0 0]

/-- With two connections the loop ends behind the first round. -/
theorem two_connections_not_disconnected :
    ∃ s s', run (Network.step threePorts) (created (Fin 3) (Fin 1) Unit) (connectAll [1, 2]) =
        some s ∧ s.thread 0 = .unbindLock 0 ∧
      Completes threePorts 0 s (.step 0 :: List.replicate 11 (.step 0)) s' ∧
      ¬ Disconnects s s' 0 := by
  have hcompletes : completesBehind threePorts 0 (connectAll [1, 2]) (List.replicate 12 (.step 0))
      (.unbindLock 0) = true := rfl
  obtain ⟨s, s', hreach, hcall, hreturn⟩ := exists_completes hcompletes
  refine ⟨s, s', hreach, hcall, hreturn, fun hall => ?_⟩
  have hleft : ((run (Network.step threePorts) (created (Fin 3) (Fin 1) Unit)
      (connectAll [1, 2] ++ List.replicate 12 (.step 0))).map
        fun s => (s.channel 0).connections.isEmpty) = some false := by decide +kernel
  rw [run_append, hreach, Option.bind_some, hreturn.run, Option.map_some, hall.empty] at hleft
  cases hleft

theorem disconnects_iff_le_one_single :
    ∃ s s' : Network (Fin 3) (Fin 1) Unit, s.thread 0 = .unbindLock 0 ∧ s'.thread 0 = .idle ∧
      (Disconnects s s' 0 ↔ ∃ n, (s.channel 0).connections.getListLength = some n ∧ n ≤ 1) := by
  have hcompletes : completesBehind threePorts 0 (connectAll [1]) (List.replicate 12 (.step 0))
      (.unbindLock 0) = true := rfl
  obtain ⟨s, s', hreach, hcall, hreturn⟩ := exists_completes hcompletes
  exact ⟨s, s', hcall, hreturn.returned, disconnects_iff_le_one hreach hcall hreturn⟩

end Network

end InsenseCVM
