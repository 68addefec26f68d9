import InsenseCVM.Channels.Progress
import InsenseCVM.Channels.Wiring

/-!
# The steps of the threads

What one step of a thread in any of the four operations of `channel.c` does to the channels, as long
as no two channels are bound that are connected already (`ThreadStep`), and three things that every
such step keeps. A mutex is locked only while the thread that locked it needs it (`Held`): the exit
of `channel_bind` for connected channels would leave two locked. The token of a connected channel is
in its place, or a thread has it that gives it back (`Present`). The loop of `channel_unbind` counts
up to the length of the list (`Counted`).
-/

namespace InsenseCVM

/-- A list that is not empty hands out one of its elements. -/
theorem IteratedList.StandsFor.exists_next {α : Type} {l : IteratedList α} {xs : List α}
    (h : l.StandsFor xs) (hne : l.isEmpty = false) :
    ∃ x ∈ xs, ∃ l', l.getNextElement = some (some x, l') := by
  obtain ⟨cells, hrep, rfl⟩ := h
  have hcells : cells ≠ [] := by
    rintro rfl
    rw [hrep.isEmpty_eq] at hne
    cases hne
  obtain ⟨r, hrot⟩ := hrep.exists_rotatedAt hcells
  cases r with
  | nil => exact absurd rfl hrot.ne_nil
  | cons c r =>
    obtain ⟨q, hget, -⟩ := hrep.getNextElement_rotate hrot
    have hmem : c ∈ cells := hrot.perm.mem_iff.1 List.mem_cons_self
    exact ⟨c.2, List.mem_map_of_mem hmem, _, hget⟩

namespace Network

open Transition

variable {C T Ptr : Type} [DecidableEq C] [DecidableEq T]

/-! ### What the calls are promised -/

/-- Two channels are not bound again while they are connected. -/
def BindsNew (s : Network C T Ptr) : NetworkEvent C T Ptr → Prop
  | .step t =>
    match s.thread t with
    | .bind .insertFirst id1 id2 => (s.channel id1).connections.containsElement id2 = some false
    | _ => True
  | _ => True

/-- Sends are on outgoing channels, receives on incoming ones. -/
def Directed (p : Ports C) : NetworkEvent C T Ptr → Prop
  | .send _ cout _ => p.direction cout = .chanOut
  | .receive _ cin => p.direction cin = .chanIn
  | _ => True

def Careful (p : Ports C) (s : Network C T Ptr) (e : NetworkEvent C T Ptr) : Prop :=
  BindsAvailable s e ∧ BindsNew s e ∧ Directed p e

instance (s : Network C T Ptr) : ∀ e, Decidable (BindsNew s e)
  | .bind _ _ _ | .unbind _ _ | .send _ _ _ | .receive _ _ => isTrue trivial
  | .step t =>
    match hthread : s.thread t with
    | .bind .insertFirst id1 id2 =>
      decidable_of_iff ((s.channel id1).connections.containsElement id2 = some false)
        (by simp only [BindsNew, hthread])
    | .bind .lockOp _ _ | .bind .lockFirst _ _ | .bind .lockSecond _ _ | .bind .insertSecond _ _
    | .bind .postFirst _ _ | .bind .postSecond _ _ | .bind .unlock _ _
    | .idle | .unbindLock _ | .unbindLoop _ _ _ | .unbind _ _ _ _ | .send _ _ _ | .receive _ _ =>
      isTrue (by simp only [BindsNew, hthread])

instance (p : Ports C) : ∀ e : NetworkEvent C T Ptr, Decidable (Directed p e)
  | .send _ cout _ => inferInstanceAs (Decidable (p.direction cout = .chanOut))
  | .receive _ cin => inferInstanceAs (Decidable (p.direction cin = .chanIn))
  | .bind _ _ _ | .unbind _ _ | .step _ => isTrue trivial

instance (p : Ports C) (s : Network C T Ptr) (e : NetworkEvent C T Ptr) :
    Decidable (Careful p s e) :=
  inferInstanceAs (Decidable (_ ∧ _ ∧ _))

/-! ### The steps of a thread -/

/-- The channels after a step of `t`, and where the thread is then. -/
inductive ThreadStep (p : Ports C) (s : Network C T Ptr) (t : T) :
    Activity C Ptr → (C → Endpoint C T Ptr) → Activity C Ptr → Prop
  | bindRefused (id1 id2 : C) : ThreadStep p s t (.bind .lockOp id1 id2) s.channel .idle
  | bindEnters (id1 id2 : C) :
      ThreadStep p s t (.bind .lockOp id1 id2) s.channel (.bind .lockFirst id1 id2)
  | bindLockFirst (id1 id2 : C) : ThreadStep p s t (.bind .lockFirst id1 id2)
      (s.modify (p.first id1 id2) fun ch => { ch with mutex := some t }).channel
      (.bind .lockSecond id1 id2)
  | bindLockSecond (id1 id2 : C) : ThreadStep p s t (.bind .lockSecond id1 id2)
      (s.modify (p.second id1 id2) fun ch => { ch with mutex := some t }).channel
      (.bind .insertFirst id1 id2)
  | bindInsertFirst (id1 id2 : C) : ThreadStep p s t (.bind .insertFirst id1 id2)
      (s.modify id1 fun ch =>
        { ch with connections := ch.connections.insertElement (some id2) }).channel
      (.bind .insertSecond id1 id2)
  | bindInsertSecond (id1 id2 : C) : ThreadStep p s t (.bind .insertSecond id1 id2)
      (s.modify id2 fun ch =>
        { ch with connections := ch.connections.insertElement (some id1) }).channel
      (.bind .postFirst id1 id2)
  | bindPostFirst (id1 id2 : C) : ThreadStep p s t (.bind .postFirst id1 id2)
      (s.postConns id1).channel (.bind .postSecond id1 id2)
  | bindPostSecond (id1 id2 : C) : ThreadStep p s t (.bind .postSecond id1 id2)
      (s.postConns id2).channel (.bind .unlock id1 id2)
  | bindUnlock (id1 id2 : C) : ThreadStep p s t (.bind .unlock id1 id2)
      ((s.unlock id1).unlock id2).channel .idle
  | unbindEnters (id : C) (length : ℕ)
      (hlength : (s.channel id).connections.getListLength = some length) :
      ThreadStep p s t (.unbindLock id) s.channel (.unbindLoop id 0 length)
  | unbindNext (id opposite : C) (i length : ℕ) (hlt : i < length) :
      ThreadStep p s t (.unbindLoop id i length) s.channel (.unbind .waitFirst id opposite i)
  | unbindReturns (id : C) (i length : ℕ) :
      ThreadStep p s t (.unbindLoop id i length) s.channel .idle
  | unbindWaitFirst (id opposite : C) (i : ℕ) : ThreadStep p s t (.unbind .waitFirst id opposite i)
      (s.modify (p.first id opposite) fun ch => { ch with connsSem := false }).channel
      (.unbind .waitSecond id opposite i)
  | unbindWaitSecond (id opposite : C) (i : ℕ) :
      ThreadStep p s t (.unbind .waitSecond id opposite i)
      (s.modify (p.second id opposite) fun ch => { ch with connsSem := false }).channel
      (.unbind .lockFirst id opposite i)
  | unbindLockFirst (id opposite : C) (i : ℕ) : ThreadStep p s t (.unbind .lockFirst id opposite i)
      (s.modify (p.first id opposite) fun ch => { ch with mutex := some t }).channel
      (.unbind .lockSecond id opposite i)
  | unbindLockSecond (id opposite : C) (i : ℕ) :
      ThreadStep p s t (.unbind .lockSecond id opposite i)
      (s.modify (p.second id opposite) fun ch => { ch with mutex := some t }).channel
      (.unbind .removeFirst id opposite i)
  | unbindRemoveFirst (id opposite : C) (i : ℕ) (connections : IteratedList C)
      (hremove : (s.channel id).connections.removeElement (some opposite) = some connections) :
      ThreadStep p s t (.unbind .removeFirst id opposite i)
        (s.modify id fun ch => { ch with connections := connections }).channel
        (.unbind .removeSecond id opposite i)
  | unbindRemoveSecond (id opposite : C) (i : ℕ) (connections : IteratedList C)
      (hremove : (s.channel opposite).connections.removeElement (some id) = some connections) :
      ThreadStep p s t (.unbind .removeSecond id opposite i)
        (s.modify opposite fun ch => { ch with connections := connections }).channel
        (.unbind .unlock id opposite i)
  | unbindUnlock (id opposite : C) (i : ℕ) : ThreadStep p s t (.unbind .unlock id opposite i)
      ((s.unlock id).unlock opposite).channel (.unbind .postFirst id opposite i)
  | unbindLeavesFirst (id opposite : C) (i : ℕ)
      (hempty : (s.channel id).connections.isEmpty = true) :
      ThreadStep p s t (.unbind .postFirst id opposite i) s.channel
        (.unbind .postSecond id opposite i)
  | unbindPostFirst (id opposite : C) (i : ℕ) : ThreadStep p s t (.unbind .postFirst id opposite i)
      (s.postConns id).channel (.unbind .postSecond id opposite i)
  | unbindLeavesSecond (id opposite : C) (i length : ℕ)
      (hlength : (s.channel id).connections.getListLength = some length)
      (hempty : (s.channel opposite).connections.isEmpty = true) :
      ThreadStep p s t (.unbind .postSecond id opposite i) s.channel (.unbindLoop id (i + 1) length)
  | unbindPostSecond (id opposite : C) (i length : ℕ)
      (hlength : (s.channel id).connections.getListLength = some length) :
      ThreadStep p s t (.unbind .postSecond id opposite i) (s.postConns opposite).channel
        (.unbindLoop id (i + 1) length)
  | send {pc : SendPc C} {cout : C} {data : Ptr} {u : Network C T Ptr} {activity : Activity C Ptr}
      (hstep : SendStep s cout data pc u activity)
      (heq : s.stepSend t cout data pc = some (u.go t activity)) :
      ThreadStep p s t (.send pc cout data) u.channel activity
  | receive {pc : ReceivePc} {cin : C} {u : Network C T Ptr} {activity : Activity C Ptr}
      (hstep : ReceiveStep s cin pc u activity)
      (heq : s.stepReceive t cin pc = some (u.go t activity)) :
      ThreadStep p s t (.receive pc cin) u.channel activity

variable {p : Ports C} {s s' : Network C T Ptr} {t u : T} {before activity : Activity C Ptr}
  {channel : C → Endpoint C T Ptr} {c d id1 id2 id opposite cout cin : C} {i length : ℕ}
  {peers lists : C → List C}

/-- The step leads the thread on from `before`. -/
def Leads (p : Ports C) (s s' : Network C T Ptr) (t : T) (before : Activity C Ptr) : Prop :=
  ∃ activity, ThreadStep p s t before s'.channel activity ∧
    s'.thread = Function.update s.thread t activity

omit [DecidableEq T] in
theorem SendStep.thread_eq {data : Ptr} {pc : SendPc C} {v : Network C T Ptr}
    (h : SendStep s cout data pc v activity) : v.thread = s.thread := by
  cases h <;> rfl

omit [DecidableEq T] in
theorem ReceiveStep.thread_eq {pc : ReceivePc} {v : Network C T Ptr}
    (h : ReceiveStep s cin pc v activity) : v.thread = s.thread := by
  cases h <;> rfl

theorem leads_of_stepBind {stage : BindStage} (hthread : s.thread t = .bind stage id1 id2)
    (hnew : BindsNew s (.step t)) (h : s.stepBind p t id1 id2 stage = some s') :
    Leads p s s' t (.bind stage id1 id2) := by
  cases stage with
  | lockOp =>
    simp only [stepBind] at h
    split_ifs at h with hheld hdirection hsize
    · cases h
      exact ⟨_, .bindRefused id1 id2, rfl⟩
    · cases h
      exact ⟨_, .bindRefused id1 id2, rfl⟩
    · cases h
      exact ⟨_, .bindEnters id1 id2, rfl⟩
  | lockFirst =>
    obtain ⟨-, rfl⟩ := lock_eq h
    exact ⟨_, .bindLockFirst id1 id2, rfl⟩
  | lockSecond =>
    obtain ⟨-, rfl⟩ := lock_eq h
    exact ⟨_, .bindLockSecond id1 id2, rfl⟩
  | insertFirst =>
    simp only [BindsNew, hthread] at hnew
    simp only [stepBind, hnew] at h
    cases h
    exact ⟨_, .bindInsertFirst id1 id2, rfl⟩
  | insertSecond =>
    cases h
    exact ⟨_, .bindInsertSecond id1 id2, rfl⟩
  | postFirst =>
    cases h
    exact ⟨_, .bindPostFirst id1 id2, rfl⟩
  | postSecond =>
    cases h
    exact ⟨_, .bindPostSecond id1 id2, rfl⟩
  | unlock =>
    cases h
    exact ⟨_, .bindUnlock id1 id2, rfl⟩

theorem leads_of_stepUnbind {stage : UnbindStage}
    (h : s.stepUnbind p t id opposite i stage = some s') :
    Leads p s s' t (.unbind stage id opposite i) := by
  cases stage with
  | waitFirst =>
    obtain rfl := waitConns_eq h
    exact ⟨_, .unbindWaitFirst id opposite i, rfl⟩
  | waitSecond =>
    obtain rfl := waitConns_eq h
    exact ⟨_, .unbindWaitSecond id opposite i, rfl⟩
  | lockFirst =>
    obtain ⟨-, rfl⟩ := lock_eq h
    exact ⟨_, .unbindLockFirst id opposite i, rfl⟩
  | lockSecond =>
    obtain ⟨-, rfl⟩ := lock_eq h
    exact ⟨_, .unbindLockSecond id opposite i, rfl⟩
  | removeFirst =>
    simp only [stepUnbind, Option.bind_eq_bind, Option.bind_eq_some_iff] at h
    obtain ⟨connections, hremove, h⟩ := h
    cases h
    exact ⟨_, .unbindRemoveFirst id opposite i connections hremove, rfl⟩
  | removeSecond =>
    simp only [stepUnbind, Option.bind_eq_bind, Option.bind_eq_some_iff] at h
    obtain ⟨connections, hremove, h⟩ := h
    cases h
    exact ⟨_, .unbindRemoveSecond id opposite i connections hremove, rfl⟩
  | unlock =>
    cases h
    exact ⟨_, .unbindUnlock id opposite i, rfl⟩
  | postFirst =>
    simp only [stepUnbind] at h
    split_ifs at h with hempty
    · cases h
      exact ⟨_, .unbindLeavesFirst id opposite i hempty, rfl⟩
    · cases h
      exact ⟨_, .unbindPostFirst id opposite i, rfl⟩
  | postSecond =>
    simp only [stepUnbind, Option.bind_eq_bind, Option.bind_eq_some_iff] at h
    obtain ⟨length, hlength, h⟩ := h
    split_ifs at h with hempty
    · cases h
      exact ⟨_, .unbindLeavesSecond id opposite i length hlength hempty, rfl⟩
    · cases h
      exact ⟨_, .unbindPostSecond id opposite i length hlength, rfl⟩

/-- **What a thread can do in a step that does not bind connected channels.** -/
theorem leads_of_step (hnew : BindsNew s (.step t)) (h : step p s (.step t) = some s') :
    Leads p s s' t (s.thread t) := by
  simp only [step, stepThread] at h
  cases hthread : s.thread t with
  | idle =>
    rw [hthread] at h
    cases h
  | bind stage id1 id2 =>
    rw [hthread] at h
    exact leads_of_stepBind hthread hnew h
  | unbindLock id =>
    rw [hthread] at h
    simp only [stepUnbindLock] at h
    split_ifs at h with hheld
    simp only [Option.bind_eq_bind, Option.bind_eq_some_iff] at h
    obtain ⟨length, hlength, h⟩ := h
    cases h
    exact ⟨_, .unbindEnters id length hlength, rfl⟩
  | unbindLoop id i length =>
    rw [hthread] at h
    simp only [stepUnbindLoop] at h
    split_ifs at h with hlt
    · simp only [Option.bind_eq_bind, Option.bind_eq_some_iff] at h
      obtain ⟨element, -, opposite, -, h⟩ := h
      cases h
      exact ⟨_, .unbindNext id opposite i length hlt, rfl⟩
    · cases h
      exact ⟨_, .unbindReturns id i length, rfl⟩
  | unbind stage id opposite i =>
    rw [hthread] at h
    exact leads_of_stepUnbind h
  | send pc cout data =>
    rw [hthread] at h
    obtain ⟨u, activity, hstep, rfl⟩ := sendStep_of_stepSend h
    refine ⟨activity, (.send hstep h : ThreadStep p s t _ u.channel activity), ?_⟩
    show Function.update u.thread t activity = _
    rw [hstep.thread_eq]
  | receive pc cin =>
    rw [hthread] at h
    obtain ⟨u, activity, hstep, rfl⟩ := receiveStep_of_stepReceive h
    refine ⟨activity, (.receive hstep h : ThreadStep p s t _ u.channel activity), ?_⟩
    show Function.update u.thread t activity = _
    rw [hstep.thread_eq]

/-! ### Mutexes -/

/-- A mutex is locked only while the thread that locked it is where it needs it. -/
def Held (p : Ports C) (s : Network C T Ptr) : Prop :=
  ∀ t c, (s.channel c).mutex = some t → (s.thread t).Locks p c

omit [DecidableEq T] in
theorem forall_modify {P : C → Endpoint C T Ptr → Prop} {f : Endpoint C T Ptr → Endpoint C T Ptr}
    (h : ∀ d ≠ c, P d (s.channel d)) (hc : P c (f (s.channel c))) (d : C) :
    P d ((s.modify c f).channel d) := by
  by_cases hd : d = c
  · subst hd
    rwa [modify_channel_self]
  · rw [modify_channel_of_ne _ _ hd]
    exact h d hd

omit [DecidableEq T] in
theorem unlock_mutex : (((s.unlock id1).unlock id2).channel c).mutex = some t →
    (s.channel c).mutex = some t ∧ ¬ (c = id1 ∨ c = id2) := by
  intro h
  by_cases h2 : c = id2
  · subst h2
    rw [unlock, modify_channel_self] at h
    cases h
  · rw [unlock, modify_channel_of_ne _ _ h2] at h
    by_cases h1 : c = id1
    · subst h1
      rw [unlock, modify_channel_self] at h
      cases h
    · rw [unlock, modify_channel_of_ne _ _ h1] at h
      exact ⟨h, fun hor => hor.elim h1 h2⟩

theorem ThreadStep.locks (hstep : ThreadStep p s t before channel activity)
    (hbefore : ∀ c, (s.channel c).mutex = some t → before.Locks p c) (c : C)
    (hc : (channel c).mutex = some t) : activity.Locks p c := by
  have hsame : ∀ {c d : C} {f : Endpoint C T Ptr → Endpoint C T Ptr},
      (f (s.channel c)).mutex = (s.channel c).mutex →
        ((s.modify c f).channel d).mutex = some t → (s.channel d).mutex = some t := by
    intro c d f hf hd
    rwa [mutex_modify hf] at hd
  have hlock : ∀ {c d : C}, ((s.modify c fun ch => { ch with mutex := some t }).channel d).mutex =
      some t → d = c ∨ (s.channel d).mutex = some t := by
    intro c d hd
    by_cases hdc : d = c
    · exact .inl hdc
    · rw [modify_channel_of_ne _ _ hdc] at hd
      exact .inr hd
  cases hstep with
  | bindRefused id1 id2 => exact (hbefore c hc).elim
  | bindEnters id1 id2 => exact (hbefore c hc).elim
  | bindLockFirst id1 id2 => exact (hlock hc).resolve_right fun h => (hbefore c h).elim
  | bindLockSecond id1 id2 =>
    rcases hlock hc with h | h
    · exact (first_or_second p).1 (.inr h)
    · exact (first_or_second p).1 (.inl (hbefore c h))
  | bindInsertFirst id1 id2 => exact hbefore c (hsame rfl hc)
  | bindInsertSecond id1 id2 => exact hbefore c (hsame rfl hc)
  | bindPostFirst id1 id2 => exact hbefore c (hsame rfl hc)
  | bindPostSecond id1 id2 => exact hbefore c (hsame rfl hc)
  | bindUnlock id1 id2 =>
    obtain ⟨hold, hnot⟩ := unlock_mutex hc
    exact absurd (hbefore c hold) hnot
  | unbindEnters id length hlength => exact (hbefore c hc).elim
  | unbindNext id opposite i length hlt => exact (hbefore c hc).elim
  | unbindReturns id i length => exact (hbefore c hc).elim
  | unbindWaitFirst id opposite i => exact (hbefore c (hsame rfl hc)).elim
  | unbindWaitSecond id opposite i => exact (hbefore c (hsame rfl hc)).elim
  | unbindLockFirst id opposite i => exact (hlock hc).resolve_right fun h => (hbefore c h).elim
  | unbindLockSecond id opposite i =>
    rcases hlock hc with h | h
    · exact (first_or_second p).1 (.inr h)
    · exact (first_or_second p).1 (.inl (hbefore c h))
  | unbindRemoveFirst id opposite i connections hremove => exact hbefore c (hsame rfl hc)
  | unbindRemoveSecond id opposite i connections hremove => exact hbefore c (hsame rfl hc)
  | unbindUnlock id opposite i =>
    obtain ⟨hold, hnot⟩ := unlock_mutex hc
    exact absurd (hbefore c hold) hnot
  | unbindLeavesFirst id opposite i hempty => exact (hbefore c hc).elim
  | unbindPostFirst id opposite i => exact (hbefore c (hsame rfl hc)).elim
  | unbindLeavesSecond id opposite i length hlength hempty => exact (hbefore c hc).elim
  | unbindPostSecond id opposite i length hlength => exact (hbefore c (hsame rfl hc)).elim
  | send hstep heq =>
    obtain ⟨_, hout⟩ := outside_send heq
    exact (hbefore c ((hout.keeps c).mutex.symm.trans hc)).elim
  | receive hstep heq =>
    obtain ⟨_, hout⟩ := outside_receive heq
    exact (hbefore c ((hout.keeps c).mutex.symm.trans hc)).elim

theorem Held.step (h : Held p s) (hleads : Leads p s s' t (s.thread t))
    (hothers : LeavesMutexes s s' t) :
    Held p s' := by
  obtain ⟨activity, hstep, hthread⟩ := hleads
  intro u c hc
  rw [hthread]
  by_cases hu : u = t
  · subst hu
    rw [Function.update_self]
    exact hstep.locks (h u) c hc
  · rw [Function.update_of_ne hu]
    exact h u c ((hothers u hu c).1 hc)

/-! ### Tokens -/

/-- The thread has the token of `c`, or is about to post it for a first connection. -/
def Answers (p : Ports C) (a : Activity C Ptr) (c : C) : Prop := a.Owns p c ∨ a.Pending c

/-- The token of a connected channel is in its place, or some thread answers for it. -/
def Present (p : Ports C) (s : Network C T Ptr) : Prop :=
  ∀ c, (s.channel c).connections.isEmpty = false →
    (s.channel c).connsSem = true ∨ ∃ t, Answers p (s.thread t) c

omit [DecidableEq C] [DecidableEq T] in
theorem answers_carried (hne : (channel c).connections.isEmpty = false)
    (hempty : (channel c).connections.isEmpty = (s.channel c).connections.isEmpty)
    (hsem : (channel c).connsSem = (s.channel c).connsSem)
    (hkeep : Answers p before c → Answers p activity c) :
    (channel c).connsSem = true ∨ Answers p activity c ∨
      ((s.channel c).connections.isEmpty = false ∧ (s.channel c).connsSem = false ∧
        ¬ Answers p before c) := by
  by_cases hbefore : Answers p before c
  · exact .inr (.inl (hkeep hbefore))
  · cases htoken : (s.channel c).connsSem with
    | true => exact .inl (hsem.trans htoken)
    | false => exact .inr (.inr ⟨hempty.symm.trans hne, rfl, hbefore⟩)

omit [DecidableEq C] [DecidableEq T] in
theorem answers_quiet (hne : (channel c).connections.isEmpty = false)
    (hquiet : (s.channel c).Quiet (channel c))
    (hkeep : Answers p before c → Answers p activity c) :
    (channel c).connsSem = true ∨ Answers p activity c ∨
      ((s.channel c).connections.isEmpty = false ∧ (s.channel c).connsSem = false ∧
        ¬ Answers p before c) :=
  answers_carried hne (sameNodes_isEmpty hquiet.nodes) hquiet.sem hkeep

omit [DecidableEq C] in
theorem Answers.elim {P : Prop} (h : Answers p before c) (hsection : ¬ before.InSection c)
    (hunbinds : ¬ before.Unbinds p c) (hpending : ¬ before.Pending c) : P := by
  rcases h with (h | h) | h
  · exact absurd h hsection
  · exact absurd h hunbinds
  · exact absurd h hpending

/-- What a step of a thread does for the token of a channel. -/
theorem ThreadStep.answers (hstep : ThreadStep p s t before channel activity) (c : C)
    (hne : (channel c).connections.isEmpty = false) :
    (channel c).connsSem = true ∨ Answers p activity c ∨
      ((s.channel c).connections.isEmpty = false ∧ (s.channel c).connsSem = false ∧
        ¬ Answers p before c) := by
  have hself : ∀ d, (s.channel d).Quiet (s.channel d) := fun _ => quiet_refl _
  have hother : ∀ {d : C} {f : Endpoint C T Ptr → Endpoint C T Ptr}, c ≠ d →
      (s.channel c).Quiet ((s.modify d f).channel c) := by
    intro d f hc
    rw [modify_channel_of_ne _ _ hc]
    exact hself c
  have hmutex : ∀ {d : C} {holder : Option T},
      (s.channel c).Quiet ((s.modify d fun ch => { ch with mutex := holder }).channel c) :=
    quiet_modify hself ⟨rfl, sameNodes_refl _⟩ c
  have hpost : ∀ {d : C}, c = d → ((s.postConns d).channel c).connsSem = true := by
    rintro d rfl
    exact (postConns_channel s c).1
  cases hstep with
  | bindRefused id1 id2 =>
    exact answers_quiet hne (hself c) fun h => h.elim not_false not_false not_false
  | bindEnters id1 id2 => exact answers_quiet hne (hself c) id
  | bindLockFirst id1 id2 => exact answers_quiet hne hmutex id
  | bindLockSecond id1 id2 => exact answers_quiet hne hmutex id
  | bindInsertFirst id1 id2 =>
    by_cases hc : c = id1
    · exact .inr (.inl (.inr hc))
    · exact answers_quiet hne (hother hc) fun h => h.elim not_false not_false not_false
  | bindInsertSecond id1 id2 =>
    by_cases hc : c = id2
    · exact .inr (.inl (.inr (.inr hc)))
    · exact answers_quiet hne (hother hc) fun h =>
        .inr (.inl (h.resolve_left (not_or.2 ⟨id, id⟩)))
  | bindPostFirst id1 id2 =>
    by_cases hc : c = id1
    · exact .inl (hpost hc)
    · exact answers_quiet hne (hother hc) fun h =>
        .inr ((h.resolve_left (not_or.2 ⟨id, id⟩)).resolve_left hc)
  | bindPostSecond id1 id2 =>
    by_cases hc : c = id2
    · exact .inl (hpost hc)
    · exact answers_quiet hne (hother hc) fun h => h.elim not_false not_false hc
  | bindUnlock id1 id2 =>
    exact answers_quiet hne (quiet_unlock (quiet_unlock hself) c) fun h =>
      h.elim not_false not_false not_false
  | unbindEnters id length hlength =>
    exact answers_quiet hne (hself c) fun h => h.elim not_false not_false not_false
  | unbindNext id opposite i length hlt =>
    exact answers_quiet hne (hself c) fun h => h.elim not_false not_false not_false
  | unbindReturns id i length =>
    exact answers_quiet hne (hself c) fun h => h.elim not_false not_false not_false
  | unbindWaitFirst id opposite i =>
    by_cases hc : c = p.first id opposite
    · exact .inr (.inl (.inl (.inr hc)))
    · exact answers_quiet hne (hother hc) fun h =>
      h.elim not_false not_false not_false
  | unbindWaitSecond id opposite i =>
    by_cases hc : c = p.second id opposite
    · exact .inr (.inl (.inl (.inr ((first_or_second p).1 (.inr hc)))))
    · refine answers_quiet hne (hother hc) fun h => ?_
      rcases h with (h | h) | h
      · exact h.elim
      · exact .inl (.inr ((first_or_second p).1 (.inl h)))
      · exact h.elim
  | unbindLockFirst id opposite i => exact answers_quiet hne hmutex fun h => h
  | unbindLockSecond id opposite i => exact answers_quiet hne hmutex fun h => h
  | unbindRemoveFirst id opposite i connections hremove =>
    by_cases hc : c = id
    · exact .inr (.inl (.inl (.inr (.inl hc))))
    · exact answers_quiet hne (hother hc) fun h => h
  | unbindRemoveSecond id opposite i connections hremove =>
    by_cases hc : c = opposite
    · exact .inr (.inl (.inl (.inr (.inr hc))))
    · exact answers_quiet hne (hother hc) fun h => h
  | unbindUnlock id opposite i =>
    exact answers_quiet hne (quiet_unlock (quiet_unlock hself) c) fun h => h
  | unbindLeavesFirst id opposite i hempty =>
    refine answers_quiet hne (hself c) fun h => ?_
    rcases h with (h | h) | h
    · exact h.elim
    · -- its list has become empty, so there is no token any more
      rcases h with rfl | h
      · exact absurd (hne.symm.trans hempty) (by decide)
      · exact .inl (.inr h)
    · exact h.elim
  | unbindPostFirst id opposite i =>
    by_cases hc : c = id
    · exact .inl (hpost hc)
    · refine answers_quiet hne (hother hc) fun h => ?_
      rcases h with (h | h) | h
      · exact h.elim
      · exact .inl (.inr (h.resolve_left hc))
      · exact h.elim
  | unbindLeavesSecond id opposite i length hlength hempty =>
    refine answers_quiet hne (hself c) fun h => ?_
    rcases h with (h | h) | h
    · exact h.elim
    · obtain rfl : c = opposite := h
      exact absurd (hne.symm.trans hempty) (by decide)
    · exact h.elim
  | unbindPostSecond id opposite i length hlength =>
    by_cases hc : c = opposite
    · exact .inl (hpost hc)
    · exact answers_quiet hne (hother hc) fun h =>
        h.elim not_false hc not_false
  | @send pc cout data u activity hstep heq =>
    cases hstep with
    | waitConns hsem =>
      by_cases hc : c = cout
      · exact .inr (.inl (.inl (.inl ⟨hc, rfl⟩)))
      · exact answers_quiet hne (hother hc) fun h =>
          h.elim (by rintro ⟨-, ⟨⟩⟩) not_false not_false
    | setReady length =>
      exact answers_quiet hne (quiet_modify hself ⟨rfl, sameNodes_refl _⟩ c) fun h => h
    | taken i length receiver connections pair hget hmatch =>
      obtain ⟨hcout, hreceiver⟩ := sendMatch_keeps hmatch
      exact answers_quiet hne
        (quiet_match (quiet_cursor (sameNodes_getNextElement hget)) hcout hreceiver c) fun h => h
    | passed i length receiver connections hget =>
      exact answers_quiet hne (quiet_cursor (sameNodes_getNextElement hget) c) fun h => h
    | scanned i length =>
      by_cases hc : c = cout
      · exact .inl (hpost hc)
      · exact answers_quiet hne (hother hc) fun h =>
          h.elim (fun h => hc h.1) not_false not_false
    | acknowledged receiver =>
      exact answers_quiet hne (quiet_modify hself ⟨rfl, sameNodes_refl _⟩ c) fun h => h
    | returned =>
      by_cases hc : c = cout
      · exact .inl (hpost hc)
      · exact answers_quiet hne (hother hc) fun h =>
          h.elim (fun h => hc h.1) not_false not_false
    | woken =>
      exact answers_quiet hne (quiet_modify hself ⟨rfl, sameNodes_refl _⟩ c) fun h =>
        h.elim (by rintro ⟨-, ⟨⟩⟩) not_false not_false
  | @receive pc cin u activity hstep heq =>
    cases hstep with
    | waitConns hsem =>
      by_cases hc : c = cin
      · exact .inr (.inl (.inl (.inl ⟨hc, rfl⟩)))
      · exact answers_quiet hne (hother hc) fun h =>
          h.elim (by rintro ⟨-, ⟨⟩⟩) not_false not_false
    | setReady length =>
      exact answers_quiet hne (quiet_modify hself ⟨rfl, sameNodes_refl _⟩ c) fun h => h
    | taken i length sender connections pair hget hmatch =>
      obtain ⟨hcin, hsender⟩ := receiveMatch_keeps hmatch
      exact answers_quiet hne
        (quiet_match (quiet_cursor (sameNodes_getNextElement hget)) hcin hsender c) fun h => h
    | passed i length sender connections hget =>
      exact answers_quiet hne (quiet_cursor (sameNodes_getNextElement hget) c) fun h => h
    | scanned i length =>
      by_cases hc : c = cin
      · exact .inl (hpost hc)
      · exact answers_quiet hne (hother hc) fun h =>
          h.elim (fun h => hc h.1) not_false not_false
    | returned =>
      by_cases hc : c = cin
      · exact .inl (hpost hc)
      · exact answers_quiet hne (hother hc) fun h =>
          h.elim (fun h => hc h.1) not_false not_false
    | woken =>
      exact answers_quiet hne (quiet_modify hself ⟨rfl, sameNodes_refl _⟩ c) fun h =>
        h.elim (by rintro ⟨-, ⟨⟩⟩) not_false not_false
    | copied =>
      exact answers_quiet hne (hself c) fun h =>
        h.elim (by rintro ⟨-, ⟨⟩⟩) not_false not_false
    | posted =>
      exact answers_quiet hne (quiet_modify hself ⟨rfl, sameNodes_refl _⟩ c) fun h =>
        h.elim (by rintro ⟨-, ⟨⟩⟩) not_false not_false

theorem Present.step (h : Present p s) (hleads : Leads p s s' t (s.thread t)) : Present p s' := by
  obtain ⟨activity, hstep, hthread⟩ := hleads
  intro c hne
  rcases hstep.answers c hne with hsem | hanswers | ⟨hempty, hsem, hnot⟩
  · exact .inl hsem
  · refine .inr ⟨t, ?_⟩
    rw [hthread, Function.update_self]
    exact hanswers
  · obtain ⟨u, hu⟩ := (h c hempty).resolve_left (by rw [hsem]; decide)
    have hut : u ≠ t := by
      rintro rfl
      exact hnot hu
    refine .inr ⟨u, ?_⟩
    rw [hthread, Function.update_of_ne hut]
    exact hu

/-! ### The loop of an unbinding -/

/-- The loop of `channel_unbind` runs up to the length that the list has. -/
def Counted (s : Network C T Ptr) : Prop :=
  ∀ t id i length, s.thread t = .unbindLoop id i length →
    (s.channel id).connections.getListLength = some length

theorem Counted.step (h : Counted s) (hwired : Wired p s peers lists)
    (hleads : Leads p s s' t (s.thread t)) (hstep : Network.step p s (.step t) = some s') :
    Counted s' := by
  obtain ⟨activity, hmove, hthread⟩ := hleads
  intro u id i length hu
  by_cases hut : u = t
  · subst hut
    rw [hthread, Function.update_self] at hu
    subst hu
    generalize s.thread u = before at hmove
    generalize s'.channel = channel at hmove
    cases hmove with
    | unbindEnters id length hlength => exact hlength
    | unbindLeavesSecond id opposite i length hlength hempty => exact hlength
    | unbindPostSecond id opposite i length hlength =>
      refine forall_modify (P := fun c ch => c = id → ch.connections.getListLength = some length)
        (fun d _ hd => hd ▸ hlength) (fun hd => ?_) id rfl
      subst hd
      exact hlength
    | send hsend heq => cases hsend
    | receive hreceive heq => cases hreceive
  · rw [hthread, Function.update_of_ne hut] at hu
    have hop : (s.thread u).HoldsOp := by
      rw [hu]
      trivial
    obtain ⟨hwired', -⟩ := hwired.step_other hstep hop (Ne.symm hut)
    rw [(hwired'.standsFor id).getListLength_eq, ← (hwired.standsFor id).getListLength_eq]
    exact h u id i length hu

end Network

end InsenseCVM
