import InsenseCVM.Channels.Exclusion
import InsenseCVM.Channels.ConnectionGraph

/-!
# Mutexes and connection lists under any interleaving

What holds of the mutexes and the connection lists in every state that the threads can reach, in
whatever order they step: `conn_op_mutex` is held by the thread that is in the section of a binding
or an unbinding, which holds the mutexes it has locked and not unlocked, and the lists are those of
a graph up to the edit that this thread has begun. A thread outside the section moves cursors only.
-/

namespace InsenseCVM

/-! ### Within the section -/

namespace Activity

variable {C Ptr : Type}

/-- The thread has locked the mutex of `c` in its call and has not unlocked it. -/
def Locks (p : Ports C) : Activity C Ptr → C → Prop
  | .bind .lockSecond id1 id2, c => c = p.first id1 id2
  | .bind .insertFirst id1 id2, c | .bind .insertSecond id1 id2, c | .bind .postFirst id1 id2, c
  | .bind .postSecond id1 id2, c | .bind .unlock id1 id2, c => c = id1 ∨ c = id2
  | .unbind .lockSecond id opposite _, c => c = p.first id opposite
  | .unbind .removeFirst id opposite _, c | .unbind .removeSecond id opposite _, c
  | .unbind .unlock id opposite _, c => c = id ∨ c = opposite
  | _, _ => False

variable [DecidableEq C]

/-- How far the lists are from those of the graph when the thread is at this place. -/
def Edits (p : Ports C) (peers lists : C → List C) : Activity C Ptr → Prop
  | .bind .lockFirst id1 id2 | .bind .lockSecond id1 id2 | .bind .insertFirst id1 id2 =>
    p.direction id1 ≠ p.direction id2 ∧ p.typesize id1 = p.typesize id2 ∧ lists = peers
  | .bind .insertSecond id1 id2 =>
    peers id2 = id1 :: lists id2 ∧ ∀ c ≠ id2, lists c = peers c
  | .bind .postFirst _ _ | .bind .postSecond _ _ | .bind .unlock _ _ => lists = peers
  | .unbindLoop _ _ _ => lists = peers
  | .unbind .waitFirst id opposite _ | .unbind .waitSecond id opposite _
  | .unbind .lockFirst id opposite _ | .unbind .lockSecond id opposite _
  | .unbind .removeFirst id opposite _ => opposite ∈ peers id ∧ lists = peers
  | .unbind .removeSecond id opposite _ =>
    id ∈ lists opposite ∧ peers opposite = (lists opposite).erase id ∧
      ∀ c ≠ opposite, lists c = peers c
  | .unbind .unlock _ _ _ | .unbind .postFirst _ _ _ | .unbind .postSecond _ _ _ => lists = peers
  | .bind .lockOp _ _ | .idle | .unbindLock _ | .send _ _ _ | .receive _ _ => True

end Activity

namespace IteratedList

variable {α : Type} {l l' : IteratedList α} {xs : List α} {x : Option α}

/-- A cursor that moves on leaves the list. -/
theorem StandsFor.getNextElement (h : l.StandsFor xs) (hget : l.getNextElement = some (x, l')) :
    l'.StandsFor xs := by
  obtain ⟨cells, hrep, rfl⟩ := h
  cases cells with
  | nil =>
    have hempty : l.isEmpty = true := hrep.isEmpty_eq
    rw [IteratedList.getNextElement, if_pos hempty] at hget
    cases hget
    exact ⟨[], hrep, rfl⟩
  | cons c cells =>
    obtain ⟨r, hrot⟩ := hrep.exists_rotatedAt (List.cons_ne_nil c cells)
    cases r with
    | nil => exact absurd rfl hrot.ne_nil
    | cons d r =>
      obtain ⟨q, hnext, hrot'⟩ := hrep.getNextElement_rotate hrot
      rw [hnext] at hget
      cases hget
      exact ⟨_, hrep.moved hrot', rfl⟩

theorem StandsFor.unique {ys : List α} (h : l.StandsFor xs) (h' : l.StandsFor ys) : xs = ys := by
  obtain ⟨cells, hrep, rfl⟩ := h
  obtain ⟨cells', hrep', rfl⟩ := h'
  rw [hrep.chain.unique hrep'.chain]

theorem StandsFor.getListLength_eq (h : l.StandsFor xs) : l.getListLength = some xs.length := by
  obtain ⟨cells, hrep, rfl⟩ := h
  rw [hrep.getListLength_eq, List.length_map]

end IteratedList

namespace Endpoint

variable {C T Ptr : Type}

/-- Neither the mutex nor the elements of the list have changed. -/
structure Keeps (ch ch' : Endpoint C T Ptr) : Prop where
  mutex : ch'.mutex = ch.mutex
  list : ∀ xs, ch.connections.StandsFor xs → ch'.connections.StandsFor xs

theorem keeps_refl (ch : Endpoint C T Ptr) : ch.Keeps ch := ⟨rfl, fun _ h => h⟩

theorem Keeps.trans {a b d : Endpoint C T Ptr} (hab : a.Keeps b) (hbd : b.Keeps d) : a.Keeps d :=
  ⟨hbd.mutex.trans hab.mutex, fun xs h => hbd.list xs (hab.list xs h)⟩

end Endpoint

namespace Network

open Transition Activity Endpoint

variable {C T Ptr : Type} [DecidableEq C] [DecidableEq T] {p : Ports C} {s s' : Network C T Ptr}
  {t : T} {activity : Activity C Ptr} {peers lists : C → List C} {c : C}

/-! ### Outside the section -/

omit [DecidableEq T] in
theorem keeps_modify {u : Network C T Ptr} {f : Endpoint C T Ptr → Endpoint C T Ptr}
    (hkeeps : ∀ d, (s.channel d).Keeps (u.channel d))
    (hf : (u.channel c).Keeps (f (u.channel c))) (d : C) :
    (s.channel d).Keeps ((u.modify c f).channel d) := by
  by_cases hd : d = c
  · subst hd
    rw [modify_channel_self]
    exact (hkeeps d).trans hf
  · rw [modify_channel_of_ne _ _ hd]
    exact hkeeps d

omit [DecidableEq C] in
theorem keeps_go {u : Network C T Ptr} (hkeeps : ∀ d, (s.channel d).Keeps (u.channel d)) (d : C) :
    (s.channel d).Keeps ((u.go t activity).channel d) :=
  hkeeps d

omit [DecidableEq T] in
theorem keeps_match {u : Network C T Ptr} {a b : C} {ca cb : Channel C Ptr}
    (hkeeps : ∀ d, (s.channel d).Keeps (u.channel d))
    (ha : ca.connections = (u.channel a).connections)
    (hb : cb.connections = (u.channel b).connections) (d : C) :
    (s.channel d).Keeps (((u.modify a fun ch => { ch with toChannel := ca }).modify b
      fun ch => { ch with toChannel := cb }).channel d) := by
  by_cases hd : d = b
  · subst hd
    rw [modify_channel_self]
    refine (hkeeps d).trans ⟨?_, fun xs h => ?_⟩
    · by_cases hda : d = a
      · subst hda
        rw [modify_channel_self]
      · rw [modify_channel_of_ne _ _ hda]
    · show cb.connections.StandsFor xs
      rwa [hb]
  · rw [modify_channel_of_ne _ _ hd]
    exact keeps_modify hkeeps ⟨rfl, fun xs h => by show ca.connections.StandsFor xs; rwa [ha]⟩ d

/-- A thread that is not in the section goes on without entering it. -/
structure Outside (s s' : Network C T Ptr) (t : T) (activity : Activity C Ptr) : Prop where
  thread : s'.thread = Function.update s.thread t activity
  op : s'.connOpMutex = s.connOpMutex
  holds : ¬ activity.HoldsOp
  keeps : ∀ c, (s.channel c).Keeps (s'.channel c)

omit [DecidableEq T] in
/-- The cursor of a scan moves. -/
theorem keeps_cursor {connections : IteratedList C} {element : Option C}
    (hget : (s.channel c).connections.getNextElement = some (element, connections)) (d : C) :
    (s.channel d).Keeps ((s.modify c fun ch => { ch with connections := connections }).channel d) :=
  keeps_modify (fun _ => keeps_refl _) ⟨rfl, fun _ h => h.getNextElement hget⟩ d

/-- A step of `channel_send`. -/
theorem outside_send {cout : C} {data : Ptr} {pc : SendPc C}
    (h : s.stepSend t cout data pc = some s') : ∃ activity, Outside s s' t activity := by
  obtain ⟨u, activity, hstep, rfl⟩ := sendStep_of_stepSend h
  have hself : ∀ d, (s.channel d).Keeps (s.channel d) := fun d => keeps_refl _
  refine ⟨activity, ?_⟩
  cases hstep with
  | waitConns | setReady | scanned | acknowledged | returned | woken =>
    exact ⟨rfl, rfl, fun hop => hop, keeps_go (keeps_modify hself ⟨rfl, fun _ h => h⟩)⟩
  | taken i length receiver connections pair hget hmatch =>
    obtain ⟨hcout, hreceiver⟩ := sendMatch_keeps hmatch
    exact ⟨rfl, rfl, fun hop => hop, keeps_go (keeps_match (keeps_cursor hget) hcout.2 hreceiver.2)⟩
  | passed i length receiver connections hget =>
    exact ⟨rfl, rfl, fun hop => hop, keeps_go (keeps_cursor hget)⟩

/-- A step of `channel_receive`. -/
theorem outside_receive {cin : C} {pc : ReceivePc} (h : s.stepReceive t cin pc = some s') :
    ∃ activity, Outside s s' t activity := by
  obtain ⟨u, activity, hstep, rfl⟩ := receiveStep_of_stepReceive h
  have hself : ∀ d, (s.channel d).Keeps (s.channel d) := fun d => keeps_refl _
  refine ⟨activity, ?_⟩
  cases hstep with
  | waitConns | setReady | scanned | returned | woken | posted =>
    exact ⟨rfl, rfl, fun hop => hop, keeps_go (keeps_modify hself ⟨rfl, fun _ h => h⟩)⟩
  | taken i length sender connections pair hget hmatch =>
    obtain ⟨hcin, hsender⟩ := receiveMatch_keeps hmatch
    exact ⟨rfl, rfl, fun hop => hop, keeps_go (keeps_match (keeps_cursor hget) hcin.2 hsender.2)⟩
  | passed i length sender connections hget =>
    exact ⟨rfl, rfl, fun hop => hop, keeps_go (keeps_cursor hget)⟩
  | copied => exact ⟨rfl, rfl, fun hop => hop, keeps_go hself⟩

omit [DecidableEq C] in
theorem outside_call (h : s.call t activity = some s') (hop : ¬ activity.HoldsOp) :
    Outside s s' t activity := by
  unfold call at h
  cases hthread : s.thread t with
  | idle =>
    rw [hthread] at h
    cases h
    exact ⟨rfl, rfl, hop, fun c => keeps_refl _⟩
  | bind | unbindLock | unbindLoop | unbind | send | receive =>
    rw [hthread] at h
    cases h

/-- A thread takes `conn_op_mutex`. -/
structure Enters (p : Ports C) (s s' : Network C T Ptr) (t : T) (activity : Activity C Ptr) :
    Prop where
  thread : s'.thread = Function.update s.thread t activity
  free : s.connOpMutex = none
  op : s'.connOpMutex = some t
  channel : s'.channel = s.channel
  place : (∃ id1 id2, s.thread t = .bind .lockOp id1 id2 ∧ p.direction id1 ≠ p.direction id2 ∧
      p.typesize id1 = p.typesize id2 ∧ activity = .bind .lockFirst id1 id2) ∨
    ∃ id length, s.thread t = .unbindLock id ∧
      (s.channel id).connections.getListLength = some length ∧ activity = .unbindLoop id 0 length

/-- A step of a thread that is not in the section. -/
theorem step_outside {e : NetworkEvent C T Ptr} (h : step p s e = some s')
    (hout : ¬ (s.thread (actor e)).HoldsOp) :
    ∃ activity, Outside s s' (actor e) activity ∨ Enters p s s' (actor e) activity := by
  cases e with
  | bind t id1 id2 => exact ⟨_, .inl (outside_call h fun hop => hop)⟩
  | unbind t id => exact ⟨_, .inl (outside_call h fun hop => hop)⟩
  | send t cout data => exact ⟨_, .inl (outside_call h fun hop => hop)⟩
  | receive t cin => exact ⟨_, .inl (outside_call h fun hop => hop)⟩
  | step t =>
    simp only [step, stepThread] at h
    simp only [actor] at hout ⊢
    cases hthread : s.thread t with
    | idle =>
      rw [hthread] at h
      cases h
    | bind stage id1 id2 =>
      rw [hthread] at h hout
      cases stage with
      | lockOp =>
        simp only [stepBind] at h
        split_ifs at h with hheld hdirection hsize
        · cases h
          exact ⟨.idle, .inl ⟨rfl, rfl, fun hop => hop, fun c => keeps_refl _⟩⟩
        · cases h
          exact ⟨.idle, .inl ⟨rfl, rfl, fun hop => hop, fun c => keeps_refl _⟩⟩
        · cases h
          exact ⟨.bind .lockFirst id1 id2, .inr ⟨rfl, by simpa using hheld, rfl, rfl,
            .inl ⟨id1, id2, hthread, hdirection, not_not.1 hsize, rfl⟩⟩⟩
      | lockFirst | lockSecond | insertFirst | insertSecond | postFirst | postSecond | unlock =>
        exact absurd trivial hout
    | unbindLock id =>
      rw [hthread] at h
      simp only [stepUnbindLock] at h
      split_ifs at h with hheld
      simp only [Option.bind_eq_bind, Option.bind_eq_some_iff] at h
      obtain ⟨length, hlength, h⟩ := h
      cases h
      exact ⟨.unbindLoop id 0 length, .inr ⟨rfl, by simpa using hheld, rfl, rfl,
        .inr ⟨id, length, hthread, hlength, rfl⟩⟩⟩
    | unbindLoop id i length =>
      rw [hthread] at hout
      exact absurd trivial hout
    | unbind stage id opposite i =>
      rw [hthread] at hout
      exact absurd trivial hout
    | send pc cout data =>
      rw [hthread] at h
      obtain ⟨activity, hself⟩ := outside_send h
      exact ⟨activity, .inl hself⟩
    | receive pc cin =>
      rw [hthread] at h
      obtain ⟨activity, hself⟩ := outside_receive h
      exact ⟨activity, .inl hself⟩

/-! ### The invariant -/

/-- The mutexes, and the lists over against a graph. -/
structure Wired (p : Ports C) (s : Network C T Ptr) (peers lists : C → List C) : Prop where
  op : ∀ t, (s.thread t).HoldsOp ↔ s.connOpMutex = some t
  mutex : ∀ t c, (s.thread t).Locks p c → (s.channel c).mutex = some t
  graph : Graph p peers
  standsFor : ∀ c, (s.channel c).connections.StandsFor (lists c)
  edits : ∀ t, (s.thread t).Edits p peers lists
  rest : s.connOpMutex = none → lists = peers

omit [DecidableEq T] in
theorem wired_created : Wired p (created C T Ptr) (fun _ => []) fun _ => [] where
  op t := ⟨fun h => h.elim, fun h => by cases h⟩
  mutex t c h := h.elim
  graph := ⟨fun c d hd => absurd hd List.not_mem_nil, fun c d hd => absurd hd List.not_mem_nil,
    fun c d hd => absurd hd List.not_mem_nil, fun c => List.nodup_nil⟩
  standsFor c := IteratedList.constructList_standsFor
  edits t := trivial
  rest _ := rfl

omit [DecidableEq T] in
theorem Wired.lists_eq {peers' lists' : C → List C} (h : Wired p s peers lists)
    (h' : Wired p s' peers' lists')
    (hsame : ∀ c, (s'.channel c).connections = (s.channel c).connections) : lists' = lists := by
  funext c
  have hlist := h'.standsFor c
  rw [hsame c] at hlist
  exact hlist.unique (h.standsFor c)

omit [DecidableEq C] in
theorem locks_holdsOp (h : activity.Locks p c) : activity.HoldsOp := by
  cases activity with
  | bind stage id1 id2 =>
    cases stage with
    | lockOp => exact h.elim
    | lockFirst | lockSecond | insertFirst | insertSecond | postFirst | postSecond | unlock =>
      trivial
  | unbindLoop => exact h.elim
  | unbind => trivial
  | idle | unbindLock | send | receive => exact h.elim

theorem edits_of_not_holdsOp (h : ¬ activity.HoldsOp) : activity.Edits p peers lists := by
  cases activity with
  | bind stage id1 id2 =>
    cases stage with
    | lockOp => trivial
    | lockFirst | lockSecond | insertFirst | insertSecond | postFirst | postSecond | unlock =>
      exact absurd trivial h
  | unbindLoop => exact absurd trivial h
  | unbind => exact absurd trivial h
  | idle | unbindLock | send | receive => trivial

/-- A step leaves the mutexes that other threads hold. -/
def LeavesMutexes (s s' : Network C T Ptr) (t : T) : Prop :=
  ∀ u ≠ t, ∀ c, (s'.channel c).mutex = some u ↔ (s.channel c).mutex = some u

/-- Outside the section a step changes neither the graph nor the lists. -/
theorem Wired.outside (h : Wired p s peers lists) (hout : Outside s s' t activity)
    (hthread : ¬ (s.thread t).HoldsOp) : Wired p s' peers lists where
  op u := by
    rw [hout.op, ← h.op u, hout.thread]
    by_cases hu : u = t
    · subst hu
      rw [Function.update_self]
      exact ⟨fun hop => absurd hop hout.holds, fun hop => absurd hop hthread⟩
    · rw [Function.update_of_ne hu]
  mutex u c hlocks := by
    rw [hout.thread] at hlocks
    by_cases hu : u = t
    · subst hu
      rw [Function.update_self] at hlocks
      exact absurd (locks_holdsOp hlocks) hout.holds
    · rw [Function.update_of_ne hu] at hlocks
      rw [(hout.keeps c).mutex]
      exact h.mutex u c hlocks
  graph := h.graph
  standsFor c := (hout.keeps c).list _ (h.standsFor c)
  edits u := by
    rw [hout.thread]
    by_cases hu : u = t
    · subst hu
      rw [Function.update_self]
      exact edits_of_not_holdsOp hout.holds
    · rw [Function.update_of_ne hu]
      exact h.edits u
  rest hfree := h.rest (hout.op.symm.trans hfree)

/-- A step of the thread that holds `conn_op_mutex`, or takes it, with the channels of `u` behind
it. -/
theorem Wired.of_step {peers' lists' : C → List C} (h : Wired p s peers lists)
    (u : Network C T Ptr) (hop : s.connOpMutex = none ∨ s.connOpMutex = some t)
    (hthread : s'.thread = Function.update s.thread t activity) (hchannel : s'.channel = u.channel)
    (hop' : (activity.HoldsOp ∧ s'.connOpMutex = some t) ∨
      (¬ activity.HoldsOp ∧ s'.connOpMutex = none ∧ lists' = peers'))
    (hmutex : LeavesMutexes s u t)
    (hlocks : ∀ c, activity.Locks p c → (u.channel c).mutex = some t)
    (hgraph : Graph p peers') (hlists : ∀ c, (u.channel c).connections.StandsFor (lists' c))
    (hedits : activity.Edits p peers' lists') :
    Wired p s' peers' lists' ∧ LeavesMutexes s s' t := by
  rw [← hchannel] at hlocks hlists
  have hmutex' : LeavesMutexes s s' t := fun v hv c => by
    rw [hchannel]
    exact hmutex v hv c
  have hothers : ∀ u ≠ t, ¬ (s.thread u).HoldsOp := by
    intro u hu hholds
    rw [h.op u] at hholds
    rcases hop with hop | hop
    · rw [hop] at hholds
      cases hholds
    · rw [hop] at hholds
      exact hu (Option.some.inj hholds).symm
  refine ⟨⟨fun u => ?_, fun u c hc => ?_, hgraph, hlists, fun u => ?_, fun hfree => ?_⟩, hmutex'⟩
  · rw [hthread]
    by_cases hu : u = t
    · subst hu
      rw [Function.update_self]
      rcases hop' with ⟨hholds, heq⟩ | ⟨hnot, heq, -⟩
      · exact ⟨fun _ => heq, fun _ => hholds⟩
      · exact ⟨fun hholds => absurd hholds hnot, fun hsome => by rw [heq] at hsome; cases hsome⟩
    · rw [Function.update_of_ne hu]
      refine ⟨fun hholds => absurd hholds (hothers u hu), fun hsome => ?_⟩
      rcases hop' with ⟨-, heq⟩ | ⟨-, heq, -⟩
      · rw [heq] at hsome
        exact absurd (Option.some.inj hsome).symm hu
      · rw [heq] at hsome
        cases hsome
  · rw [hthread] at hc
    by_cases hu : u = t
    · subst hu
      rw [Function.update_self] at hc
      exact hlocks c hc
    · rw [Function.update_of_ne hu] at hc
      exact (hmutex' u hu c).2 (h.mutex u c hc)
  · rw [hthread]
    by_cases hu : u = t
    · subst hu
      rwa [Function.update_self]
    · rw [Function.update_of_ne hu]
      exact edits_of_not_holdsOp (hothers u hu)
  · rcases hop' with ⟨-, heq⟩ | ⟨-, -, heq⟩
    · rw [heq] at hfree
      cases hfree
    · exact heq

theorem Wired.enters (h : Wired p s peers lists) (henters : Enters p s s' t activity) :
    Wired p s' peers lists ∧ LeavesMutexes s s' t := by
  have hrest := h.rest henters.free
  rcases henters.place with ⟨id1, id2, -, hdirection, hsize, rfl⟩ | ⟨id, length, -, -, rfl⟩
  · exact h.of_step s (.inl henters.free) henters.thread henters.channel
      (.inl ⟨trivial, henters.op⟩) (fun _ _ _ => Iff.rfl) (fun c hc => hc.elim) h.graph h.standsFor
      ⟨hdirection, hsize, hrest⟩
  · exact h.of_step s (.inl henters.free) henters.thread henters.channel
      (.inl ⟨trivial, henters.op⟩) (fun _ _ _ => Iff.rfl) (fun c hc => hc.elim) h.graph h.standsFor
      hrest

/-! ### Inside the section -/

theorem lock_eq (h : s.lock t c activity = some s') :
    (s.channel c).mutex = none ∧
      s' = (s.modify c fun ch => { ch with mutex := some t }).go t activity := by
  unfold lock at h
  split_ifs at h with hfree
  exact ⟨by simpa using hfree, (Option.some.inj h).symm⟩

theorem waitConns_eq (h : s.waitConns t c activity = some s') :
    s' = (s.modify c fun ch => { ch with connsSem := false }).go t activity := by
  unfold waitConns at h
  split_ifs at h with hsem
  exact (Option.some.inj h).symm

omit [DecidableEq T] in
theorem leavesMutexes_modify {u : Network C T Ptr} {f : Endpoint C T Ptr → Endpoint C T Ptr}
    (hu : LeavesMutexes s u t)
    (hf : ∀ v ≠ t, (f (u.channel c)).mutex = some v ↔ (u.channel c).mutex = some v) :
    LeavesMutexes s (u.modify c f) t := by
  intro v hv d
  by_cases hd : d = c
  · subst hd
    rw [modify_channel_self, hf v hv]
    exact hu v hv d
  · rw [modify_channel_of_ne _ _ hd]
    exact hu v hv d

omit [DecidableEq C] [DecidableEq T] in
theorem leavesMutexes_refl : LeavesMutexes s s t := fun _ _ _ => Iff.rfl

omit [DecidableEq T] in
theorem standsFor_modify {f : Endpoint C T Ptr → Endpoint C T Ptr} {xs : List C}
    (h : ∀ d, (s.channel d).connections.StandsFor (lists d))
    (hf : (f (s.channel c)).connections.StandsFor xs) (d : C) :
    ((s.modify c f).channel d).connections.StandsFor (Function.update lists c xs d) := by
  by_cases hd : d = c
  · subst hd
    rwa [modify_channel_self, Function.update_self]
  · rw [modify_channel_of_ne _ _ hd, Function.update_of_ne hd]
    exact h d

omit [DecidableEq T] in
theorem standsFor_modify_same {f : Endpoint C T Ptr → Endpoint C T Ptr}
    (h : ∀ d, (s.channel d).connections.StandsFor (lists d))
    (hf : (f (s.channel c)).connections = (s.channel c).connections) (d : C) :
    ((s.modify c f).channel d).connections.StandsFor (lists d) := by
  have hmodify := standsFor_modify (f := f) h (hf ▸ h c) d
  rwa [Function.update_eq_self] at hmodify

omit [DecidableEq T] in
/-- A channel whose mutex is not touched. -/
theorem mutex_modify {f : Endpoint C T Ptr → Endpoint C T Ptr}
    (hf : (f (s.channel c)).mutex = (s.channel c).mutex) (d : C) :
    ((s.modify c f).channel d).mutex = (s.channel d).mutex := by
  by_cases hd : d = c
  · subst hd
    rwa [modify_channel_self]
  · rw [modify_channel_of_ne _ _ hd]

omit [DecidableEq C] in
theorem first_or_second (p : Ports C) {a b c : C} :
    (c = p.first a b ∨ c = p.second a b) ↔ c = a ∨ c = b := by
  unfold Ports.first Ports.second
  split_ifs
  · exact Iff.rfl
  · exact or_comm

/-- A mutex is locked. -/
theorem Wired.lock (h : Wired p s peers lists) (hop : s.connOpMutex = some t)
    (hlock : s.lock t c activity = some s') (hholds : activity.HoldsOp)
    (hlocks : ∀ d, activity.Locks p d → d = c ∨ (s.channel d).mutex = some t)
    (hedits : activity.Edits p peers lists) :
    Wired p s' peers lists ∧ LeavesMutexes s s' t := by
  obtain ⟨hfree, rfl⟩ := lock_eq hlock
  refine h.of_step (s.modify c fun ch => { ch with mutex := some t }) (.inr hop) rfl rfl
    (.inl ⟨hholds, hop⟩) ?_ (fun d hd => ?_) h.graph (standsFor_modify_same h.standsFor rfl) hedits
  · refine leavesMutexes_modify leavesMutexes_refl fun v hv => ?_
    rw [hfree]
    simp [hv.symm]
  · by_cases hdc : d = c
    · subst hdc
      rw [modify_channel_self]
    · rw [modify_channel_of_ne _ _ hdc]
      exact (hlocks d hd).resolve_left hdc

/-- The token of a channel is taken or posted, or its list is edited. -/
theorem Wired.edit {f : Endpoint C T Ptr → Endpoint C T Ptr} {xs : List C} {peers' : C → List C}
    (h : Wired p s peers lists) (hop : s.connOpMutex = some t)
    (hthread : s'.thread = Function.update s.thread t activity)
    (hchannel : s'.channel = (s.modify c f).channel) (hop' : s'.connOpMutex = some t)
    (hholds : activity.HoldsOp) (hmutex : (f (s.channel c)).mutex = (s.channel c).mutex)
    (hlist : (f (s.channel c)).connections.StandsFor xs)
    (hlocks : ∀ d, activity.Locks p d → (s.channel d).mutex = some t) (hgraph : Graph p peers')
    (hedits : activity.Edits p peers' (Function.update lists c xs)) :
    Wired p s' peers' (Function.update lists c xs) ∧ LeavesMutexes s s' t := by
  refine h.of_step (s.modify c f) (.inr hop) hthread hchannel (.inl ⟨hholds, hop'⟩) ?_
    (fun d hd => ?_) hgraph (standsFor_modify h.standsFor hlist) hedits
  · exact leavesMutexes_modify leavesMutexes_refl fun v _ => by rw [hmutex]
  · rw [mutex_modify hmutex]
    exact hlocks d hd

/-- A step that touches neither mutex nor list of the channel. -/
theorem Wired.token {f : Endpoint C T Ptr → Endpoint C T Ptr} (h : Wired p s peers lists)
    (hop : s.connOpMutex = some t) (hthread : s'.thread = Function.update s.thread t activity)
    (hchannel : s'.channel = (s.modify c f).channel) (hop' : s'.connOpMutex = some t)
    (hholds : activity.HoldsOp) (hmutex : (f (s.channel c)).mutex = (s.channel c).mutex)
    (hlist : (f (s.channel c)).connections = (s.channel c).connections)
    (hlocks : ∀ d, activity.Locks p d → (s.channel d).mutex = some t)
    (hedits : activity.Edits p peers lists) :
    Wired p s' peers lists ∧ LeavesMutexes s s' t := by
  have hedit := h.edit hop hthread hchannel hop' hholds hmutex (hlist ▸ h.standsFor c) hlocks
    h.graph (by rwa [Function.update_eq_self])
  rwa [Function.update_eq_self] at hedit

omit [DecidableEq T] in
/-- Both mutexes are unlocked. -/
theorem leavesMutexes_unlock {a b : C} (ha : (s.channel a).mutex = some t)
    (hb : (s.channel b).mutex = some t) : LeavesMutexes s ((s.unlock a).unlock b) t := by
  refine leavesMutexes_modify (leavesMutexes_modify leavesMutexes_refl fun v hv => ?_)
    fun v hv => ?_
  · rw [ha]
    simp [hv.symm]
  · by_cases hab : b = a
    · subst hab
      rw [unlock, modify_channel_self]
    · rw [unlock, modify_channel_of_ne _ _ hab, hb]
      simp [hv.symm]

omit [DecidableEq T] in
theorem standsFor_unlock {a b : C} (h : ∀ d, (s.channel d).connections.StandsFor (lists d))
    (d : C) : (((s.unlock a).unlock b).channel d).connections.StandsFor (lists d) :=
  standsFor_modify_same (standsFor_modify_same h rfl) rfl d

/-- A step of `channel_bind` behind its first one. -/
theorem Wired.bind {a b : C} {stage : BindStage} (h : Wired p s peers lists)
    (hthread : s.thread t = .bind stage a b) (hstage : stage ≠ .lockOp)
    (hstep : s.stepBind p t a b stage = some s') :
    ∃ activity peers' lists', s'.thread = Function.update s.thread t activity ∧
      Wired p s' peers' lists' ∧ LeavesMutexes s s' t := by
  have hop : s.connOpMutex = some t := by
    rw [← h.op t, hthread]
    cases stage with
    | lockOp => exact absurd rfl hstage
    | lockFirst | lockSecond | insertFirst | insertSecond | postFirst | postSecond | unlock =>
      trivial
  have hedits := h.edits t
  have hlocks := h.mutex t
  rw [hthread] at hedits hlocks
  cases stage with
  | lockOp => exact absurd rfl hstage
  | lockFirst =>
    obtain ⟨-, hs'⟩ := lock_eq hstep
    refine ⟨.bind .lockSecond a b, peers, lists, by rw [hs']; rfl, ?_⟩
    exact h.lock hop hstep trivial (fun d hd => .inl hd) hedits
  | lockSecond =>
    obtain ⟨-, hs'⟩ := lock_eq hstep
    refine ⟨.bind .insertFirst a b, peers, lists, by rw [hs']; rfl, ?_⟩
    refine h.lock hop hstep trivial (fun d hd => ?_) hedits
    -- the mutex of the first one is held already
    rcases (first_or_second p).2 hd with rfl | rfl
    · exact .inr (hlocks _ rfl)
    · exact .inl rfl
  | insertFirst =>
    obtain ⟨hdirection, hsize, rfl⟩ := hedits
    -- two ends of one direction never get here, so the channels differ
    have hne : a ≠ b := fun heq => hdirection (congrArg p.direction heq)
    simp only [stepBind, Option.bind_eq_bind, Option.bind_eq_some_iff] at hstep
    obtain ⟨contained, hcontains, hstep⟩ := hstep
    split_ifs at hstep with htrue
    · cases hstep
      exact ⟨.idle, lists, lists, rfl, h.of_step s (.inr hop) rfl rfl
        (.inr ⟨fun hop => hop, rfl, rfl⟩) leavesMutexes_refl (fun c hc => hc.elim) h.graph
        h.standsFor trivial⟩
    · cases hstep
      rw [(h.standsFor a).containsElement_eq b, Option.some.injEq] at hcontains
      have hnot : b ∉ lists a := by
        rw [← hcontains] at htrue
        simpa using htrue
      refine ⟨.bind .insertSecond a b, link lists a b, _, rfl, h.edit (c := a) (f := fun ch =>
        { ch with connections := ch.connections.insertElement (some b) }) hop rfl rfl hop trivial
        rfl ((h.standsFor a).insertElement b) hlocks (h.graph.link hdirection hsize hnot)
        ⟨?_, fun c hc => ?_⟩⟩
      · rw [link_second, Function.update_of_ne hne.symm]
      · rw [link, Function.update_of_ne hc]
  | insertSecond =>
    obtain ⟨hpeers, hlists⟩ := hedits
    simp only [stepBind] at hstep
    cases hstep
    refine ⟨.bind .postFirst a b, peers, _, rfl, h.edit (c := b) (f := fun ch =>
      { ch with connections := ch.connections.insertElement (some a) }) hop rfl rfl hop trivial rfl
      ((h.standsFor b).insertElement a) hlocks h.graph ?_⟩
    show Function.update lists b (a :: lists b) = peers
    rw [Function.update_eq_iff]
    exact ⟨hpeers.symm, fun c hc => hlists c hc⟩
  | postFirst =>
    simp only [stepBind] at hstep
    cases hstep
    exact ⟨.bind .postSecond a b, peers, lists, rfl, h.token (c := a)
      (f := fun ch => { ch with connsSem := true }) hop rfl rfl hop trivial rfl rfl hlocks hedits⟩
  | postSecond =>
    simp only [stepBind] at hstep
    cases hstep
    exact ⟨.bind .unlock a b, peers, lists, rfl, h.token (c := b)
      (f := fun ch => { ch with connsSem := true }) hop rfl rfl hop trivial rfl rfl hlocks hedits⟩
  | unlock =>
    simp only [stepBind] at hstep
    cases hstep
    exact ⟨.idle, peers, lists, rfl, h.of_step ((s.unlock a).unlock b) (.inr hop) rfl rfl
      (.inr ⟨fun hop => hop, rfl, hedits⟩)
      (leavesMutexes_unlock (hlocks a (.inl rfl)) (hlocks b (.inr rfl))) (fun c hc => hc.elim)
      h.graph (standsFor_unlock h.standsFor) trivial⟩

/-- How many peers the body of the loop has removed. -/
def removed : UnbindStage → ℕ
  | .waitFirst | .waitSecond | .lockFirst | .lockSecond | .removeFirst => 0
  | .removeSecond | .unlock | .postFirst | .postSecond => 1

/-- Where the body of the loop of `channel_unbind` goes on, and what becomes of the graph. -/
def UnbindGoes (peers peers' : C → List C) (id opposite : C) (i : ℕ) (activity : Activity C Ptr) :
    UnbindStage → Prop
  | .removeFirst => opposite ∈ peers id ∧ peers' = unlink peers id opposite ∧
      activity = .unbind .removeSecond id opposite i
  | .postSecond => peers' = peers ∧ activity = .unbindLoop id (i + 1) (peers id).length
  | stage => peers' = peers ∧ ∃ stage', activity = .unbind stage' id opposite i ∧
      removed stage' = removed stage

/-- A step in the body of the loop of `channel_unbind`. -/
theorem Wired.unbind {id opposite : C} {i : ℕ} {stage : UnbindStage} (h : Wired p s peers lists)
    (hthread : s.thread t = .unbind stage id opposite i)
    (hstep : s.stepUnbind p t id opposite i stage = some s') :
    ∃ activity peers' lists', s'.thread = Function.update s.thread t activity ∧
      (Wired p s' peers' lists' ∧ LeavesMutexes s s' t) ∧
        UnbindGoes peers peers' id opposite i activity stage := by
  have hop : s.connOpMutex = some t := by
    rw [← h.op t, hthread]
    trivial
  have hedits := h.edits t
  have hlocks := h.mutex t
  rw [hthread] at hedits hlocks
  cases stage with
  | waitFirst =>
    obtain rfl := waitConns_eq hstep
    exact ⟨.unbind .waitSecond id opposite i, peers, lists, rfl,
      h.token (c := p.first id opposite) (f := fun ch => { ch with connsSem := false }) hop rfl rfl
        hop trivial rfl rfl hlocks hedits, rfl, _, rfl, rfl⟩
  | waitSecond =>
    obtain rfl := waitConns_eq hstep
    exact ⟨.unbind .lockFirst id opposite i, peers, lists, rfl,
      h.token (c := p.second id opposite) (f := fun ch => { ch with connsSem := false }) hop rfl rfl
        hop trivial rfl rfl hlocks hedits, rfl, _, rfl, rfl⟩
  | lockFirst =>
    obtain ⟨-, hs'⟩ := lock_eq hstep
    exact ⟨.unbind .lockSecond id opposite i, peers, lists, by rw [hs']; rfl,
      h.lock hop hstep trivial (fun d hd => .inl hd) hedits, rfl, _, rfl, rfl⟩
  | lockSecond =>
    obtain ⟨-, hs'⟩ := lock_eq hstep
    refine ⟨.unbind .removeFirst id opposite i, peers, lists, by rw [hs']; rfl,
      h.lock hop hstep trivial (fun d hd => ?_) hedits, rfl, _, rfl, rfl⟩
    rcases (first_or_second p).2 hd with rfl | rfl
    · exact .inr (hlocks _ rfl)
    · exact .inl rfl
  | removeFirst =>
    obtain ⟨hmem, rfl⟩ := hedits
    -- the graph loses the connection here, at the first of the two removals
    have hne := h.graph.ne hmem
    simp only [stepUnbind, Option.bind_eq_bind, Option.bind_eq_some_iff] at hstep
    obtain ⟨l, hl, hstep⟩ := hstep
    cases hstep
    obtain ⟨l', hl', hlist⟩ := (h.standsFor id).removeElement hmem
    obtain rfl := Option.some.inj (hl.symm.trans hl')
    refine ⟨.unbind .removeSecond id opposite i, unlink lists id opposite, _, rfl,
      h.edit (c := id) (f := fun ch => { ch with connections := l }) hop rfl rfl hop trivial rfl
        hlist hlocks (h.graph.unlink hne) ⟨?_, ?_, fun c hc => ?_⟩, hmem, rfl, rfl⟩
    · rw [Function.update_of_ne hne.symm]
      exact h.graph.symm id opposite hmem
    · rw [unlink_second, Function.update_of_ne hne.symm]
    · rw [unlink, Function.update_of_ne hc]
  | removeSecond =>
    obtain ⟨hmem, hpeers, hlists⟩ := hedits
    simp only [stepUnbind, Option.bind_eq_bind, Option.bind_eq_some_iff] at hstep
    obtain ⟨l, hl, hstep⟩ := hstep
    cases hstep
    obtain ⟨l', hl', hlist⟩ := (h.standsFor opposite).removeElement hmem
    obtain rfl := Option.some.inj (hl.symm.trans hl')
    refine ⟨.unbind .unlock id opposite i, peers, _, rfl,
      h.edit (c := opposite) (f := fun ch => { ch with connections := l }) hop rfl rfl hop trivial
        rfl hlist hlocks h.graph ?_, rfl, _, rfl, rfl⟩
    show Function.update lists opposite ((lists opposite).erase id) = peers
    rw [Function.update_eq_iff]
    exact ⟨hpeers.symm, fun c hc => hlists c hc⟩
  | unlock =>
    simp only [stepUnbind] at hstep
    cases hstep
    exact ⟨.unbind .postFirst id opposite i, peers, lists, rfl,
      h.of_step ((s.unlock id).unlock opposite) (.inr hop) rfl rfl (.inl ⟨trivial, hop⟩)
        (leavesMutexes_unlock (hlocks id (.inl rfl)) (hlocks opposite (.inr rfl)))
        (fun c hc => hc.elim) h.graph (standsFor_unlock h.standsFor) hedits, rfl, _, rfl, rfl⟩
  | postFirst =>
    simp only [stepUnbind] at hstep
    refine ⟨.unbind .postSecond id opposite i, peers, lists, ?_, ?_, rfl, _, rfl, rfl⟩
    · split_ifs at hstep with hempty <;> cases hstep <;> rfl
    · split_ifs at hstep with hempty
      · cases hstep
        exact h.of_step s (.inr hop) rfl rfl (.inl ⟨trivial, hop⟩) leavesMutexes_refl hlocks h.graph
          h.standsFor hedits
      · cases hstep
        exact h.token (c := id) (f := fun ch => { ch with connsSem := true }) hop rfl rfl hop
          trivial rfl rfl hlocks hedits
  | postSecond =>
    simp only [stepUnbind, Option.bind_eq_bind, Option.bind_eq_some_iff] at hstep
    obtain ⟨length, hlength, hstep⟩ := hstep
    obtain rfl : lists = peers := hedits
    -- the loop goes on with the length that the list has now
    obtain rfl : (lists id).length = length := by
      rw [(h.standsFor id).getListLength_eq] at hlength
      exact Option.some.inj hlength
    refine ⟨.unbindLoop id (i + 1) (lists id).length, lists, lists, ?_, ?_, rfl, rfl⟩
    · split_ifs at hstep with hempty <;> cases hstep <;> rfl
    · split_ifs at hstep with hempty
      · cases hstep
        exact h.of_step s (.inr hop) rfl rfl (.inl ⟨trivial, hop⟩) leavesMutexes_refl
          (fun c hc => hc.elim) h.graph h.standsFor rfl
      · cases hstep
        exact h.token (c := opposite) (f := fun ch => { ch with connsSem := true }) hop rfl rfl hop
          trivial rfl rfl (fun c hc => hc.elim) rfl

/-- A step at the head of the loop of `channel_unbind`. -/
theorem Wired.unbindLoop {id : C} {i length : ℕ} (h : Wired p s peers lists)
    (hthread : s.thread t = .unbindLoop id i length)
    (hstep : s.stepUnbindLoop t id i length = some s') :
    ∃ activity, s'.thread = Function.update s.thread t activity ∧
      (Wired p s' peers lists ∧ LeavesMutexes s s' t) ∧
        ((i < length ∧ ∃ opposite, activity = .unbind .waitFirst id opposite i) ∨
          (length ≤ i ∧ activity = .idle ∧ lists = peers)) := by
  have hop : s.connOpMutex = some t := by
    rw [← h.op t, hthread]
    trivial
  have hedits := h.edits t
  rw [hthread] at hedits
  obtain rfl : lists = peers := hedits
  simp only [stepUnbindLoop] at hstep
  split_ifs at hstep with hlt
  · simp only [Option.bind_eq_bind, Option.bind_eq_some_iff] at hstep
    obtain ⟨element, helement, opposite, rfl, hstep⟩ := hstep
    cases hstep
    rw [(h.standsFor id).getElementN_eq i, Option.some.injEq] at helement
    exact ⟨.unbind .waitFirst id opposite i, rfl,
      h.of_step s (.inr hop) rfl rfl (.inl ⟨trivial, hop⟩) leavesMutexes_refl (fun c hc => hc.elim)
        h.graph h.standsFor ⟨List.mem_of_getElem? helement, rfl⟩, .inl ⟨hlt, opposite, rfl⟩⟩
  · cases hstep
    exact ⟨.idle, rfl,
      h.of_step s (.inr hop) rfl rfl (.inr ⟨fun hop => hop, rfl, rfl⟩) leavesMutexes_refl
        (fun c hc => hc.elim) h.graph h.standsFor trivial, .inr ⟨not_lt.1 hlt, rfl, rfl⟩⟩

/-! ### Runs -/

/-- A thread in a call takes the next step in it. -/
theorem eq_step_of_not_idle {e : NetworkEvent C T Ptr} (h : Network.step p s e = some s')
    (hne : s.thread (actor e) ≠ .idle) : e = .step (actor e) := by
  cases e with
  | step t => rfl
  | bind t id1 id2 | unbind t id | send t cout data | receive t cin =>
    simp only [Network.step, call] at h
    split at h
    · next hidle => exact absurd hidle hne
    · cases h

/-- **One event keeps the invariant and the mutexes that other threads hold; outside the section it
changes neither the graph nor the lists.** -/
theorem Wired.step {e : NetworkEvent C T Ptr} (h : Wired p s peers lists)
    (hstep : Network.step p s e = some s') :
    ∃ activity peers' lists', s'.thread = Function.update s.thread (actor e) activity ∧
      Wired p s' peers' lists' ∧ LeavesMutexes s s' (actor e) ∧
        (¬ (s.thread (actor e)).HoldsOp → peers' = peers ∧ lists' = lists) := by
  by_cases hin : (s.thread (actor e)).HoldsOp
  · have hne : s.thread (actor e) ≠ .idle := by
      intro hidle
      rw [hidle] at hin
      exact hin
    have heq := eq_step_of_not_idle hstep hne
    rw [heq] at hstep
    simp only [Network.step, stepThread] at hstep
    cases hthread : s.thread (actor e) with
    | idle | unbindLock | send | receive =>
      rw [hthread] at hin
      exact hin.elim
    | bind stage id1 id2 =>
      rw [hthread] at hstep hin
      have hstage : stage ≠ .lockOp := by
        rintro rfl
        exact hin
      obtain ⟨activity, peers', lists', hgo, hwired, hmutex⟩ := h.bind hthread hstage hstep
      exact ⟨activity, peers', lists', hgo, hwired, hmutex, fun hnot => absurd hin hnot⟩
    | unbindLoop id i length =>
      rw [hthread] at hstep hin
      obtain ⟨activity, hgo, ⟨hwired, hmutex⟩, -⟩ := h.unbindLoop hthread hstep
      exact ⟨activity, peers, lists, hgo, hwired, hmutex, fun hnot => absurd hin hnot⟩
    | unbind stage id opposite i =>
      rw [hthread] at hstep hin
      obtain ⟨activity, peers', lists', hgo, ⟨hwired, hmutex⟩, -⟩ := h.unbind hthread hstep
      exact ⟨activity, peers', lists', hgo, hwired, hmutex, fun hnot => absurd hin hnot⟩
  · obtain ⟨activity, hout | henters⟩ := step_outside hstep hin
    · exact ⟨activity, peers, lists, hout.thread, h.outside hout hin,
        fun u _ c => by rw [(hout.keeps c).mutex], fun _ => ⟨rfl, rfl⟩⟩
    · obtain ⟨hwired, hmutex⟩ := h.enters henters
      exact ⟨activity, peers, lists, henters.thread, hwired, hmutex, fun _ => ⟨rfl, rfl⟩⟩

theorem wired_run {events : List (NetworkEvent C T Ptr)}
    (hrun : run (Network.step p) (created C T Ptr) events = some s) :
    ∃ peers lists, Wired p s peers lists := by
  refine run_keeps (fun s => ∃ peers lists, Wired p s peers lists) ?_ ⟨_, _, wired_created⟩ hrun
  rintro s e s' ⟨peers, lists, hwired⟩ hstep
  obtain ⟨-, peers', lists', -, hwired', -⟩ := hwired.step hstep
  exact ⟨peers', lists', hwired'⟩

/-- While a thread is in the section, the step of another changes neither the graph nor the
lists. -/
theorem Wired.step_other {e : NetworkEvent C T Ptr} (h : Wired p s peers lists)
    (hstep : Network.step p s e = some s') (hin : (s.thread t).HoldsOp) (hne : actor e ≠ t) :
    Wired p s' peers lists ∧ s'.thread t = s.thread t := by
  have hout : ¬ (s.thread (actor e)).HoldsOp := by
    intro hholds
    rw [h.op] at hin hholds
    exact hne (Option.some.inj (hholds.symm.trans hin))
  obtain ⟨activity, peers', lists', hgo, hwired, -, hsame⟩ := h.step hstep
  obtain ⟨rfl, rfl⟩ := hsame hout
  refine ⟨hwired, ?_⟩
  rw [hgo, Function.update_of_ne hne.symm]

/-- The call that a thread is in returns behind the events. -/
structure Completes (p : Ports C) (t : T) (s : Network C T Ptr)
    (events : List (NetworkEvent C T Ptr)) (s' : Network C T Ptr) : Prop where
  run : run (Network.step p) s events = some s'
  within : Along (Network.step p) (fun s _ => s.thread t ≠ .idle) s events
  returned : s'.thread t = .idle

theorem Completes.first {e : NetworkEvent C T Ptr} {events : List (NetworkEvent C T Ptr)}
    (h : Completes p t s (e :: events) s') :
    ∃ s₁, Network.step p s e = some s₁ ∧ Completes p t s₁ events s' := by
  have hrun := h.run
  rw [run_cons, Option.bind_eq_some_iff] at hrun
  obtain ⟨s₁, hstep, hrun⟩ := hrun
  exact ⟨s₁, hstep, hrun, (along_cons.1 h.within).2 s₁ hstep, h.returned⟩

/-- Behind the events the thread is at `activity`, in a call that returns behind the others. -/
def completesBehind [DecidableEq Ptr] (p : Ports C) (t : T)
    (events calls : List (NetworkEvent C T Ptr)) (activity : Activity C Ptr) : Bool :=
  (run (Network.step p) (created C T Ptr) events).any fun s =>
    s.thread t = activity ∧ Along (Network.step p) (fun s _ => s.thread t ≠ .idle) s calls ∧
      (run (Network.step p) s calls).any fun s' => s'.thread t = .idle

theorem exists_completes [DecidableEq Ptr] {events calls : List (NetworkEvent C T Ptr)}
    (h : completesBehind p t events calls activity = true) :
    ∃ s s', run (Network.step p) (created C T Ptr) events = some s ∧ s.thread t = activity ∧
      Completes p t s calls s' := by
  obtain ⟨s, hs, hall⟩ := (Option.any_eq_true ..).1 h
  obtain ⟨hcall, hwithin, hreturned⟩ := of_decide_eq_true hall
  obtain ⟨s', hs', hidle⟩ := (Option.any_eq_true ..).1 hreturned
  exact ⟨s, s', hs, hcall, hs', hwithin, of_decide_eq_true hidle⟩

end Network

end InsenseCVM
