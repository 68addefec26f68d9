import InsenseCVM.Channels.Wiring

/-!
# The exits of a binding

`channel_bind` leaves in four places. Behind the tests of direction and size it holds
`conn_op_mutex` only, and unlocks it; behind its last insertion it unlocks all three mutexes. The
exit for channels that are connected already unlocks `conn_op_mutex` and leaves the mutexes of both
channels locked.
-/

namespace InsenseCVM

namespace Network

open Transition Activity

variable {C T Ptr : Type} [DecidableEq C] [DecidableEq T] {p : Ports C}
  {s s' u u' : Network C T Ptr} {t : T} {before peers lists : C → List C} {id1 id2 c : C}

/-! ### A clean exit -/

/-- The thread holds the mutexes that it held. -/
structure SameMutexes (s s' : Network C T Ptr) (t : T) : Prop where
  op : s'.connOpMutex = some t ↔ s.connOpMutex = some t
  channel : ∀ c, (s'.channel c).mutex = some t ↔ (s.channel c).mutex = some t

/-- Connections list, ready flag and semaphores are unchanged. -/
structure SameData (ch ch' : Endpoint C T Ptr) : Prop where
  connections : ch'.connections = ch.connections
  ready : ch'.ready = ch.ready
  connsSem : ch'.connsSem = ch.connsSem
  blocked : ch'.blocked = ch.blocked
  actuallyReceived : ch'.actuallyReceived = ch.actuallyReceived

/-- A step of the thread changes none of these on any channel. -/
def ChangesNothing (p : Ports C) (t : T) (s : Network C T Ptr) (e : NetworkEvent C T Ptr) : Prop :=
  actor e = t → ∀ s', step p s e = some s' → ∀ c, SameData (s.channel c) (s'.channel c)

/-- The call leaves no mutex locked, and if it returns false it has changed nothing. -/
structure ExitsClean (p : Ports C) (t : T) (s : Network C T Ptr)
    (events : List (NetworkEvent C T Ptr)) (s' : Network C T Ptr) : Prop where
  mutexes : SameMutexes s s' t
  unchanged : s'.bound t = some false → Along (Network.step p) (ChangesNothing p t) s events

/-! ### The way to an exit -/

/-- The thread holds the mutexes of the channels in `locked`, which it did not hold before, besides
those it held. -/
structure HoldsAlso (s u : Network C T Ptr) (t : T) (locked : C → Prop) : Prop where
  channel : ∀ c, (u.channel c).mutex = some t ↔ (s.channel c).mutex = some t ∨ locked c
  new : ∀ c, locked c → (s.channel c).mutex ≠ some t

/-- Where a thread that began the call in `s` is, what it holds there, and whether it has found the
channels connected. `untouched` stands for the run so far having changed nothing. -/
def OnTheWay (p : Ports C) (s u : Network C T Ptr) (t : T) (id1 id2 : C) (before lists : C → List C)
    (untouched : Prop) : Activity C Ptr → Prop
  | .bind .lockFirst a b => (a = id1 ∧ b = id2) ∧ untouched ∧ lists = before ∧
      HoldsAlso s u t fun _ => False
  | .bind .lockSecond a b => (a = id1 ∧ b = id2) ∧ untouched ∧ lists = before ∧
      HoldsAlso s u t fun c => c = p.first id1 id2
  | .bind .insertFirst a b => (a = id1 ∧ b = id2) ∧ untouched ∧ lists = before ∧
      HoldsAlso s u t fun c => c = id1 ∨ c = id2
  | .bind .insertSecond a b | .bind .postFirst a b | .bind .postSecond a b | .bind .unlock a b =>
    (a = id1 ∧ b = id2) ∧ id2 ∉ before id1 ∧ HoldsAlso s u t fun c => c = id1 ∨ c = id2
  | .idle => u.connOpMutex = none ∧
      ((id2 ∈ before id1 ∧ untouched ∧ HoldsAlso s u t fun c => c = id1 ∨ c = id2) ∨
        (id2 ∉ before id1 ∧ u.bound t = some true ∧ HoldsAlso s u t fun _ => False))
  | _ => False

omit [DecidableEq C] [DecidableEq T] in
theorem HoldsAlso.congr {locked : C → Prop} (h : HoldsAlso s u t locked)
    (hsame : ∀ c, (u'.channel c).mutex = some t ↔ (u.channel c).mutex = some t) :
    HoldsAlso s u' t locked :=
  ⟨fun c => (hsame c).trans (h.channel c), h.new⟩

omit [DecidableEq T] in
theorem mutex_iff_modify {f : Endpoint C T Ptr → Endpoint C T Ptr}
    (hf : (f (u.channel c)).mutex = (u.channel c).mutex) (d : C) :
    ((u.modify c f).channel d).mutex = some t ↔ (u.channel d).mutex = some t := by
  rw [mutex_modify hf]

omit [DecidableEq T] in
/-- One more mutex is locked. -/
theorem HoldsAlso.lock {locked : C → Prop} (h : HoldsAlso s u t locked)
    (hfree : (u.channel c).mutex = none) :
    HoldsAlso s (u.modify c fun ch => { ch with mutex := some t }) t fun d => locked d ∨ d = c := by
  refine ⟨fun d => ?_, fun d hd => ?_⟩
  · by_cases hdc : d = c
    · subst hdc
      rw [modify_channel_self]
      simp
    · rw [modify_channel_of_ne _ _ hdc, h.channel d]
      simp [hdc]
  · rcases hd with hd | rfl
    · exact h.new d hd
    · intro hheld
      have hmutex := (h.channel d).2 (.inl hheld)
      rw [hfree] at hmutex
      cases hmutex

omit [DecidableEq T] in
/-- The mutexes that were locked are unlocked again. -/
theorem HoldsAlso.unlock (h : HoldsAlso s u t fun c => c = id1 ∨ c = id2) :
    HoldsAlso s ((u.unlock id1).unlock id2) t fun _ => False := by
  refine ⟨fun d => ?_, fun d hd => hd.elim⟩
  have hnew := h.new d
  by_cases hd2 : d = id2
  · subst hd2
    rw [Network.unlock, modify_channel_self]
    simpa using hnew (.inr rfl)
  · by_cases hd1 : d = id1
    · subst hd1
      rw [Network.unlock, modify_channel_of_ne _ _ hd2, Network.unlock, modify_channel_self]
      simpa using hnew (.inl rfl)
    · rw [Network.unlock, modify_channel_of_ne _ _ hd2, Network.unlock,
        modify_channel_of_ne _ _ hd1, h.channel d]
      simp [hd1, hd2]

omit [DecidableEq C] [DecidableEq T] in
theorem HoldsAlso.mono {locked locked' : C → Prop} (h : HoldsAlso s u t locked)
    (heq : ∀ c, locked c ↔ locked' c) : HoldsAlso s u t locked' :=
  ⟨fun c => (h.channel c).trans (or_congr Iff.rfl (heq c)), fun c hc => h.new c ((heq c).2 hc)⟩

omit [DecidableEq C] [DecidableEq T] in
theorem sameData_refl (ch : Endpoint C T Ptr) : SameData ch ch := ⟨rfl, rfl, rfl, rfl, rfl⟩

omit [DecidableEq T] in
theorem sameData_lock (c d : C) :
    SameData (u.channel d) ((u.modify c fun ch => { ch with mutex := some t }).channel d) := by
  by_cases hd : d = c
  · subst hd
    rw [modify_channel_self]
    exact ⟨rfl, rfl, rfl, rfl, rfl⟩
  · rw [modify_channel_of_ne _ _ hd]
    exact sameData_refl _

/-- A step of the thread itself. -/
theorem OnTheWay.own {untouched untouched' : Prop} (hwired : Wired p u peers lists)
    (h : OnTheWay p s u t id1 id2 before lists untouched (u.thread t)) (hne : u.thread t ≠ .idle)
    (hstep : Network.step p u (.step t) = some u')
    (huntouched : untouched → (∀ c, SameData (u.channel c) (u'.channel c)) → untouched') :
    ∃ peers' lists', Wired p u' peers' lists' ∧
      OnTheWay p s u' t id1 id2 before lists' untouched' (u'.thread t) := by
  obtain ⟨-, peers', lists', -, hwired', -⟩ := hwired.step hstep
  simp only [Network.step, stepThread] at hstep
  refine ⟨peers', lists', hwired', ?_⟩
  cases hthread : u.thread t with
  | idle => exact absurd hthread hne
  | unbindLock | unbindLoop | unbind | send | receive =>
    rw [hthread] at h
    exact h.elim
  | bind stage a b =>
    rw [hthread] at h hstep
    cases stage with
    | lockOp => exact h.elim
    | lockFirst =>
      obtain ⟨⟨rfl, rfl⟩, hsofar, rfl, hholds⟩ := h
      obtain ⟨hfree, rfl⟩ := lock_eq hstep
      have hnow : HoldsAlso s (u.modify (p.first a b) fun ch => { ch with mutex := some t }) t
          fun c => c = p.first a b := (hholds.lock hfree).mono fun c => by simp
      show OnTheWay p s _ t a b lists lists' untouched' (Function.update u.thread t _ t)
      rw [Function.update_self]
      exact ⟨⟨rfl, rfl⟩, huntouched hsofar (sameData_lock _),
        hwired.lists_eq hwired' fun c => (sameData_lock _ c).connections,
        hnow.congr fun _ => Iff.rfl⟩
    | lockSecond =>
      obtain ⟨⟨rfl, rfl⟩, hsofar, rfl, hholds⟩ := h
      obtain ⟨hfree, rfl⟩ := lock_eq hstep
      have hnow : HoldsAlso s (u.modify (p.second a b) fun ch => { ch with mutex := some t }) t
          fun c => c = a ∨ c = b := (hholds.lock hfree).mono fun c => first_or_second p
      show OnTheWay p s _ t a b lists lists' untouched' (Function.update u.thread t _ t)
      rw [Function.update_self]
      exact ⟨⟨rfl, rfl⟩, huntouched hsofar (sameData_lock _),
        hwired.lists_eq hwired' fun c => (sameData_lock _ c).connections,
        hnow.congr fun _ => Iff.rfl⟩
    | insertFirst =>
      obtain ⟨⟨rfl, rfl⟩, hsofar, rfl, hholds⟩ := h
      simp only [stepBind, Option.bind_eq_bind, Option.bind_eq_some_iff] at hstep
      obtain ⟨contained, hcontains, hstep⟩ := hstep
      rw [(hwired.standsFor a).containsElement_eq b, Option.some.injEq] at hcontains
      -- the only way to return early; the mutexes stay locked
      split_ifs at hstep with htrue
      · cases hstep
        have hmem : b ∈ lists a := by simpa [htrue] using hcontains
        show OnTheWay p s _ t a b lists lists' untouched' (Function.update u.thread t _ t)
        rw [Function.update_self]
        exact ⟨rfl, .inl ⟨hmem, huntouched hsofar fun c => sameData_refl _,
          hholds.congr fun _ => Iff.rfl⟩⟩
      · cases hstep
        have hnot : b ∉ lists a := by
          rw [← hcontains] at htrue
          simpa using htrue
        show OnTheWay p s _ t a b lists lists' untouched' (Function.update u.thread t _ t)
        rw [Function.update_self]
        exact ⟨⟨rfl, rfl⟩, hnot, hholds.congr fun c => mutex_iff_modify (c := a)
          (f := fun ch => { ch with connections := ch.connections.insertElement (some b) }) rfl c⟩
    | insertSecond =>
      obtain ⟨⟨rfl, rfl⟩, hnot, hholds⟩ := h
      cases hstep
      show OnTheWay p s _ t a b before lists' untouched' (Function.update u.thread t _ t)
      rw [Function.update_self]
      exact ⟨⟨rfl, rfl⟩, hnot, hholds.congr fun c => mutex_iff_modify (c := b)
        (f := fun ch => { ch with connections := ch.connections.insertElement (some a) }) rfl c⟩
    | postFirst =>
      obtain ⟨⟨rfl, rfl⟩, hnot, hholds⟩ := h
      cases hstep
      show OnTheWay p s _ t a b before lists' untouched' (Function.update u.thread t _ t)
      rw [Function.update_self]
      exact ⟨⟨rfl, rfl⟩, hnot, hholds.congr fun c => mutex_iff_modify (c := a)
        (f := fun ch => { ch with connsSem := true }) rfl c⟩
    | postSecond =>
      obtain ⟨⟨rfl, rfl⟩, hnot, hholds⟩ := h
      cases hstep
      show OnTheWay p s _ t a b before lists' untouched' (Function.update u.thread t _ t)
      rw [Function.update_self]
      exact ⟨⟨rfl, rfl⟩, hnot, hholds.congr fun c => mutex_iff_modify (c := b)
        (f := fun ch => { ch with connsSem := true }) rfl c⟩
    | unlock =>
      obtain ⟨⟨rfl, rfl⟩, hnot, hholds⟩ := h
      cases hstep
      show OnTheWay p s _ t a b before lists' untouched' (Function.update u.thread t _ t)
      rw [Function.update_self]
      -- both mutexes are unlocked on the way that ends here
      exact ⟨rfl, .inr ⟨hnot, Function.update_self .., hholds.unlock.congr fun _ => Iff.rfl⟩⟩

omit [DecidableEq C] [DecidableEq T] in
theorem OnTheWay.holdsOp {untouched : Prop} {activity : Activity C Ptr}
    (h : OnTheWay p s u t id1 id2 before lists untouched activity) (hne : activity ≠ .idle) :
    activity.HoldsOp := by
  cases activity with
  | idle => exact absurd rfl hne
  | bind stage a b =>
    cases stage with
    | lockOp => exact h.elim
    | lockFirst | lockSecond | insertFirst | insertSecond | postFirst | postSecond | unlock =>
      trivial
  | unbindLock | unbindLoop | unbind | send | receive => exact h.elim

omit [DecidableEq C] [DecidableEq T] in
/-- A step of another thread. -/
theorem OnTheWay.other {untouched untouched' : Prop} {activity : Activity C Ptr}
    (h : OnTheWay p s u t id1 id2 before lists untouched activity) (hne : activity ≠ .idle)
    (hmutex : ∀ c, (u'.channel c).mutex = some t ↔ (u.channel c).mutex = some t)
    (huntouched : untouched → untouched') :
    OnTheWay p s u' t id1 id2 before lists untouched' activity := by
  cases activity with
  | idle => exact absurd rfl hne
  | unbindLock | unbindLoop | unbind | send | receive => exact h.elim
  | bind stage a b =>
    cases stage with
    | lockOp => exact h.elim
    | lockFirst | lockSecond | insertFirst =>
      obtain ⟨hids, hsofar, hlists, hholds⟩ := h
      exact ⟨hids, huntouched hsofar, hlists, hholds.congr hmutex⟩
    | insertSecond | postFirst | postSecond | unlock =>
      obtain ⟨hids, hnot, hholds⟩ := h
      exact ⟨hids, hnot, hholds.congr hmutex⟩

/-- The run behind the tests of direction and size. -/
theorem onTheWay_run {events : List (NetworkEvent C T Ptr)} {s₁ : Network C T Ptr}
    (hwired : Wired p s₁ peers lists)
    (hway : OnTheWay p s s₁ t id1 id2 before lists True (s₁.thread t))
    (hwithin : Along (Network.step p) (fun s _ => s.thread t ≠ .idle) s₁ events)
    (hrun : run (Network.step p) s₁ events = some u) :
    ∃ peers lists, Wired p u peers lists ∧ OnTheWay p s u t id1 id2 before lists
      (Along (Network.step p) (ChangesNothing p t) s₁ events) (u.thread t) := by
  refine run_history (fun events u => ∃ peers lists, Wired p u peers lists ∧
    OnTheWay p s u t id1 id2 before lists
      (Along (Network.step p) (ChangesNothing p t) s₁ events) (u.thread t)) ?_ ?_ hwithin hrun
  · refine ⟨peers, lists, hwired, ?_⟩
    by_cases hidle : s₁.thread t = .idle
    · rw [hidle] at hway ⊢
      exact ⟨hway.1, hway.2.imp_left fun h => ⟨h.1, along_nil, h.2.2⟩⟩
    · exact hway.other hidle (fun _ => Iff.rfl) fun _ => along_nil
  · rintro events v e v' hv ⟨peers, lists, hwired, hway⟩ hne hstep
    by_cases hactor : actor e = t
    · have heq := eq_step_of_not_idle hstep (hactor ▸ hne)
      rw [hactor] at heq
      subst heq
      refine hway.own hwired hne hstep fun hsofar hsame => along_concat.2 ⟨hsofar, ?_⟩
      rintro w hw - w' hw' c
      obtain rfl := Option.some.inj (hv.symm.trans hw)
      obtain rfl := Option.some.inj (hstep.symm.trans hw')
      exact hsame c
    · obtain ⟨hwired', hthread⟩ := hwired.step_other hstep (hway.holdsOp hne) hactor
      obtain ⟨-, -, -, -, -, hmutex, -⟩ := hwired.step hstep
      refine ⟨peers, lists, hwired', ?_⟩
      rw [hthread]
      refine hway.other hne (hmutex t (Ne.symm hactor)) fun hsofar => along_concat.2 ⟨hsofar, ?_⟩
      exact fun _ _ hself => absurd hself hactor

/-! ### The exits -/

/-- The call begins between channels of different direction and the same size. -/
theorem onTheWay_of_fits {s₁ : Network C T Ptr} (hwired : Wired p s peers lists)
    (hthread : s.thread t = .bind .lockOp id1 id2) (hdirection : p.direction id1 ≠ p.direction id2)
    (hsize : p.typesize id1 = p.typesize id2) (hstep : Network.step p s (.step t) = some s₁) :
    s.connOpMutex = none ∧ s₁.channel = s.channel ∧ Wired p s₁ peers lists ∧
      OnTheWay p s s₁ t id1 id2 lists lists True (s₁.thread t) := by
  simp only [Network.step, stepThread, hthread, stepBind] at hstep
  rw [if_neg hdirection, if_neg (not_not.2 hsize)] at hstep
  split_ifs at hstep with hheld
  have hfree : s.connOpMutex = none := by simpa using hheld
  have henters : Enters p s s₁ t (.bind .lockFirst id1 id2) := by
    rw [← Option.some.inj hstep]
    exact ⟨rfl, hfree, rfl, rfl, .inl ⟨id1, id2, hthread, hdirection, hsize, rfl⟩⟩
  refine ⟨hfree, henters.channel, (hwired.enters henters).1, ?_⟩
  rw [henters.thread, Function.update_self]
  refine ⟨⟨rfl, rfl⟩, trivial, rfl, fun c => ?_, fun c hc => hc.elim⟩
  rw [henters.channel, or_false]

/-- The call fails a test of direction or size. -/
theorem refused_step {s₁ : Network C T Ptr} (hthread : s.thread t = .bind .lockOp id1 id2)
    (hfits : ¬ (p.direction id1 ≠ p.direction id2 ∧ p.typesize id1 = p.typesize id2))
    (hstep : Network.step p s (.step t) = some s₁) :
    s₁.thread t = .idle ∧ s₁.channel = s.channel ∧ s₁.connOpMutex = s.connOpMutex := by
  simp only [Network.step, stepThread, hthread, stepBind] at hstep
  split_ifs at hstep with hheld hdirection hsize
  · cases hstep
    exact ⟨Function.update_self .., rfl, rfl⟩
  · cases hstep
    exact ⟨Function.update_self .., rfl, rfl⟩
  · exact absurd ⟨hdirection, not_not.1 hsize⟩ hfits

variable {events calls : List (NetworkEvent C T Ptr)}

/-- The exit of a call that failed a test of direction or size. -/
theorem exitsClean_of_not_fits (hcall : s.thread t = .bind .lockOp id1 id2)
    (hreturn : Completes p t s (.step t :: calls) s')
    (hfits : ¬ (p.direction id1 ≠ p.direction id2 ∧ p.typesize id1 = p.typesize id2)) :
    ExitsClean p t s (.step t :: calls) s' := by
  obtain ⟨s₁, hstep, hrun⟩ := hreturn.first
  obtain ⟨hidle, hchannel, hop⟩ := refused_step hcall hfits hstep
  obtain rfl : calls = [] := by
    cases calls with
    | nil => rfl
    | cons e calls => exact absurd hidle (along_cons.1 hrun.within).1
  obtain rfl : s₁ = s' := by simpa using hrun.run
  refine ⟨⟨by rw [hop], fun c => by rw [hchannel]⟩, fun _ => along_cons.2 ⟨fun _ s₂ hs₂ c => ?_,
    fun _ _ => along_nil⟩⟩
  obtain rfl := Option.some.inj (hstep.symm.trans hs₂)
  rw [hchannel]
  exact sameData_refl _

/-- The exits of a call that passed them. -/
theorem exit_of_fits (hwired : Wired p s peers lists) (hcall : s.thread t = .bind .lockOp id1 id2)
    (hreturn : Completes p t s (.step t :: calls) s')
    (hdirection : p.direction id1 ≠ p.direction id2) (hsize : p.typesize id1 = p.typesize id2) :
    (s.connOpMutex = none ∧ s'.connOpMutex = none) ∧
      ((id2 ∈ lists id1 ∧ Along (Network.step p) (ChangesNothing p t) s (.step t :: calls) ∧
          HoldsAlso s s' t fun c => c = id1 ∨ c = id2) ∨
        (id2 ∉ lists id1 ∧ s'.bound t = some true ∧ HoldsAlso s s' t fun _ => False)) := by
  obtain ⟨s₁, hstep, hrun⟩ := hreturn.first
  obtain ⟨hfree, hchannel, hwired₁, hway⟩ := onTheWay_of_fits hwired hcall hdirection hsize hstep
  obtain ⟨_, _, -, hexit⟩ := onTheWay_run hwired₁ hway hrun.within hrun.run
  rw [hreturn.returned] at hexit
  refine ⟨⟨hfree, hexit.1⟩, hexit.2.imp_left fun ⟨hmem, hsofar, hholds⟩ => ⟨hmem, ?_, hholds⟩⟩
  refine along_cons.2 ⟨fun _ s₂ hs₂ c => ?_, fun s₂ hs₂ => ?_⟩
  · obtain rfl := Option.some.inj (hstep.symm.trans hs₂)
    rw [hchannel]
    exact sameData_refl _
  · obtain rfl := Option.some.inj (hstep.symm.trans hs₂)
    exact hsofar

/-- A binding that returns false has changed nothing, whichever mutexes it leaves locked. -/
theorem unchanged_of_refused (hreach : run (Network.step p) (created C T Ptr) events = some s)
    (hcall : s.thread t = .bind .lockOp id1 id2)
    (hreturn : Completes p t s (.step t :: calls) s') (hfalse : s'.bound t = some false) :
    Along (Network.step p) (ChangesNothing p t) s (.step t :: calls) := by
  by_cases hfits : p.direction id1 ≠ p.direction id2 ∧ p.typesize id1 = p.typesize id2
  · obtain ⟨peers, lists, hwired⟩ := wired_run hreach
    obtain ⟨-, ⟨-, hsofar, -⟩ | ⟨-, hbound, -⟩⟩ := exit_of_fits hwired hcall hreturn hfits.1 hfits.2
    · exact hsofar
    · rw [hbound] at hfalse
      cases hfalse
  · exact (exitsClean_of_not_fits hcall hreturn hfits).unchanged hfalse

/-- **A binding leaves no mutex locked, and nothing changed if it returns false, exactly when the
channels differ in size or agree in direction, or are not connected already.** -/
theorem exitsClean_iff (hreach : run (Network.step p) (created C T Ptr) events = some s)
    (hcall : s.thread t = .bind .lockOp id1 id2)
    (hreturn : Completes p t s (.step t :: calls) s') :
    ExitsClean p t s (.step t :: calls) s' ↔
      ¬ (p.direction id1 ≠ p.direction id2 ∧ p.typesize id1 = p.typesize id2 ∧
        (s.channel id1).connections.containsElement id2 = some true) := by
  obtain ⟨peers, lists, hwired⟩ := wired_run hreach
  rw [(hwired.standsFor id1).containsElement_eq id2, Option.some.injEq, decide_eq_true_iff]
  by_cases hfits : p.direction id1 ≠ p.direction id2 ∧ p.typesize id1 = p.typesize id2
  · obtain ⟨⟨hfree, hop⟩, ⟨hmem, -, hholds⟩ | ⟨hnot, hbound, hholds⟩⟩ :=
      exit_of_fits hwired hcall hreturn hfits.1 hfits.2
    · refine ⟨fun hclean => ?_, fun hnot => absurd ⟨hfits.1, hfits.2, hmem⟩ hnot⟩
      have hheld := (hholds.channel id1).2 (.inr (.inl rfl))
      exact absurd ((hclean.mutexes.channel id1).1 hheld) (hholds.new id1 (.inl rfl))
    · refine ⟨fun _ hall => hnot hall.2.2, fun _ => ⟨⟨?_, fun c => ?_⟩, fun hfalse => ?_⟩⟩
      · rw [hop, hfree]
      · rw [hholds.channel c, or_false]
      · rw [hbound] at hfalse
        cases hfalse
  · exact ⟨fun _ hall => hfits ⟨hall.1, hall.2.1⟩,
      fun _ => exitsClean_of_not_fits hcall hreturn hfits⟩

/-- A thread calls `channel_bind`. -/
def bindOnce : List (NetworkEvent (Fin 3) (Fin 1) Unit) := [.bind 0 0 1]

/-- It goes on to the end of the call, and calls `channel_bind` on the same channels again. -/
def bindTwice : List (NetworkEvent (Fin 3) (Fin 1) Unit) :=
  bindOnce ++ List.replicate 8 (.step 0) ++ bindOnce

/-- Both channels stay locked. -/
theorem bindTwice_not_exitsClean :
    ∃ s s', run (Network.step threePorts) (created (Fin 3) (Fin 1) Unit) bindTwice = some s ∧
      s.thread 0 = .bind .lockOp 0 1 ∧
      Completes threePorts 0 s (.step 0 :: List.replicate 3 (.step 0)) s' ∧
      ¬ ExitsClean threePorts 0 s (.step 0 :: List.replicate 3 (.step 0)) s' := by
  have hcompletes : completesBehind threePorts 0 bindTwice (List.replicate 4 (.step 0))
      (.bind .lockOp 0 1) = true := rfl
  obtain ⟨s, s', hreach, hcall, hreturn⟩ := exists_completes hcompletes
  refine ⟨s, s', hreach, hcall, hreturn, fun hclean => ?_⟩
  have hbefore : (run (Network.step threePorts) (created (Fin 3) (Fin 1) Unit) bindTwice).map
      (fun s => (s.channel 0).mutex) = some none := by decide +kernel
  have hafter : (run (Network.step threePorts) (created (Fin 3) (Fin 1) Unit)
      (bindTwice ++ List.replicate 4 (.step 0))).map
        (fun s => (s.channel 0).mutex) = some (some 0) := by decide +kernel
  rw [hreach, Option.map_some, Option.some.injEq] at hbefore
  rw [run_append, hreach, Option.bind_some, hreturn.run, Option.map_some, Option.some.injEq]
    at hafter
  rw [(hclean.mutexes.channel 0).1 hafter] at hbefore
  cases hbefore

theorem exitsClean_iff_once :
    ∃ s s' : Network (Fin 3) (Fin 1) Unit, s.thread 0 = .bind .lockOp 0 1 ∧ s'.thread 0 = .idle ∧
      (ExitsClean threePorts 0 s (.step 0 :: List.replicate 7 (.step 0)) s' ↔
        ¬ (threePorts.direction 0 ≠ threePorts.direction 1 ∧
          threePorts.typesize 0 = threePorts.typesize 1 ∧
          (s.channel 0).connections.containsElement 1 = some true)) := by
  have hcompletes : completesBehind threePorts 0 bindOnce (List.replicate 8 (.step 0))
      (.bind .lockOp 0 1) = true := rfl
  obtain ⟨s, s', hreach, hcall, hreturn⟩ := exists_completes hcompletes
  exact ⟨s, s', hcall, hreturn.returned, exitsClean_iff hreach hcall hreturn⟩

end Network

end InsenseCVM
