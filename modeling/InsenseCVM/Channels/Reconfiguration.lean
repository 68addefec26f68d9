import InsenseCVM.Channels.Offers

/-!
# Progress while channels are bound and unbound

Any number of threads in the four operations of `channel.c` on any channels. Their calls come to
rest as long as each `channel_bind` is of channels that are not connected yet, finds the token of
a channel in its place or the list empty, and sends and receives are on channels of their direction.
At rest no thread is in `channel_bind` or `channel_unbind` and no mutex is locked: what is left are
calls on channels without a connection, and threads that are blocked behind their whole scan.

A thread can wait in three ways. A mutex is held by the one thread that has `conn_op_mutex`, which
has what it needs (`Held`). A token that is not in its place is with a thread that gives it back
(`Present`). A send that has matched a receive waits for a token that the receive will post
(`Acknowledged`).
-/

namespace InsenseCVM
namespace Network

open Transition

variable {C T Ptr : Type} [DecidableEq C] [DecidableEq T] {p : Ports C} {s s' : Network C T Ptr}
  {t u : T} {before activity : Activity C Ptr} {channel : C → Endpoint C T Ptr}
  {c d cout cin : C} {peers lists : C → List C}

/-- What holds in every state of a run in which the calls are as promised. -/
structure Going [Fintype T] (p : Ports C) (s : Network C T Ptr) : Prop where
  inv : Inv p s
  wired : ∃ peers lists, Wired p s peers lists
  held : Held p s
  present : Present p s
  counted : Counted s
  acknowledged : Acknowledged p s

/-- A thread that is idle starts a call. -/
theorem Going.call [Fintype T] (h : Going p s)
    (hinv : Inv p s') (hwired : ∃ peers lists, Wired p s' peers lists)
    (hcall : s.call t activity = some s') (huses : UsesDirection p activity)
    (hcounted : ∀ id i length, activity ≠ .unbindLoop id i length)
    (hplaces : ∀ c, waitsFor c activity = 0 ∧ copies c activity = 0 ∧ receivesAt c activity = 0) :
    Going p s' := by
  unfold Network.call at hcall
  split at hcall
  · next hidle =>
    cases hcall
    refine ⟨hinv, hwired, fun u c hc => ?_, fun c hne => ?_, fun u id i length hu => ?_, ?_⟩
    · have hold := h.held u c hc
      have hut : u ≠ t := by
        rintro rfl
        rw [hidle] at hold
        exact hold
      show (Function.update s.thread t activity u).Locks p c
      rwa [Function.update_of_ne hut]
    · rcases h.present c hne with hsem | ⟨u, hu⟩
      · exact .inl hsem
      · have hut : u ≠ t := by
          rintro rfl
          rw [hidle] at hu
          exact hu.elim id id id
        refine .inr ⟨u, ?_⟩
        show Answers p (Function.update s.thread t activity u) c
        rwa [Function.update_of_ne hut]
    · by_cases hut : u = t
      · subst hut
        exact absurd ((Function.update_self ..).symm.trans hu) (hcounted id i length)
      · exact h.counted u id i length ((Function.update_of_ne hut ..).symm.trans hu)
    · refine h.acknowledged.of_same rfl huses (fun _ => sameOffer_refl _) ?_ ?_ ?_
      all_goals rw [hidle]
      · exact fun c => (hplaces c).1
      · exact fun c => (hplaces c).2.1
      · exact fun c => (hplaces c).2.2
  · cases hcall

/-- **One event keeps the invariant.** -/
theorem Going.step [Fintype T] {e : NetworkEvent C T Ptr} (h : Going p s) (hok : Careful p s e)
    (hstep : Network.step p s e = some s') : Going p s' := by
  obtain ⟨hbinds, hnew, hdirected⟩ := hok
  have hinv := h.inv.step hbinds hstep
  obtain ⟨peers, lists, hwired⟩ := h.wired
  obtain ⟨-, peers', lists', -, hwired', hothers, -⟩ := hwired.step hstep
  cases e with
  | step t =>
    have hleads := leads_of_step hnew hstep
    refine ⟨hinv, ⟨peers', lists', hwired'⟩, h.held.step hleads hothers, h.present.step hleads,
      h.counted.step hwired hleads hstep, ?_⟩
    obtain ⟨activity, hmove, hthread⟩ := hleads
    by_cases htransfers : Transfers (s.thread t)
    · generalize hbefore : s.thread t = before at hmove htransfers
      generalize hchannel : s'.channel = channel at hmove
      cases hmove with
      | send hsend heq =>
        exact h.acknowledged.send hwired h.inv hbefore hsend heq hchannel hthread
      | receive hreceive heq =>
        exact h.acknowledged.receive hwired h.inv hbefore hreceive heq hchannel hthread
      | bindRefused | bindEnters | bindLockFirst | bindLockSecond | bindInsertFirst
      | bindInsertSecond | bindPostFirst | bindPostSecond | bindUnlock | unbindEnters | unbindNext
      | unbindReturns | unbindWaitFirst | unbindWaitSecond | unbindLockFirst | unbindLockSecond
      | unbindRemoveFirst | unbindRemoveSecond | unbindUnlock | unbindLeavesFirst | unbindPostFirst
      | unbindLeavesSecond | unbindPostSecond => exact htransfers.elim
    · obtain ⟨hsame, hnot⟩ := hmove.same htransfers
      have hzero : ∀ {a : Activity C Ptr}, ¬ Transfers a → UsesDirection p a ∧
          ∀ c, waitsFor c a = 0 ∧ copies c a = 0 ∧ receivesAt c a = 0 := by
        intro a ha
        cases a with
        | send | receive => exact absurd trivial ha
        | idle | bind | unbindLock | unbindLoop | unbind =>
          exact ⟨trivial, fun _ => ⟨rfl, rfl, rfl⟩⟩
      obtain ⟨huses, hafter⟩ := hzero hnot
      obtain ⟨-, hold⟩ := hzero htransfers
      exact h.acknowledged.of_same hthread huses hsame
        (fun c => (hafter c).1.trans (hold c).1.symm)
        (fun c => (hafter c).2.1.trans (hold c).2.1.symm)
        fun c => (hafter c).2.2.trans (hold c).2.2.symm
  | bind t id1 id2 =>
    exact h.call hinv ⟨peers', lists', hwired'⟩ hstep trivial (by simp)
      fun _ => ⟨rfl, rfl, rfl⟩
  | unbind t id =>
    exact h.call hinv ⟨peers', lists', hwired'⟩ hstep trivial (by simp)
      fun _ => ⟨rfl, rfl, rfl⟩
  | send t cout data =>
    exact h.call hinv ⟨peers', lists', hwired'⟩ hstep hdirected (by simp)
      fun _ => ⟨rfl, rfl, rfl⟩
  | receive t cin =>
    exact h.call hinv ⟨peers', lists', hwired'⟩ hstep hdirected (by simp)
      fun _ => ⟨rfl, rfl, rfl⟩

/-! ### Rest -/

/-- No thread can take a step. -/
def Stuck (p : Ports C) (s : Network C T Ptr) : Prop := ∀ t, Network.step p s (.step t) = none

section

variable {xs : List C} {i length : ℕ} {data : Ptr} {pc : SendPc C}

theorem canLock (hfree : (s.channel c).mutex = none) : s.lock t c activity ≠ none := by
  simp [lock, hfree]

end

theorem Stuck.stepThread (h : Stuck p s) (t : T) : s.stepThread p t = none := h t

omit [DecidableEq C] [DecidableEq T] in
theorem Held.free (h : Held p s) (hnot : ∀ t, ¬ (s.thread t).Locks p c) :
    (s.channel c).mutex = none := by
  cases hmutex : (s.channel c).mutex with
  | none => rfl
  | some t => exact absurd (h t c hmutex) (hnot t)

omit [DecidableEq T] in
theorem Going.mutex_free [Fintype T] (h : Going p s) (hholds : (s.thread t).HoldsOp)
    (hnot : ¬ (s.thread t).Locks p c) : (s.channel c).mutex = none :=
  h.held.free fun u hu => by
    rw [h.inv.op_unique hholds (locks_holdsOp hu)] at hu
    exact hnot hu

omit [DecidableEq C] in
theorem second_ne_first (p : Ports C) {a b : C} (h : a ≠ b) : p.second a b ≠ p.first a b := by
  unfold Ports.first Ports.second
  split_ifs
  · exact h.symm
  · exact h

theorem Going.bind_goes [Fintype T] {stage : BindStage} {id1 id2 : C} (h : Going p s)
    (hthread : s.thread t = .bind stage id1 id2) (hholds : (s.thread t).HoldsOp) :
    s.stepBind p t id1 id2 stage ≠ none := by
  obtain ⟨peers, lists, hwired⟩ := h.wired
  have hapart := h.inv.apart t
  have hfree : ∀ c, ¬ (s.thread t).Locks p c → (s.channel c).mutex = none :=
    fun c => h.mutex_free hholds
  rw [hthread] at hholds hapart hfree
  cases stage with
  | lockOp => exact hholds.elim
  | lockFirst => exact canLock (hfree _ fun h => h)
  | lockSecond => exact canLock (hfree _ (second_ne_first p hapart))
  | insertFirst =>
    simp only [stepBind, (hwired.standsFor id1).containsElement_eq id2]
    by_cases hmem : id2 ∈ lists id1 <;> simp [hmem]
  | insertSecond | postFirst | postSecond | unlock => exact Option.some_ne_none _

/-- What is left of `channel_bind`, when each of its two insertions makes room for `budget`. -/
def bindLeft (budget : ℕ) : BindStage → ℕ
  | .lockOp => 2 * budget + 7
  | .lockFirst => 2 * budget + 6
  | .lockSecond => 2 * budget + 5
  | .insertFirst => 2 * budget + 4
  | .insertSecond => budget + 4
  | .postFirst => 3
  | .postSecond => 2
  | .unlock => 1

/-- What is left of the body of the loop of `channel_unbind`. -/
def unbindLeft : UnbindStage → ℕ
  | .waitFirst => 9
  | .waitSecond => 8
  | .lockFirst => 7
  | .lockSecond => 6
  | .removeFirst => 5
  | .removeSecond => 4
  | .unlock => 3
  | .postFirst => 2
  | .postSecond => 1

/-- What is left of a call on channels with so many connections. -/
def callLeft (budget : ℕ) (length : C → ℕ) : Activity C Ptr → ℕ
  | .idle => 0
  | .bind stage _ _ => bindLeft budget stage
  | .unbindLock id => 10 * length id + 2
  | .unbindLoop id i _ => 10 * (length id - i) + 1
  | .unbind stage id _ i => 10 * (length id - (i + 1)) + 1 + unbindLeft stage
  | .send pc cout _ => pc.left (length cout)
  | .receive pc cin => pc.left (length cin)

/-- The number of connections of a channel. -/
def degree (s : Network C T Ptr) (c : C) : ℕ := Channels.listLength (s.channel c).connections

/-- What is left of the calls under way. A binding lengthens the scans of the others. -/
def effort [Fintype T] (s : Network C T Ptr) : ℕ :=
  ∑ t, callLeft (10 * Fintype.card T + 1) s.degree (s.thread t)

/-- The insertions that the next step makes. -/
def insertions : Activity C Ptr → ℕ
  | .bind .insertFirst _ _ | .bind .insertSecond _ _ => 1
  | _ => 0

omit [DecidableEq C] in
theorem callLeft_le {budget k : ℕ} {length length' : C → ℕ} (h : ∀ c, length' c ≤ length c + k)
    (a : Activity C Ptr) : callLeft budget length' a ≤ callLeft budget length a + 10 * k := by
  cases a with
  | idle | bind => exact Nat.le_add_right _ _
  | unbindLock id | unbindLoop id | unbind _ id =>
    have hid := h id
    simp only [callLeft]
    omega
  | send pc cout data =>
    have hcout := h cout
    cases pc <;> simp only [callLeft, SendPc.left] <;> omega
  | receive pc cin =>
    have hcin := h cin
    cases pc <;> simp only [callLeft, ReceivePc.left] <;> omega

omit [DecidableEq C] in
/-- A step lowers the effort if it takes more from what is left of its own call than it adds to the
others. -/
theorem effort_lt [Fintype T] {k : ℕ} (hthread : s'.thread = Function.update s.thread t activity)
    (hdegree : ∀ c, s'.degree c ≤ s.degree c + k)
    (hleft : callLeft (10 * Fintype.card T + 1) s'.degree activity + 10 * k * Fintype.card T <
      callLeft (10 * Fintype.card T + 1) s.degree (s.thread t)) : s'.effort < s.effort := by
  unfold effort
  rw [← Finset.add_sum_erase _ _ (Finset.mem_univ t),
    ← Finset.add_sum_erase _ (fun u => callLeft _ s.degree (s.thread u)) (Finset.mem_univ t),
    hthread, Function.update_self]
  have hothers : ∑ u ∈ Finset.univ.erase t, callLeft (10 * Fintype.card T + 1) s'.degree
      (Function.update s.thread t activity u) ≤
        ∑ u ∈ Finset.univ.erase t,
          (callLeft (10 * Fintype.card T + 1) s.degree (s.thread u) + 10 * k) := by
    refine Finset.sum_le_sum fun u hu => ?_
    rw [Function.update_of_ne (Finset.ne_of_mem_erase hu)]
    exact callLeft_le hdegree (s.thread u)
  have hcard : (Finset.univ.erase t).card * (10 * k) ≤ 10 * k * Fintype.card T := by
    rw [Nat.mul_comm]
    exact Nat.mul_le_mul_left _ (Finset.card_erase_le.trans (le_of_eq Finset.card_univ))
  rw [Finset.sum_add_distrib, Finset.sum_const_nat fun _ _ => rfl] at hothers
  omega

/-- A step lengthens a list by its insertion, and by nothing else. -/
theorem ThreadStep.degree_le (hstep : ThreadStep p s t before channel activity)
    (hwired : Wired p s peers lists) (hedits : before.Edits p peers lists) (c : C) :
    Channels.listLength (channel c).connections ≤ s.degree c + insertions before := by
  have hsame : ∀ {l : IteratedList C}, l.getListLength = (s.channel c).connections.getListLength →
      Channels.listLength l ≤ s.degree c := by
    intro l hl
    unfold degree Channels.listLength
    rw [hl]
  have hquiet : ∀ {ch : Endpoint C T Ptr}, (s.channel c).Quiet ch →
      Channels.listLength ch.connections ≤ s.degree c :=
    fun h => hsame (sameNodes_getListLength h.nodes)
  -- a list that now stands for other elements
  have hmodify : ∀ {d : C} {f : Endpoint C T Ptr → Endpoint C T Ptr} {xs : List C} {k : ℕ},
      (f (s.channel d)).connections.StandsFor xs → xs.length ≤ (lists d).length + k →
        Channels.listLength ((s.modify d f).channel c).connections ≤ s.degree c + k := by
    intro d f xs k hlist hle
    by_cases hc : c = d
    · subst hc
      rw [modify_channel_self]
      unfold degree Channels.listLength
      rwa [hlist.getListLength_eq, (hwired.standsFor c).getListLength_eq]
    · rw [modify_channel_of_ne _ _ hc]
      exact Nat.le_add_right _ _
  have hself : ∀ d, (s.channel d).Quiet (s.channel d) := fun _ => quiet_refl _
  cases hstep with
  | bindInsertFirst id1 id2 =>
    exact hmodify ((hwired.standsFor id1).insertElement id2) (le_of_eq (List.length_cons ..))
  | bindInsertSecond id1 id2 =>
    exact hmodify ((hwired.standsFor id2).insertElement id1) (le_of_eq (List.length_cons ..))
  | unbindRemoveFirst id opposite i connections hremove =>
    obtain ⟨hpeer, rfl⟩ := hedits
    obtain ⟨l, hl, hlist⟩ := (hwired.standsFor id).removeElement hpeer
    obtain rfl := Option.some.inj (hremove.symm.trans hl)
    exact hmodify (k := 0) hlist List.length_erase_le
  | unbindRemoveSecond id opposite i connections hremove =>
    obtain ⟨l, hl, hlist⟩ := (hwired.standsFor opposite).removeElement hedits.1
    obtain rfl := Option.some.inj (hremove.symm.trans hl)
    exact hmodify (k := 0) hlist List.length_erase_le
  | bindUnlock | unbindUnlock => exact hquiet (quiet_unlock (quiet_unlock hself) c)
  | bindRefused | bindEnters | unbindEnters | unbindNext | unbindReturns | unbindLeavesFirst
  | unbindLeavesSecond => exact hquiet (hself c)
  | bindLockFirst | bindLockSecond | bindPostFirst | bindPostSecond | unbindWaitFirst
  | unbindWaitSecond | unbindLockFirst | unbindLockSecond | unbindPostFirst | unbindPostSecond =>
    exact hmodify (k := 0) (hwired.standsFor _) (Nat.le_refl _)
  | send hstep heq =>
    obtain ⟨_, hout⟩ := outside_send heq
    have hlist := (hout.keeps c).list _ (hwired.standsFor c)
    exact hsame (hlist.getListLength_eq.trans (hwired.standsFor c).getListLength_eq.symm)
  | receive hstep heq =>
    obtain ⟨_, hout⟩ := outside_receive heq
    have hlist := (hout.keeps c).list _ (hwired.standsFor c)
    exact hsame (hlist.getListLength_eq.trans (hwired.standsFor c).getListLength_eq.symm)

omit [DecidableEq C] in
theorem go_injective {v w : Network C T Ptr} {a b : Activity C Ptr} (h : v.go t a = w.go t b) :
    a = b := by
  have hthread := congrArg (fun u => u.thread t) h
  simpa [go] using hthread

theorem SendStep.callLeft_lt {length : C → ℕ} {data : Ptr} {pc : SendPc C}
    {v : Network C T Ptr} (budget : ℕ) (hstep : SendStep s cout data pc v activity)
    (heq : s.stepSend t cout data pc = some (v.go t activity))
    (hlength : length cout ≤ s.degree cout) :
    callLeft budget length activity < pc.left (s.degree cout) := by
  cases hstep with
  | setReady last =>
    simp only [stepSend] at heq
    split_ifs at heq with hfree
    simp only [Option.bind_eq_bind, Option.bind_eq_some_iff] at heq
    obtain ⟨found, hfound, heq⟩ := heq
    have hgo := go_injective (Option.some.inj heq)
    simp only [Activity.send.injEq, SendPc.scan.injEq] at hgo
    obtain rfl := hgo.1.2
    simp [callLeft, SendPc.left, degree, Channels.listLength, hfound]
  | passed i last receiver connections hget =>
    simp only [stepSend] at heq
    split_ifs at heq with hlt
    · simp only [callLeft, SendPc.left]
      omega
    · cases go_injective (Option.some.inj heq)
  | waitConns | taken | scanned | acknowledged | returned | woken =>
    simp only [callLeft, SendPc.left]
    omega

theorem ReceiveStep.callLeft_lt {length : C → ℕ} {pc : ReceivePc}
    {v : Network C T Ptr} (budget : ℕ) (hstep : ReceiveStep s cin pc v activity)
    (heq : s.stepReceive t cin pc = some (v.go t activity)) (hlength : length cin ≤ s.degree cin) :
    callLeft budget length activity < pc.left (s.degree cin) := by
  cases hstep with
  | setReady last =>
    simp only [stepReceive] at heq
    split_ifs at heq with hfree
    simp only [Option.bind_eq_bind, Option.bind_eq_some_iff] at heq
    obtain ⟨found, hfound, heq⟩ := heq
    have hgo := go_injective (Option.some.inj heq)
    simp only [Activity.receive.injEq, ReceivePc.scan.injEq] at hgo
    obtain rfl := hgo.1.2
    simp [callLeft, ReceivePc.left, degree, Channels.listLength, hfound]
  | passed i last sender connections hget =>
    simp only [stepReceive] at heq
    split_ifs at heq with hlt
    · simp only [callLeft, ReceivePc.left]
      omega
    · cases go_injective (Option.some.inj heq)
  | waitConns | taken | scanned | returned | woken | copied | posted =>
    simp only [callLeft, ReceivePc.left]
    omega

/-- A step takes more from what is left of its own call than its insertion adds to the others. -/
theorem ThreadStep.callLeft_lt [Fintype T] {length : C → ℕ}
    (hstep : ThreadStep p s t before channel activity)
    (hlength : ∀ c, length c ≤ s.degree c + insertions before)
    (hcounted : ∀ id i last, before = .unbindLoop id i last →
      (s.channel id).connections.getListLength = some last) :
    callLeft (10 * Fintype.card T + 1) length activity + 10 * insertions before * Fintype.card T <
      callLeft (10 * Fintype.card T + 1) s.degree before := by
  cases hstep with
  | bindRefused | bindEnters | bindLockFirst | bindLockSecond | bindInsertFirst | bindInsertSecond
  | bindPostFirst | bindPostSecond | bindUnlock =>
    simp only [callLeft, bindLeft, insertions]
    omega
  | unbindEnters id last | unbindWaitFirst id | unbindWaitSecond id | unbindLockFirst id
  | unbindLockSecond id | unbindRemoveFirst id | unbindRemoveSecond id | unbindUnlock id
  | unbindLeavesFirst id | unbindPostFirst id | unbindLeavesSecond id | unbindPostSecond id =>
    have hid := hlength id
    simp only [callLeft, unbindLeft, insertions] at hid ⊢
    omega
  | unbindNext id opposite i last hlt =>
    have hid := hlength id
    have hlast : s.degree id = last := by
      unfold degree Channels.listLength
      rw [hcounted id i last rfl, Option.getD_some]
    simp only [callLeft, unbindLeft, insertions] at hid ⊢
    omega
  | unbindReturns =>
    simp only [callLeft, insertions]
    omega
  | send hsend heq =>
    have hcall := hsend.callLeft_lt (10 * Fintype.card T + 1) heq (hlength _)
    simpa only [insertions, callLeft, Nat.mul_zero, Nat.zero_mul, Nat.add_zero] using hcall
  | receive hreceive heq =>
    have hcall := hreceive.callLeft_lt (10 * Fintype.card T + 1) heq (hlength _)
    simpa only [insertions, callLeft, Nat.mul_zero, Nat.zero_mul, Nat.add_zero] using hcall

/-- **Each step of a thread lowers the effort.** -/
theorem Going.effort_lt [Fintype T] (h : Going p s) (hnew : BindsNew s (.step t))
    (hstep : Network.step p s (.step t) = some s') : s'.effort < s.effort := by
  obtain ⟨peers, lists, hwired⟩ := h.wired
  obtain ⟨activity, hmove, hthread⟩ := leads_of_step hnew hstep
  have hdegree := hmove.degree_le hwired (hwired.edits t)
  exact Network.effort_lt hthread hdegree (hmove.callLeft_lt hdegree (h.counted t))

/-! ### Runs -/

/-- A thread goes on with its call. -/
def IsStep : NetworkEvent C T Ptr → Prop
  | .step _ => True
  | _ => False

end Network

end InsenseCVM
