import InsenseCVM.Channels.NetworkSteps

/-!
# Matches that are acknowledged

A send that has matched a receive waits for a post of `actually_received`, which the receive makes
when it has been woken and has copied. Any number of threads may send and receive on a channel, so
this is a matter of counting: the sends that wait for a channel are as many as its tokens and the
receives between taking one and posting the other, and there are receives enough to take each token.
Binding and unbinding have no part in it.
-/

namespace InsenseCVM
namespace Network

variable {C T Ptr : Type} [DecidableEq C] [DecidableEq T] {p : Ports C} {s s' : Network C T Ptr}
  {t u : T} {before activity : Activity C Ptr} {channel : C → Endpoint C T Ptr}
  {c d cout cin : C} {peers lists : C → List C}

/-! ### Matches that are not acknowledged yet -/

/-- The thread has matched a receive on `c` and waits until it has copied. -/
def waitsFor (c : C) : Activity C Ptr → ℕ
  | .send (.waitReceived receiver) _ _ => if receiver = c then 1 else 0
  | _ => 0

/-- The thread has been woken in a receive on `c` and has not posted `actually_received`. -/
def copies (c : C) : Activity C Ptr → ℕ
  | .receive .copy cin | .receive .postReceived cin => if cin = c then 1 else 0
  | _ => 0

/-- The thread is in a receive on `c`, from its scan on until it is woken. -/
def receivesAt (c : C) : Activity C Ptr → ℕ
  | .receive (.scan _ _) cin | .receive .waitBlocked cin => if cin = c then 1 else 0
  | _ => 0

/-- The thread is in no transfer, or in one that uses its channels in their directions. -/
def UsesDirection (p : Ports C) : Activity C Ptr → Prop
  | .send .idle _ _ | .receive .idle _ => False
  | .send (.waitReceived receiver) cout _ =>
    p.direction cout = .chanOut ∧ p.direction receiver = .chanIn
  | .send _ cout _ => p.direction cout = .chanOut
  | .receive _ cin => p.direction cin = .chanIn
  | _ => True

/-- The number of threads that are somewhere. -/
def count [Fintype T] (weight : Activity C Ptr → ℕ) (s : Network C T Ptr) : ℕ :=
  ∑ t, weight (s.thread t)

omit [DecidableEq C] in
theorem count_step [Fintype T] (hthread : s'.thread = Function.update s.thread t activity)
    (weight : Activity C Ptr → ℕ) :
    s'.count weight + weight (s.thread t) = s.count weight + weight activity := by
  unfold count
  rw [hthread, ← Finset.add_sum_erase _ _ (Finset.mem_univ t),
    ← Finset.add_sum_erase _ (fun u => weight (s.thread u)) (Finset.mem_univ t),
    Function.update_self]
  have hrest : ∑ u ∈ Finset.univ.erase t, weight (Function.update s.thread t activity u) =
      ∑ u ∈ Finset.univ.erase t, weight (s.thread u) := by
    refine Finset.sum_congr rfl fun u hu => ?_
    rw [Function.update_of_ne (Finset.ne_of_mem_erase hu)]
  omega

/-- Each send that waits for an acknowledgement has a token on its way to it, and each token of an
incoming channel a receive that takes it. -/
structure Acknowledged [Fintype T] (p : Ports C) (s : Network C T Ptr) : Prop where
  uses : ∀ t, UsesDirection p (s.thread t)
  offered : ∀ c, p.direction c = .chanOut → (s.channel c).ready = true →
    (s.channel c).buffer ≠ none
  filled : ∀ c, p.direction c = .chanIn → 0 < (s.channel c).blocked + s.count (copies c) →
    (s.channel c).buffer ≠ none
  tokens : ∀ c, p.direction c = .chanIn → s.count (waitsFor c) =
    (s.channel c).blocked + s.count (copies c) + (s.channel c).actuallyReceived
  parked : ∀ c, p.direction c = .chanIn →
    (s.channel c).blocked + (s.channel c).ready.toNat ≤ s.count (receivesAt c)

/-- A step of a thread to `activity` keeps this if what it adds to one side of each balance it adds
to the other. -/
theorem Acknowledged.of_moves [Fintype T] (h : Acknowledged p s)
    (hthread : s'.thread = Function.update s.thread t activity)
    (huses : UsesDirection p activity)
    (hoffered : ∀ c, p.direction c = .chanOut → (s'.channel c).ready = true →
      (s'.channel c).buffer ≠ none)
    (hbuffer : ∀ c, p.direction c = .chanIn → (s.channel c).buffer ≠ none →
      (s'.channel c).buffer ≠ none)
    (hfilled : ∀ c, p.direction c = .chanIn → (s'.channel c).buffer ≠ none ∨
      (s'.channel c).blocked + copies c activity ≤ (s.channel c).blocked + copies c (s.thread t))
    (htokens : ∀ c, p.direction c = .chanIn → waitsFor c activity + (s.channel c).blocked +
        copies c (s.thread t) + (s.channel c).actuallyReceived = waitsFor c (s.thread t) +
          (s'.channel c).blocked + copies c activity + (s'.channel c).actuallyReceived)
    (hparked : ∀ c, p.direction c = .chanIn → (s'.channel c).blocked +
        (s'.channel c).ready.toNat + receivesAt c (s.thread t) ≤
          (s.channel c).blocked + (s.channel c).ready.toNat + receivesAt c activity) :
    Acknowledged p s' := by
  refine ⟨fun u => ?_, hoffered, fun c hc hpos => ?_, fun c hc => ?_, fun c hc => ?_⟩
  · rw [hthread]
    by_cases hu : u = t
    · subst hu
      rwa [Function.update_self]
    · rw [Function.update_of_ne hu]
      exact h.uses u
  · rcases hfilled c hc with hsome | hle
    · exact hsome
    · have hcopies := count_step hthread (copies c)
      exact hbuffer c hc (h.filled c hc (by omega))
  · have hcopies := count_step hthread (copies c)
    have hwaits := count_step hthread (waitsFor c)
    have hold := h.tokens c hc
    have hnew := htokens c hc
    omega
  · have hreceives := count_step hthread (receivesAt c)
    have hold := h.parked c hc
    have hnew := hparked c hc
    omega

/-- The fields for a rendezvous are unchanged. -/
structure SameOffer (ch ch' : Endpoint C T Ptr) : Prop where
  buffer : ch'.buffer = ch.buffer
  ready : ch'.ready = ch.ready
  blocked : ch'.blocked = ch.blocked
  actuallyReceived : ch'.actuallyReceived = ch.actuallyReceived

omit [DecidableEq C] [DecidableEq T] in
theorem sameOffer_refl (ch : Endpoint C T Ptr) : SameOffer ch ch := ⟨rfl, rfl, rfl, rfl⟩

omit [DecidableEq T] in
theorem sameOffer_modify {f : Endpoint C T Ptr → Endpoint C T Ptr}
    (h : ∀ d, SameOffer (s.channel d) (f (s.channel d))) (d : C) :
    SameOffer (s.channel d) ((s.modify c f).channel d) :=
  forall_modify (P := fun d ch => SameOffer (s.channel d) ch) (fun _ _ => sameOffer_refl _) (h c) d

/-- A step that changes neither an offer nor the place of a thread in a rendezvous. -/
theorem Acknowledged.of_same [Fintype T] (h : Acknowledged p s)
    (hthread : s'.thread = Function.update s.thread t activity)
    (huses : UsesDirection p activity)
    (hsame : ∀ c, SameOffer (s.channel c) (s'.channel c))
    (hwaits : ∀ c, waitsFor c activity = waitsFor c (s.thread t))
    (hcopies : ∀ c, copies c activity = copies c (s.thread t))
    (hreceives : ∀ c, receivesAt c activity = receivesAt c (s.thread t)) : Acknowledged p s' := by
  refine h.of_moves hthread huses (fun c hc hready => ?_) (fun c hc hsome => ?_)
    (fun c hc => .inr ?_) (fun c hc => ?_) fun c hc => ?_
  · rw [(hsame c).ready] at hready
    rw [(hsame c).buffer]
    exact h.offered c hc hready
  · rwa [(hsame c).buffer]
  · rw [(hsame c).blocked, hcopies c]
  · rw [(hsame c).blocked, (hsame c).actuallyReceived, hcopies c, hwaits c]
  · rw [(hsame c).blocked, (hsame c).ready, hreceives c]

/-- A thread that sends or receives. -/
def Transfers : Activity C Ptr → Prop
  | .send _ _ _ | .receive _ _ => True
  | _ => False

/-- Binding and unbinding touch no offer. -/
theorem ThreadStep.same (hstep : ThreadStep p s t before channel activity)
    (hbefore : ¬ Transfers before) :
    (∀ c, SameOffer (s.channel c) (channel c)) ∧ ¬ Transfers activity := by
  have hunlock : ∀ a b c, SameOffer (s.channel c) (((s.unlock a).unlock b).channel c) := by
    intro a b
    have hfirst : ∀ c, SameOffer (s.channel c) ((s.unlock a).channel c) :=
      sameOffer_modify fun _ => ⟨rfl, rfl, rfl, rfl⟩
    have hb := hfirst b
    exact forall_modify (P := fun d ch => SameOffer (s.channel d) ch) (fun d _ => hfirst d)
      ⟨hb.buffer, hb.ready, hb.blocked, hb.actuallyReceived⟩
  cases hstep with
  | bindRefused | bindEnters | unbindEnters | unbindNext | unbindReturns | unbindLeavesFirst
  | unbindLeavesSecond => exact ⟨fun _ => sameOffer_refl _, fun h => h⟩
  | bindLockFirst | bindLockSecond | bindInsertFirst | bindInsertSecond | bindPostFirst
  | bindPostSecond | unbindWaitFirst | unbindWaitSecond | unbindLockFirst | unbindLockSecond
  | unbindRemoveFirst | unbindRemoveSecond | unbindPostFirst | unbindPostSecond =>
    exact ⟨sameOffer_modify fun _ => ⟨rfl, rfl, rfl, rfl⟩, fun h => h⟩
  | bindUnlock | unbindUnlock => exact ⟨hunlock _ _, fun h => h⟩
  | send => exact absurd trivial hbefore
  | receive => exact absurd trivial hbefore

omit [DecidableEq T] in
/-- What a thread finds in its scan is connected, whatever another thread is editing. -/
theorem Wired.scanned (h : Wired p s peers lists) (hinv : Inv p s)
    (hsection : (s.thread u).InSection c) : ∀ d ∈ lists c, d ∈ peers c := by
  have hsame : lists c = peers c → ∀ d ∈ lists c, d ∈ peers c := fun heq d hd => heq ▸ hd
  cases hop : s.connOpMutex with
  | none => exact hsame (congrFun (h.rest hop) c)
  | some t =>
    have hedits := h.edits t
    have hholds := (h.op t).2 hop
    cases hthread : s.thread t with
    | idle | unbindLock | send | receive =>
      rw [hthread] at hholds
      exact hholds.elim
    | unbindLoop =>
      rw [hthread] at hedits
      exact hsame (congrFun hedits c)
    | bind stage id1 id2 =>
      rw [hthread] at hedits hholds
      cases stage with
      | lockOp => exact hholds.elim
      | lockFirst | lockSecond | insertFirst => exact hsame (congrFun hedits.2.2 c)
      | insertSecond =>
        by_cases hc : c = id2
        · subst hc
          rw [hedits.1]
          exact fun d hd => List.mem_cons_of_mem _ hd
        · exact hsame (hedits.2 c hc)
      | postFirst | postSecond | unlock => exact hsame (congrFun hedits c)
    | unbind stage id opposite i =>
      rw [hthread] at hedits
      cases stage with
      | waitFirst | waitSecond | lockFirst | lockSecond | removeFirst =>
        exact hsame (congrFun hedits.2 c)
      | removeSecond =>
        by_cases hc : c = opposite
        · -- the thread that edits this list has its token
          subst hc
          have hown : (s.thread t).Owns p c := by
            rw [hthread]
            exact .inr (.inr rfl)
          have hut : u = t := (hinv.token c t hown).2 u (.inl hsection)
          rw [hut, hthread] at hsection
          exact hsection.elim
        · exact hsame (hedits.2.2 c hc)
      | unlock | postFirst | postSecond => exact hsame (congrFun hedits c)

omit [DecidableEq T] in
/-- The channels that a scan compares are of different directions. -/
theorem Wired.crossed {connections : IteratedList C} (h : Wired p s peers lists) (hinv : Inv p s)
    (hsection : (s.thread u).InSection c)
    (hget : (s.channel c).connections.getNextElement = some (some d, connections)) :
    p.direction c ≠ p.direction d := by
  obtain ⟨x, hx, l', hnext⟩ := (h.standsFor c).exists_next (hinv.inSection c u hsection)
  obtain ⟨hsome, -⟩ := Prod.mk.inj (Option.some.inj (hget.symm.trans hnext))
  obtain rfl := Option.some.inj hsome
  exact h.graph.direction c d (h.scanned hinv hsection d hx)

omit [DecidableEq C] [DecidableEq T] in
theorem direction_of_send {pc : SendPc C} {data : Ptr} (h : UsesDirection p (.send pc cout data)) :
    p.direction cout = .chanOut := by
  cases pc with
  | idle => exact h.elim
  | waitReceived receiver => exact h.1
  | waitConns | setReady | scan | postConns | waitBlocked => exact h

omit [DecidableEq C] [DecidableEq T] in
theorem direction_of_receive {pc : ReceivePc}
    (h : UsesDirection p (.receive pc cin : Activity C Ptr)) : p.direction cin = .chanIn := by
  cases pc with
  | idle => exact h.elim
  | waitConns | setReady | scan | postConns | waitBlocked | copy | postReceived => exact h

/-- A step that touches one outgoing channel and moves no thread in a rendezvous. -/
theorem Acknowledged.of_out [Fintype T] (h : Acknowledged p s)
    (hthread : s'.thread = Function.update s.thread t activity) (huses : UsesDirection p activity)
    (hcout : p.direction cout = .chanOut)
    (hsame : ∀ c ≠ cout, SameOffer (s.channel c) (s'.channel c))
    (hoffer : (s'.channel cout).ready = true → (s'.channel cout).buffer ≠ none)
    (hwaits : ∀ c, waitsFor c activity = waitsFor c (s.thread t))
    (hcopies : ∀ c, copies c activity = copies c (s.thread t))
    (hreceives : ∀ c, receivesAt c activity = receivesAt c (s.thread t)) : Acknowledged p s' := by
  have hin : ∀ c, p.direction c = .chanIn → SameOffer (s.channel c) (s'.channel c) := by
    intro c hc
    refine hsame c ?_
    rintro rfl
    rw [hcout] at hc
    cases hc
  refine h.of_moves hthread huses (fun c hc hready => ?_) (fun c hc hsome => ?_)
    (fun c hc => .inr ?_) (fun c hc => ?_) fun c hc => ?_
  · by_cases heq : c = cout
    · subst heq
      exact hoffer hready
    · rw [(hsame c heq).ready] at hready
      rw [(hsame c heq).buffer]
      exact h.offered c hc hready
  · rwa [(hin c hc).buffer]
  · rw [(hin c hc).blocked, hcopies c]
  · rw [(hin c hc).blocked, (hin c hc).actuallyReceived, hcopies c, hwaits c]
  · rw [(hin c hc).blocked, (hin c hc).ready, hreceives c]

/-- The places of a thread in a rendezvous on other channels are the same. -/
def SamePlaces (c : C) (before activity : Activity C Ptr) : Prop :=
  ∀ d ≠ c, waitsFor d activity = waitsFor d before ∧ copies d activity = copies d before ∧
    receivesAt d activity = receivesAt d before

/-- A step that touches one incoming channel, and moves a thread in a rendezvous there. -/
theorem Acknowledged.of_in [Fintype T] (h : Acknowledged p s) (cin : C)
    (hthread : s'.thread = Function.update s.thread t activity) (huses : UsesDirection p activity)
    (hoffered : ∀ c, p.direction c = .chanOut → (s'.channel c).ready = true →
      (s'.channel c).buffer ≠ none)
    (hother : ∀ c ≠ cin, p.direction c = .chanIn → SameOffer (s.channel c) (s'.channel c))
    (hplaces : SamePlaces cin (s.thread t) activity)
    (hbuffer : (s.channel cin).buffer ≠ none → (s'.channel cin).buffer ≠ none)
    (hfilled : (s'.channel cin).buffer ≠ none ∨
      (s'.channel cin).blocked + copies cin activity ≤
        (s.channel cin).blocked + copies cin (s.thread t))
    (htokens : waitsFor cin activity + (s.channel cin).blocked + copies cin (s.thread t) +
        (s.channel cin).actuallyReceived = waitsFor cin (s.thread t) + (s'.channel cin).blocked +
          copies cin activity + (s'.channel cin).actuallyReceived)
    (hparked : (s'.channel cin).blocked + (s'.channel cin).ready.toNat +
        receivesAt cin (s.thread t) ≤
          (s.channel cin).blocked + (s.channel cin).ready.toNat + receivesAt cin activity) :
    Acknowledged p s' := by
  refine h.of_moves hthread huses hoffered (fun c hc hsome => ?_) (fun c hc => ?_) (fun c hc => ?_)
    fun c hc => ?_
  all_goals by_cases hcin : c = cin
  · exact hcin ▸ hbuffer (hcin ▸ hsome)
  · rwa [(hother c hcin hc).buffer]
  · exact hcin ▸ hfilled
  · rw [(hother c hcin hc).blocked, (hplaces c hcin).2.1]
    exact .inr (Nat.le_refl _)
  · exact hcin ▸ htokens
  · rw [(hother c hcin hc).blocked, (hother c hcin hc).actuallyReceived, (hplaces c hcin).1,
      (hplaces c hcin).2.1]
  · exact hcin ▸ hparked
  · rw [(hother c hcin hc).blocked, (hother c hcin hc).ready, (hplaces c hcin).2.2]

/-- What a match by a send leaves. -/
structure SendMatched (cout receiver : C) (s v : Network C T Ptr) : Prop where
  offered : (s.channel cout).ready = true
  awaited : (s.channel receiver).ready = true
  taken : (v.channel cout).ready = false
  buffer : (v.channel receiver).buffer = (s.channel cout).buffer
  ready : (v.channel receiver).ready = false
  blocked : (v.channel receiver).blocked = (s.channel receiver).blocked + 1
  actuallyReceived : (v.channel receiver).actuallyReceived = (s.channel receiver).actuallyReceived
  others : ∀ d ≠ cout, d ≠ receiver → v.channel d = s.channel d

omit [DecidableEq T] in
theorem sendMatched {receiver : C} {pair : Channel C Ptr × Channel C Ptr} (hne : receiver ≠ cout)
    (h : Channels.sendMatch (s.channel cout).toChannel (s.channel receiver).toChannel = some pair) :
    SendMatched cout receiver s ((s.modify cout fun ch => { ch with toChannel := pair.1 }).modify
      receiver fun ch => { ch with toChannel := pair.2 }) := by
  unfold Channels.sendMatch at h
  split_ifs at h with hready
  cases h
  obtain ⟨hreceiver, hcout⟩ := Bool.and_eq_true_iff.1 hready
  refine ⟨hcout, hreceiver, ?_, ?_, ?_, ?_, ?_, fun d hd hd' => ?_⟩
  · rw [modify_channel_of_ne _ _ hne.symm, modify_channel_self]
  all_goals try rw [modify_channel_self]
  rw [modify_channel_of_ne _ _ hd', modify_channel_of_ne _ _ hd]

/-- What a match by a receive leaves. -/
structure ReceiveMatched (cin sender : C) (s v : Network C T Ptr) : Prop where
  offered : (s.channel sender).ready = true
  awaited : (s.channel cin).ready = true
  taken : (v.channel sender).ready = false
  buffer : (v.channel cin).buffer = (s.channel sender).buffer
  ready : (v.channel cin).ready = false
  blocked : (v.channel cin).blocked = (s.channel cin).blocked
  actuallyReceived : (v.channel cin).actuallyReceived = (s.channel cin).actuallyReceived
  others : ∀ d ≠ cin, d ≠ sender → v.channel d = s.channel d

omit [DecidableEq T] in
theorem receiveMatched {sender : C} {pair : Channel C Ptr × Channel C Ptr} (hne : sender ≠ cin)
    (h : Channels.receiveMatch (s.channel cin).toChannel (s.channel sender).toChannel = some pair) :
    ReceiveMatched cin sender s ((s.modify cin fun ch => { ch with toChannel := pair.1 }).modify
      sender fun ch => { ch with toChannel := pair.2 }) := by
  unfold Channels.receiveMatch at h
  split_ifs at h with hready
  cases h
  obtain ⟨hsender, hcin⟩ := Bool.and_eq_true_iff.1 hready
  refine ⟨hsender, hcin, ?_, ?_, ?_, ?_, ?_, fun d hd hd' => ?_⟩
  · rw [modify_channel_self]
  all_goals try rw [modify_channel_of_ne _ _ hne.symm, modify_channel_self]
  rw [modify_channel_of_ne _ _ hd', modify_channel_of_ne _ _ hd]

/-- Steps of a send. -/
theorem Acknowledged.send [Fintype T] {pc : SendPc C} {data : Ptr} {v : Network C T Ptr}
    (h : Acknowledged p s) (hwired : Wired p s peers lists) (hinv : Inv p s)
    (hbefore : s.thread t = .send pc cout data) (hstep : SendStep s cout data pc v activity)
    (heq : s.stepSend t cout data pc = some (v.go t activity)) (hchannel : s'.channel = v.channel)
    (hthread : s'.thread = Function.update s.thread t activity) : Acknowledged p s' := by
  have huses := h.uses t
  rw [hbefore] at huses
  have hcout := direction_of_send huses
  have hmodify : ∀ {f : Endpoint C T Ptr → Endpoint C T Ptr}, ∀ d ≠ cout,
      SameOffer (s.channel d) ((s.modify cout f).channel d) := by
    intro f d hd
    rw [modify_channel_of_ne _ _ hd]
    exact sameOffer_refl _
  cases hstep with
  | waitConns hsem =>
    refine h.of_same hthread hcout (fun c => ?_) ?_ ?_ ?_
    · rw [hchannel]
      exact sameOffer_modify (fun _ => ⟨rfl, rfl, rfl, rfl⟩) c
    all_goals
      rw [hbefore]
      exact fun _ => rfl
  | setReady length =>
    refine h.of_out hthread hcout hcout (fun c hc => hchannel ▸ hmodify c hc) ?_ ?_ ?_ ?_
    · rw [hchannel, modify_channel_self]
      exact fun _ hnone => by cases hnone
    all_goals
      rw [hbefore]
      exact fun _ => rfl
  | taken i length receiver connections pair hget hmatch =>
    have hsection : (s.thread t).InSection cout := by
      rw [hbefore]
      exact ⟨rfl, rfl⟩
    have hcrossed := hwired.crossed hinv hsection hget
    have hin : p.direction receiver = .chanIn := by
      cases hdirection : p.direction receiver with
      | chanIn => rfl
      | chanOut => exact absurd (hcout.trans hdirection.symm) hcrossed
    have hne : receiver ≠ cout := fun heq => hcrossed (congrArg p.direction heq.symm)
    -- the cursor has moved on before the match
    have hcursor : ∀ d, SameOffer (s.channel d)
        ((s.modify cout fun ch => { ch with connections := connections }).channel d) :=
      sameOffer_modify fun _ => ⟨rfl, rfl, rfl, rfl⟩
    have hmatched := sendMatched hne hmatch
    have hoffer : (s.channel cout).buffer ≠ none :=
      h.offered cout hcout ((hcursor cout).ready.symm.trans hmatched.offered)
    have hawaited := (hcursor receiver).ready.symm.trans hmatched.awaited
    refine h.of_in receiver hthread ⟨hcout, hin⟩ (fun c hc hready => ?_)
      (fun c hcr hc => ?_) (fun c hcr => ?_) ?_ (.inl ?_) ?_ ?_
    · by_cases hcc : c = cout
      · subst hcc
        rw [hchannel, hmatched.taken] at hready
        cases hready
      · have hcr : c ≠ receiver := by
          rintro rfl
          rw [hin] at hc
          cases hc
        rw [hchannel, hmatched.others c hcc hcr] at hready ⊢
        rw [(hcursor c).ready] at hready
        rw [(hcursor c).buffer]
        exact h.offered c hc hready
    · have hcc : c ≠ cout := by
        rintro rfl
        rw [hcout] at hc
        cases hc
      rw [hchannel, hmatched.others c hcc hcr]
      exact hcursor c
    · rw [hbefore]
      exact ⟨if_neg (Ne.symm hcr), rfl, rfl⟩
    · rw [hchannel, hmatched.buffer, (hcursor cout).buffer]
      exact fun _ => hoffer
    · rw [hchannel, hmatched.buffer, (hcursor cout).buffer]
      exact hoffer
    · rw [hchannel, hmatched.blocked, hmatched.actuallyReceived, (hcursor receiver).blocked,
        (hcursor receiver).actuallyReceived, hbefore]
      simp only [waitsFor, copies, if_pos]
      omega
    · rw [hchannel, hmatched.blocked, hmatched.ready, (hcursor receiver).blocked, hawaited, hbefore]
      exact Nat.le_refl _
  | passed i length receiver connections hget =>
    refine h.of_same hthread hcout (fun c => ?_) ?_ ?_ ?_
    · rw [hchannel]
      exact sameOffer_modify (fun _ => ⟨rfl, rfl, rfl, rfl⟩) c
    all_goals
      rw [hbefore]
      exact fun _ => rfl
  | scanned i length =>
    refine h.of_same hthread hcout (fun c => ?_) ?_ ?_ ?_
    · rw [hchannel]
      exact sameOffer_modify (fun _ => ⟨rfl, rfl, rfl, rfl⟩) c
    all_goals
      rw [hbefore]
      exact fun _ => rfl
  | acknowledged receiver =>
    have htoken : 0 < (s.channel receiver).actuallyReceived := by
      simp only [stepSend] at heq
      split_ifs at heq with htoken
      exact htoken
    have hother : ∀ c ≠ receiver, SameOffer (s.channel c) (s'.channel c) := by
      intro c hc
      rw [hchannel, modify_channel_of_ne _ _ hc]
      exact sameOffer_refl _
    have hne : ∀ c, p.direction c = .chanOut → c ≠ receiver := by
      rintro c hc rfl
      rw [huses.2] at hc
      cases hc
    refine h.of_in receiver hthread huses.1 (fun c hc hready => ?_)
      (fun c hc _ => hother c hc) (fun c hcr => ?_) ?_ (.inr ?_) ?_ ?_
    · rw [(hother c (hne c hc)).ready] at hready
      rw [(hother c (hne c hc)).buffer]
      exact h.offered c hc hready
    · rw [hbefore]
      exact ⟨(if_neg (Ne.symm hcr)).symm, rfl, rfl⟩
    all_goals rw [hchannel, modify_channel_self]
    · exact fun hsome => hsome
    · rw [hbefore]
      exact Nat.le_refl _
    · rw [hbefore]
      simp only [waitsFor, copies, if_pos]
      omega
    · rw [hbefore]
      exact Nat.le_refl _
  | returned =>
    refine h.of_same hthread trivial (fun c => ?_) ?_ ?_ ?_
    · rw [hchannel]
      exact sameOffer_modify (fun _ => ⟨rfl, rfl, rfl, rfl⟩) c
    all_goals
      rw [hbefore]
      exact fun _ => rfl
  | woken =>
    refine h.of_out hthread trivial hcout (fun c hc => hchannel ▸ hmodify c hc) ?_ ?_ ?_ ?_
    · rw [hchannel, modify_channel_self]
      exact h.offered cout hcout
    all_goals
      rw [hbefore]
      exact fun _ => rfl

/-- Steps of a receive. -/
theorem Acknowledged.receive [Fintype T] {pc : ReceivePc} {v : Network C T Ptr}
    (h : Acknowledged p s) (hwired : Wired p s peers lists) (hinv : Inv p s)
    (hbefore : s.thread t = .receive pc cin) (hstep : ReceiveStep s cin pc v activity)
    (heq : s.stepReceive t cin pc = some (v.go t activity)) (hchannel : s'.channel = v.channel)
    (hthread : s'.thread = Function.update s.thread t activity) : Acknowledged p s' := by
  have hcin : p.direction cin = .chanIn := by
    have huses := h.uses t
    rw [hbefore] at huses
    exact direction_of_receive huses
  have hmodify : ∀ {f : Endpoint C T Ptr → Endpoint C T Ptr}, ∀ d ≠ cin,
      SameOffer (s.channel d) ((s.modify cin f).channel d) := by
    intro f d hd
    rw [modify_channel_of_ne _ _ hd]
    exact sameOffer_refl _
  have hout : ∀ c, p.direction c = .chanOut → c ≠ cin := by
    rintro c hc rfl
    rw [hcin] at hc
    cases hc
  -- where only `cin` changes no offer does
  have hoffered : ∀ {f : Endpoint C T Ptr → Endpoint C T Ptr},
      s'.channel = (s.modify cin f).channel → ∀ c, p.direction c = .chanOut →
        (s'.channel c).ready = true → (s'.channel c).buffer ≠ none := by
    intro f hf c hc
    rw [hf, (hmodify c (hout c hc)).ready, (hmodify c (hout c hc)).buffer]
    exact h.offered c hc
  cases hstep with
  | waitConns hsem =>
    refine h.of_same hthread hcin (fun c => ?_) ?_ ?_ ?_
    · rw [hchannel]
      exact sameOffer_modify (fun _ => ⟨rfl, rfl, rfl, rfl⟩) c
    all_goals
      rw [hbefore]
      exact fun _ => rfl
  | setReady length =>
    refine h.of_in cin hthread hcin (hoffered hchannel) (fun c hc _ => hchannel ▸ hmodify c hc)
      (fun c hc => ?_) ?_ (.inr ?_) ?_ ?_
    · rw [hbefore]
      exact ⟨rfl, rfl, if_neg (Ne.symm hc)⟩
    all_goals rw [hchannel, modify_channel_self]
    · exact fun hsome => hsome
    · rw [hbefore]
      exact Nat.le_refl _
    · rw [hbefore]
      rfl
    · rw [hbefore]
      simp only [receivesAt, if_pos, Bool.toNat_true]
      omega
  | taken i length sender connections pair hget hmatch =>
    have hsection : (s.thread t).InSection cin := by
      rw [hbefore]
      exact ⟨rfl, rfl⟩
    have hcrossed := hwired.crossed hinv hsection hget
    have hsender : p.direction sender = .chanOut := by
      cases hdirection : p.direction sender with
      | chanIn => exact absurd (hcin.trans hdirection.symm) hcrossed
      | chanOut => rfl
    have hne : sender ≠ cin := fun heq => hcrossed (congrArg p.direction heq.symm)
    have hcursor : ∀ d, SameOffer (s.channel d)
        ((s.modify cin fun ch => { ch with connections := connections }).channel d) :=
      sameOffer_modify fun _ => ⟨rfl, rfl, rfl, rfl⟩
    have hmatched := receiveMatched hne hmatch
    have hoffer : (s.channel sender).buffer ≠ none :=
      h.offered sender hsender ((hcursor sender).ready.symm.trans hmatched.offered)
    have hawaited := (hcursor cin).ready.symm.trans hmatched.awaited
    refine h.of_in cin hthread hcin (fun c hc hready => ?_) (fun c hcc hc => ?_) (fun c hcc => ?_) ?_
      (.inl ?_) ?_ ?_
    · by_cases hcs : c = sender
      · subst hcs
        rw [hchannel, hmatched.taken] at hready
        cases hready
      · rw [hchannel, hmatched.others c (hout c hc) hcs] at hready ⊢
        rw [(hcursor c).ready] at hready
        rw [(hcursor c).buffer]
        exact h.offered c hc hready
    · have hcs : c ≠ sender := by
        rintro rfl
        rw [hsender] at hc
        cases hc
      rw [hchannel, hmatched.others c hcc hcs]
      exact hcursor c
    · rw [hbefore]
      exact ⟨rfl, rfl, (if_neg (Ne.symm hcc)).symm⟩
    · rw [hchannel, hmatched.buffer, (hcursor sender).buffer]
      exact fun _ => hoffer
    · rw [hchannel, hmatched.buffer, (hcursor sender).buffer]
      exact hoffer
    · rw [hchannel, hmatched.blocked, hmatched.actuallyReceived, (hcursor cin).blocked,
        (hcursor cin).actuallyReceived, hbefore]
      rfl
    · rw [hchannel, hmatched.blocked, hmatched.ready, (hcursor cin).blocked, hawaited, hbefore]
      simp only [receivesAt, if_pos]
      exact Nat.le_refl _
  | passed i length sender connections hget =>
    refine h.of_same hthread hcin (fun c => ?_) ?_ ?_ ?_
    · rw [hchannel]
      exact sameOffer_modify (fun _ => ⟨rfl, rfl, rfl, rfl⟩) c
    all_goals
      rw [hbefore]
      exact fun _ => rfl
  | scanned i length =>
    refine h.of_same hthread hcin (fun c => ?_) ?_ ?_ ?_
    · rw [hchannel]
      exact sameOffer_modify (fun _ => ⟨rfl, rfl, rfl, rfl⟩) c
    all_goals
      rw [hbefore]
      exact fun _ => rfl
  | returned =>
    refine h.of_same hthread trivial (fun c => ?_) ?_ ?_ ?_
    · rw [hchannel]
      exact sameOffer_modify (fun _ => ⟨rfl, rfl, rfl, rfl⟩) c
    all_goals
      rw [hbefore]
      exact fun _ => rfl
  | woken =>
    have htoken : 0 < (s.channel cin).blocked := by
      simp only [stepReceive] at heq
      split_ifs at heq with htoken
      exact htoken
    refine h.of_in cin hthread hcin (hoffered hchannel) (fun c hc _ => hchannel ▸ hmodify c hc)
      (fun c hc => ?_) ?_ (.inr ?_) ?_ ?_
    · rw [hbefore]
      exact ⟨rfl, if_neg (Ne.symm hc), (if_neg (Ne.symm hc)).symm⟩
    all_goals rw [hchannel, modify_channel_self]
    · exact fun hsome => hsome
    all_goals
      rw [hbefore]
      simp only [waitsFor, copies, receivesAt, if_pos]
      omega
  | copied =>
    refine h.of_same hthread hcin (fun c => ?_) ?_ ?_ ?_
    · rw [hchannel]
      exact sameOffer_refl _
    all_goals
      rw [hbefore]
      exact fun _ => rfl
  | posted =>
    refine h.of_in cin hthread trivial (hoffered hchannel) (fun c hc _ => hchannel ▸ hmodify c hc)
      (fun c hc => ?_) ?_ (.inr ?_) ?_ ?_
    · rw [hbefore]
      exact ⟨rfl, (if_neg (Ne.symm hc)).symm, rfl⟩
    all_goals rw [hchannel, modify_channel_self]
    · exact fun hsome => hsome
    all_goals
      rw [hbefore]
      simp only [waitsFor, copies, receivesAt, if_pos]
      omega

end Network

end InsenseCVM
