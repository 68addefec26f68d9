import InsenseCVM.Channels.Progress

/-!
# Order of transfer

The sends on a channel are matched in the order they are called in, and so are the receives. At any
time `offers` and `requests`, the arguments of the calls so far, are the data of the matches and
the copies so far and the argument of the one call that is still waiting for its own. Between a
pair of channels that is connected to nothing else the n-th receive copies from the n-th send, and
neither side gets more than one call ahead of the copies.
-/

namespace InsenseCVM

namespace Channels

open Transition

variable {I O Ptr : Type}

/-- What a call of `channel_send` that is not matched yet has to offer. -/
def opened (c : Channel I Ptr) (t : Thread (SendPc I) Ptr) : List Ptr :=
  match t.pc with
  | .waitConns | .setReady => [t.data]
  | .scan _ _ | .waitBlocked => if c.ready then [t.data] else []
  | .idle | .waitReceived _ | .postConns => []

/-- What a call of `channel_receive` that is matched has yet to copy. -/
def uncopied (c : Channel O Ptr) (t : Thread ReceivePc Ptr) : List Ptr :=
  match t.pc with
  | .scan _ _ | .waitBlocked => if c.ready then [] else c.buffer.toList
  | .copy => c.buffer.toList
  | .idle | .waitConns | .setReady | .postConns | .postReceived => []

/-- Where a call of `channel_receive` has yet to copy to. -/
def requested (t : Thread ReceivePc Ptr) : List Ptr :=
  match t.pc with
  | .waitConns | .setReady | .scan _ _ | .waitBlocked | .copy => [t.data]
  | .idle | .postConns | .postReceived => []

variable [DecidableEq I] [DecidableEq O]

def Event.offer (o : O) : Event I O Ptr → Option Ptr
  | .send o' data => if o' = o then some data else none
  | .receive _ _ | .stepSend _ | .stepReceive _ => none

def Event.request (i : I) : Event I O Ptr → Option Ptr
  | .receive i' data => if i' = i then some data else none
  | .send _ _ | .stepSend _ | .stepReceive _ => none

/-- The data of the calls of `channel_send` on a channel, in order. -/
def offers (o : O) (events : List (Event I O Ptr)) : List Ptr := events.filterMap (Event.offer o)

/-- The destinations of the calls of `channel_receive` on a channel, in order. -/
def requests (i : I) (events : List (Event I O Ptr)) : List Ptr :=
  events.filterMap (Event.request i)

/-- The data of the sends of a channel that were matched, in the order of the matches. -/
def given (s : Channels I O Ptr) (o : O) : List Ptr :=
  (s.matched.filter fun p => p.1.channel = o).map fun p => p.1.data

/-- The data that receives of a channel were matched with, in the order of the matches. -/
def taken (s : Channels I O Ptr) (i : I) : List Ptr :=
  (s.matched.filter fun p => p.2.channel = i).map fun p => p.1.data

/-- Destination and source of the copies of a channel, in order. -/
def copies (s : Channels I O Ptr) (i : I) : List (Ptr × Ptr) :=
  (s.copied.filter fun q => q.1.channel = i).map fun q => (q.1.data, q.2)

/-- The calls are served in the order they are made in. -/
structure InOrder (events : List (Event I O Ptr)) (s : Channels I O Ptr) : Prop where
  offers : ∀ o, offers o events = s.given o ++ opened (s.cout o) (s.sender o)
  taken : ∀ i, s.taken i = (s.copies i).map Prod.snd ++ uncopied (s.cin i) (s.receiver i)
  requests : ∀ i, requests i events = (s.copies i).map Prod.fst ++ requested (s.receiver i)

variable {conn : I → O → Prop} {s s' : Channels I O Ptr} {events : List (Event I O Ptr)}

omit [DecidableEq I] in
theorem given_concat {p : Call O Ptr × Call I Ptr} (h : s'.matched = s.matched ++ [p]) (o : O) :
    s'.given o = s.given o ++ if p.1.channel = o then [p.1.data] else [] := by
  by_cases ho : p.1.channel = o
  · simp [given, h, ho]
  · simp [given, h, ho]

omit [DecidableEq O] in
theorem taken_concat {p : Call O Ptr × Call I Ptr} (h : s'.matched = s.matched ++ [p]) (i : I) :
    s'.taken i = s.taken i ++ if p.2.channel = i then [p.1.data] else [] := by
  by_cases hi : p.2.channel = i
  · simp [taken, h, hi]
  · simp [taken, h, hi]

omit [DecidableEq O] in
theorem copies_concat {q : Call I Ptr × Ptr} (h : s'.copied = s.copied ++ [q]) (i : I) :
    s'.copies i = s.copies i ++ if q.1.channel = i then [(q.1.data, q.2)] else [] := by
  by_cases hi : q.1.channel = i
  · simp [copies, h, hi]
  · simp [copies, h, hi]

/-- A step of a thread in `channel_send` that matches nothing. -/
theorem InOrder.of_send (h : InOrder events s) {o : O} {c : Channel I Ptr} {pc : SendPc I}
    (hcout : s'.cout = Function.update s.cout o c)
    (hsender : s'.sender = Function.update s.sender o { s.sender o with pc := pc })
    (hcin : ∀ i, (s'.cin i).ready = (s.cin i).ready ∧ (s'.cin i).buffer = (s.cin i).buffer)
    (hreceiver : s'.receiver = s.receiver) (hmatched : s'.matched = s.matched)
    (hcopied : s'.copied = s.copied)
    (hopened : opened c { s.sender o with pc := pc } = opened (s.cout o) (s.sender o)) :
    InOrder (events ++ [.stepSend o]) s' := by
  have hcopies : ∀ i, s'.copies i = s.copies i := fun i => by simp only [copies, hcopied]
  refine ⟨fun o' => ?_, fun i => ?_, fun i => ?_⟩
  · have hgiven : s'.given o' = s.given o' := by simp only [given, hmatched]
    rw [Channels.offers, List.filterMap_append, hgiven, hcout, hsender]
    refine (List.append_nil _).trans ((h.offers o').trans (congrArg _ ?_))
    by_cases ho : o' = o
    · subst ho
      rw [Function.update_self, Function.update_self, hopened]
    · rw [Function.update_of_ne ho, Function.update_of_ne ho]
  · have htaken : s'.taken i = s.taken i := by simp only [Channels.taken, hmatched]
    rw [htaken, hcopies, hreceiver, h.taken i]
    unfold uncopied
    rw [(hcin i).1, (hcin i).2]
  · rw [Channels.requests, List.filterMap_append, hcopies, hreceiver]
    exact (List.append_nil _).trans (h.requests i)

/-- A step of a thread in `channel_receive` that matches nothing. -/
theorem InOrder.of_receive (h : InOrder events s) {i : I} {c : Channel O Ptr} {pc : ReceivePc}
    (hcin : s'.cin = Function.update s.cin i c)
    (hreceiver : s'.receiver = Function.update s.receiver i { s.receiver i with pc := pc })
    (hcout : s'.cout = s.cout) (hsender : s'.sender = s.sender)
    (hmatched : s'.matched = s.matched) (hcopies : ∀ i', i' ≠ i → s'.copies i' = s.copies i')
    (huncopied : (s'.copies i).map Prod.snd ++ uncopied c { s.receiver i with pc := pc } =
      (s.copies i).map Prod.snd ++ uncopied (s.cin i) (s.receiver i))
    (hrequested : (s'.copies i).map Prod.fst ++ requested { s.receiver i with pc := pc } =
      (s.copies i).map Prod.fst ++ requested (s.receiver i)) :
    InOrder (events ++ [.stepReceive i]) s' := by
  refine ⟨fun o => ?_, fun i' => ?_, fun i' => ?_⟩
  · have hgiven : s'.given o = s.given o := by simp only [given, hmatched]
    rw [Channels.offers, List.filterMap_append, hgiven, hcout, hsender]
    exact (List.append_nil _).trans (h.offers o)
  · have htaken : s'.taken i' = s.taken i' := by simp only [Channels.taken, hmatched]
    rw [htaken, h.taken i', hcin, hreceiver]
    by_cases hi : i' = i
    · subst hi
      rw [Function.update_self, Function.update_self, huncopied]
    · rw [Function.update_of_ne hi, Function.update_of_ne hi, hcopies i' hi]
  · rw [Channels.requests, List.filterMap_append, hreceiver]
    refine (List.append_nil _).trans ((h.requests i').trans ?_)
    by_cases hi : i' = i
    · subst hi
      rw [Function.update_self, hrequested]
    · rw [Function.update_of_ne hi, hcopies i' hi]

/-- A match, whichever side made it. -/
theorem InOrder.of_match (h : InOrder events s) {o : O} {i : I} {cout : Channel I Ptr}
    {cin : Channel O Ptr} {spc : SendPc I} {rpc : ReceivePc} {e : Event I O Ptr}
    (hcout : s'.cout = Function.update s.cout o cout)
    (hsender : s'.sender = Function.update s.sender o { s.sender o with pc := spc })
    (hcin : s'.cin = Function.update s.cin i cin)
    (hreceiver : s'.receiver = Function.update s.receiver i { s.receiver i with pc := rpc })
    (hmatched : s'.matched = s.matched ++ [(s.sendCall o, s.receiveCall i)])
    (he : e.IsStep) (hbefore : opened (s.cout o) (s.sender o) = [(s.sender o).data])
    (hafter : opened cout { s.sender o with pc := spc } = [])
    (hcopies : ∀ i', i' ≠ i → s'.copies i' = s.copies i')
    (huncopied : (s'.copies i).map Prod.snd ++ uncopied cin { s.receiver i with pc := rpc } =
      (s.copies i).map Prod.snd ++ uncopied (s.cin i) (s.receiver i) ++ [(s.sender o).data])
    (hrequested : (s'.copies i).map Prod.fst ++ requested { s.receiver i with pc := rpc } =
      (s.copies i).map Prod.fst ++ requested (s.receiver i)) : InOrder (events ++ [e]) s' := by
  have hnoOffer : ∀ o', Event.offer o' e = none := fun o' => by
    cases e <;> first | rfl | exact he.elim
  have hnoRequest : ∀ i', Event.request i' e = none := fun i' => by
    cases e <;> first | rfl | exact he.elim
  refine ⟨fun o' => ?_, fun i' => ?_, fun i' => ?_⟩
  · have hnil : [e].filterMap (Event.offer o') = [] := by simp [hnoOffer]
    rw [Channels.offers, List.filterMap_append, given_concat hmatched, hcout, hsender, hnil]
    refine (List.append_nil _).trans ((h.offers o').trans ?_)
    by_cases ho : o' = o
    · subst ho
      -- the argument of the call goes over to the data of the matches
      rw [Function.update_self, Function.update_self, hbefore, hafter]
      simp [sendCall]
    · rw [Function.update_of_ne ho, Function.update_of_ne ho]
      simp [sendCall, Ne.symm ho]
  · rw [taken_concat hmatched, hcin, hreceiver, h.taken i']
    by_cases hi : i' = i
    · subst hi
      rw [Function.update_self, Function.update_self, huncopied]
      simp [sendCall, receiveCall]
    · rw [Function.update_of_ne hi, Function.update_of_ne hi, hcopies i' hi]
      simp [receiveCall, Ne.symm hi]
  · have hnil : [e].filterMap (Event.request i') = [] := by simp [hnoRequest]
    rw [Channels.requests, List.filterMap_append, hreceiver, hnil]
    refine (List.append_nil _).trans ((h.requests i').trans ?_)
    by_cases hi : i' = i
    · subst hi
      rw [Function.update_self, hrequested]
    · rw [Function.update_of_ne hi, hcopies i' hi]

omit [DecidableEq I] [DecidableEq O] in
/-- A sender that is ready has its offer open. -/
theorem SenderOk.opened_of_ready {c : Channel I Ptr} {t : Thread (SendPc I) Ptr}
    {takes : Call I Ptr → Prop} (h : SenderOk c t takes) (hready : c.ready = true) :
    opened c t = [t.data] ∧
      ∀ c' : Channel I Ptr, c'.ready = false → opened c' t = [] := by
  unfold SenderOk at h
  unfold opened
  cases hpc : t.pc with
  | scan i length | waitBlocked => simp [hready]
  | idle | waitConns | setReady | waitReceived i | postConns =>
    simp only [hpc, hready, Bool.true_eq_false, false_and] at h

omit [DecidableEq I] [DecidableEq O] in
/-- A receiver that is ready has nothing to copy yet, and when it is taken, its buffer. -/
theorem ReceiverOk.uncopied_of_ready {c : Channel O Ptr} {t : Thread ReceivePc Ptr}
    {gives : Call O Ptr → Prop} {copies : Ptr → Prop} (h : ReceiverOk c t gives copies)
    (hready : c.ready = true) : uncopied c t = [] ∧
      ∀ c' : Channel O Ptr, c'.ready = false → uncopied c' t = c'.buffer.toList := by
  unfold ReceiverOk at h
  unfold uncopied
  cases hpc : t.pc with
  | scan i length | waitBlocked =>
    refine ⟨by simp [hready], fun c' hc' => by simp [hc']⟩
  | idle | waitConns | setReady | copy | postConns | postReceived =>
    simp only [hpc, hready, Bool.true_eq_false, false_and] at h

theorem InOrder.send_step {o : O} (h : InOrder events s) (hinv : Inv conn s)
    (hstep : SendStep s o s') : InOrder (events ++ [.stepSend o]) s' := by
  have hok := hinv.sender o
  cases hstep with
  | waitConns hpc | setReady _ hpc | passed _ _ _ _ hpc | scanned _ _ hpc | returned hpc =>
    exact h.of_send rfl rfl (fun _ => ⟨rfl, rfl⟩) rfl rfl rfl (by simp [opened, hpc])
  | woken hpc htoken =>
    simp only [SenderOk, hpc] at hok
    rcases hok with ⟨-, hzero, -⟩ | ⟨hready, -⟩
    · omega
    · exact h.of_send rfl rfl (fun _ => ⟨rfl, rfl⟩) rfl rfl rfl (by simp [opened, hpc, hready])
  | acknowledged receiver hpc htoken =>
    refine h.of_send rfl rfl (fun i => ?_) rfl rfl rfl (by simp [opened, hpc])
    by_cases hi : i = receiver
    · subst hi
      simp
    · simp [Function.update_of_ne hi]
  | taken j length receiver connections hpc hget hcin hcout =>
    obtain ⟨-, hbuffer, -⟩ := hok.of_ready hcout
    obtain ⟨hnone, htaken⟩ := (hinv.receiver receiver).uncopied_of_ready hcin
    refine h.of_match rfl rfl rfl (Function.update_eq_self receiver s.receiver).symm rfl trivial
      (hok.opened_of_ready hcout).1 (by simp [opened]) (fun _ _ => rfl) ?_ rfl
    rw [hnone, htaken _ rfl, hbuffer]
    simp [copies, setSender]

theorem InOrder.receive_step {i : I} (h : InOrder events s) (hinv : Inv conn s)
    (hstep : ReceiveStep s i s') : InOrder (events ++ [.stepReceive i]) s' := by
  have hok := hinv.receiver i
  cases hstep with
  | waitConns hpc | setReady _ hpc | passed _ _ _ _ hpc | scanned _ _ hpc | returned hpc
  | posted hpc =>
    exact h.of_receive rfl rfl rfl rfl rfl (fun _ _ => rfl)
      (by simp [copies, setReceiver, uncopied, hpc])
      (by simp [copies, setReceiver, requested, hpc])
  | woken hpc htoken =>
    simp only [ReceiverOk, hpc] at hok
    rcases hok with ⟨-, hzero, -⟩ | ⟨hready, -⟩
    · omega
    · exact h.of_receive rfl rfl rfl rfl rfl (fun _ _ => rfl)
        (by simp [copies, setReceiver, uncopied, hpc, hready])
        (by simp [copies, setReceiver, requested, hpc])
  | copied data hpc hdata =>
    refine h.of_receive rfl rfl rfl rfl rfl (fun i' hi => ?_) ?_ ?_
    · rw [copies_concat rfl]
      simp [receiveCall, Ne.symm hi]
    · rw [copies_concat rfl]
      simp [receiveCall, uncopied, hpc, hdata]
    · rw [copies_concat rfl]
      simp [receiveCall, requested, hpc]
  | taken j length sender connections data hpc hget hcout hcin hdata =>
    obtain ⟨hopen, htaken⟩ := (hinv.sender sender).opened_of_ready hcout
    obtain ⟨-, hbuffer, -⟩ := (hinv.sender sender).of_ready hcout
    obtain rfl : (s.sender sender).data = data := by
      rw [hbuffer] at hdata
      exact Option.some.inj hdata
    refine h.of_match rfl (Function.update_eq_self sender s.sender).symm rfl rfl rfl trivial
      hopen (htaken _ rfl) (fun i' hi => ?_) ?_ ?_
    · rw [copies_concat rfl]
      simp [receiveCall, Ne.symm hi]
    · rw [copies_concat rfl, (hok.uncopied_of_ready hcin).1]
      simp [receiveCall, uncopied]
    · rw [copies_concat rfl]
      simp [receiveCall, requested, hpc]

theorem InOrder.call_send (h : InOrder events s) {o : O} (data : Ptr)
    (hpc : (s.sender o).pc = .idle) : InOrder (events ++ [.send o data]) { s with
      sender := Function.update s.sender o ⟨.waitConns, (s.sender o).number + 1, data⟩ } := by
  refine ⟨fun o' => ?_, h.taken, fun i => ?_⟩
  · rw [Channels.offers, List.filterMap_append]
    refine (congrArg (· ++ _) (h.offers o')).trans ?_
    by_cases ho : o' = o
    · subst ho
      simp [given, Event.offer, opened, hpc]
    · simp [given, Event.offer, Ne.symm ho, Function.update_of_ne ho]
  · rw [Channels.requests, List.filterMap_append]
    exact (List.append_nil _).trans (h.requests i)

theorem InOrder.call_receive (h : InOrder events s) {i : I} (data : Ptr)
    (hpc : (s.receiver i).pc = .idle) : InOrder (events ++ [.receive i data]) { s with
      receiver := Function.update s.receiver i ⟨.waitConns, (s.receiver i).number + 1, data⟩ } := by
  refine ⟨fun o => ?_, fun i' => ?_, fun i' => ?_⟩
  · rw [Channels.offers, List.filterMap_append]
    exact (List.append_nil _).trans (h.offers o)
  · refine (h.taken i').trans ?_
    by_cases hi : i' = i
    · subst hi
      simp [copies, uncopied, hpc]
    · simp [copies, Function.update_of_ne hi]
  · rw [Channels.requests, List.filterMap_append]
    refine (congrArg (· ++ _) (h.requests i')).trans ?_
    by_cases hi : i' = i
    · subst hi
      simp [copies, Event.request, requested, hpc]
    · simp [copies, Event.request, Ne.symm hi, Function.update_of_ne hi]

/-- One event keeps the order. -/
theorem InOrder.step {e : Event I O Ptr} (h : InOrder events s) (hinv : Inv conn s)
    (hstep : s.step e = some s') : InOrder (events ++ [e]) s' := by
  cases e with
  | send o data =>
    obtain ⟨hpc, rfl⟩ := called_of_send hstep
    exact h.call_send data hpc
  | receive i data =>
    obtain ⟨hpc, rfl⟩ := called_of_receive hstep
    exact h.call_receive data hpc
  | stepSend o => exact h.send_step hinv (sendStep_of_stepSend hstep)
  | stepReceive i => exact h.receive_step hinv (receiveStep_of_stepReceive hstep)

theorem Initial.inOrder (h : Initial conn s) : InOrder [] s where
  offers := fun o => by simp [Channels.offers, given, opened, h.matched, h.sender o]
  taken := fun i => by simp [Channels.taken, copies, uncopied, h.matched, h.copied, h.receiver i]
  requests := fun i => by simp [Channels.requests, copies, requested, h.copied, h.receiver i]

theorem Initial.inOrder_run {t : Channels I O Ptr} (h : Initial conn s)
    (hrun : run Channels.step s events = some t) : InOrder events t :=
  @run_history _ _ _ _ _ _ (fun _ _ => True) (fun events t => InOrder events t) h.inOrder
    (fun _ _ _ _ hrun hin _ hstep => hin.step (h.inv_run hrun) hstep)
    (fun _ _ _ _ _ => trivial) hrun

omit [DecidableEq I] [DecidableEq O] in
theorem length_opened_le (c : Channel I Ptr) (t : Thread (SendPc I) Ptr) :
    (opened c t).length ≤ 1 := by
  cases hpc : t.pc with
  | scan i length | waitBlocked =>
    simp only [opened, hpc]
    split_ifs <;> simp
  | idle | waitConns | setReady | waitReceived i | postConns => simp [opened, hpc]

omit [DecidableEq I] [DecidableEq O] in
theorem length_uncopied_le (c : Channel O Ptr) (t : Thread ReceivePc Ptr) :
    (uncopied c t).length ≤ 1 := by
  have hbuffer : c.buffer.toList.length ≤ 1 := by cases c.buffer <;> simp
  cases hpc : t.pc with
  | scan j length | waitBlocked =>
    simp only [uncopied, hpc]
    split_ifs <;> simp [hbuffer]
  | copy => simp [uncopied, hpc, hbuffer]
  | idle | waitConns | setReady | postConns | postReceived => simp [uncopied, hpc]

omit [DecidableEq I] [DecidableEq O] in
theorem length_requested_le (t : Thread ReceivePc Ptr) : (requested t).length ≤ 1 := by
  cases hpc : t.pc <;> simp [requested, hpc]

/-- Sends are matched in the order they are made in, and a channel is at most one call behind;
the same for the receives, whose copies follow the order of their matches. -/
structure Ordered (events : List (Event I O Ptr)) (s : Channels I O Ptr) : Prop where
  sends : ∀ o, s.given o <+: offers o events ∧ (offers o events).length ≤ (s.given o).length + 1
  receives : ∀ i, (s.copies i).map Prod.fst <+: requests i events ∧
    (requests i events).length ≤ (s.copies i).length + 1
  copies : ∀ i, (s.copies i).map Prod.snd <+: s.taken i ∧
    (s.taken i).length ≤ (s.copies i).length + 1

/-- **Whatever the interleaving, each channel is served in the order of its calls.** -/
theorem ordered_run {t : Channels I O Ptr} (h : Initial conn s)
    (hrun : run Channels.step s events = some t) : Ordered events t := by
  have hin := h.inOrder_run hrun
  refine ⟨fun o => ?_, fun i => ?_, fun i => ?_⟩
  · have hle := length_opened_le (t.cout o) (t.sender o)
    refine ⟨⟨_, (hin.offers o).symm⟩, ?_⟩
    rw [hin.offers o, List.length_append]
    omega
  · have hle := length_requested_le (t.receiver i)
    refine ⟨⟨_, (hin.requests i).symm⟩, ?_⟩
    rw [hin.requests i, List.length_append, List.length_map]
    omega
  · have hle := length_uncopied_le (t.cin i) (t.receiver i)
    refine ⟨⟨_, (hin.taken i).symm⟩, ?_⟩
    rw [hin.taken i, List.length_append, List.length_map]
    omega

/-- Two senders of one receiver, the second of which is matched and not copied yet. -/
theorem ordered_run_pair : ∃ t : Channels Unit Bool ℕ,
    run Channels.step twoSenders tokenTaken = some t ∧
      t.copies () = [(100, 7)] ∧ Ordered tokenTaken t := by
  have hcopies : (run Channels.step twoSenders tokenTaken).map (copies · ()) =
      some [(100, 7)] := by decide
  obtain ⟨t, ht, hc⟩ := Option.map_eq_some_iff.1 hcopies
  exact ⟨t, ht, hc, ordered_run twoSenders_initial ht⟩

/-! ### Channels that are connected to each other only -/

/-- Between two channels that are connected to nothing else, the matches are the same. -/
theorem given_eq_taken (h : RecordOk conn s) {i : I} {o : O} (hi : ∀ o', conn i o' → o' = o)
    (ho : ∀ i', conn i' o → i' = i) : s.given o = s.taken i := by
  unfold given Channels.taken
  congr 1
  refine List.filter_congr fun p hp => decide_eq_decide.2 ⟨fun hpo => ?_, fun hpi => ?_⟩
  · exact ho _ (hpo ▸ h.connected p hp)
  · exact hi _ (hpi ▸ h.connected p hp)

omit [DecidableEq O] in
/-- A receive that has yet to copy is one its own sender waits for, which has nothing open. -/
theorem opened_eq_nil_of_uncopied [Fintype O] (hinv : Inv conn s) (htokens : Tokens s) {i : I}
    {o : O} (hi : ∀ o', conn i o' → o' = o) (h : uncopied (s.cin i) (s.receiver i) ≠ []) :
    opened (s.cout o) (s.sender o) = [] := by
  have hpend : Pending (s.cin i) (s.receiver i) := by
    unfold uncopied at h
    unfold Pending
    cases hpc : (s.receiver i).pc with
    | scan j length | waitBlocked =>
      simp only [hpc] at h
      split_ifs at h with hready
      · exact absurd rfl h
      · simpa using hready
    | copy => trivial
    | idle | waitConns | setReady | postConns | postReceived => simp [hpc] at h
  have hcount := htokens i
  rw [if_pos hpend] at hcount
  obtain ⟨o', hmem⟩ := Finset.card_pos.1 (show 0 < (s.waiting i).card by omega)
  have hpc := mem_waiting.1 hmem
  have hok := hinv.sender o'
  simp only [SenderOk, hpc] at hok
  obtain ⟨-, -, b, hb, rfl⟩ := hok
  obtain rfl : o' = o := hi o' (hinv.record.connected _ hb)
  simp [opened, hpc]

theorem tokens_run [Fintype O] {t : Channels I O Ptr} (h : Initial conn s)
    (hrun : run Channels.step s events = some t) : Tokens t :=
  (run_keeps (fun s => Inv conn s ∧ Tokens s)
    (fun _ _ _ hs hstep => ⟨hs.1.step hstep, hs.2.step hs.1 hstep⟩)
    ⟨h.inv, h.ackInv.settled.tokens⟩ hrun).2

/-- **Two channels that are connected to each other only are a queue: the n-th receive copies from
the n-th send, and neither side is more than one call ahead of the copies.** -/
theorem fifo_run [Fintype O] {t : Channels I O Ptr} {i : I} {o : O} (h : Initial conn s)
    (hi : ∀ o', conn i o' → o' = o) (ho : ∀ i', conn i' o → i' = i)
    (hrun : run Channels.step s events = some t) :
    ∃ n, t.copies i = ((requests i events).take n).zip ((offers o events).take n) ∧
      n ≤ (requests i events).length ∧ (requests i events).length ≤ n + 1 ∧
      n ≤ (offers o events).length ∧ (offers o events).length ≤ n + 1 := by
  have hin := h.inOrder_run hrun
  have hinv := h.inv_run hrun
  have hoffers : offers o events = (t.copies i).map Prod.snd ++
      (uncopied (t.cin i) (t.receiver i) ++ opened (t.cout o) (t.sender o)) := by
    rw [hin.offers o, given_eq_taken hinv.record hi ho, hin.taken i, List.append_assoc]
  have hahead : (uncopied (t.cin i) (t.receiver i) ++ opened (t.cout o) (t.sender o)).length ≤
      1 := by
    by_cases hcopy : uncopied (t.cin i) (t.receiver i) = []
    · rw [hcopy]
      exact length_opened_le _ _
    · rw [opened_eq_nil_of_uncopied hinv (tokens_run h hrun) hi hcopy, List.append_nil]
      exact length_uncopied_le _ _
  have hrequests := hin.requests i
  have hle := length_requested_le (t.receiver i)
  refine ⟨(t.copies i).length, ?_, ?_, ?_, ?_, ?_⟩
  · rw [hrequests, hoffers, List.take_left' (List.length_map _), List.take_left' (List.length_map _)]
    exact List.zip_of_prod rfl rfl
  all_goals
    simp only [hrequests, hoffers, List.length_append, List.length_map] at hahead ⊢
    omega

/-- The second of two sends is one ahead of the copies. -/
theorem fifo_run_one : ∃ t : Channels Unit Unit ℕ,
    run Channels.step (Channels.bound (fun _ => [()]) (fun _ => [()]) 0)
        ([.receive () 100] ++ List.replicate 4 (.stepReceive ()) ++ [.send () 7] ++
          List.replicate 3 (.stepSend ()) ++ List.replicate 3 (.stepReceive ()) ++
          List.replicate 2 (.stepSend ()) ++ [.send () 8]) = some t ∧
      t.copies () = [(100, 7)] ∧
      ∃ n, t.copies () = ([100].take n).zip ([7, 8].take n) ∧ n ≤ 1 ∧ 1 ≤ n + 1 ∧ n ≤ 2 ∧
        2 ≤ n + 1 := by
  have hcopies : (run Channels.step (Channels.bound (fun _ : Unit => [()]) (fun _ : Unit => [()]) 0)
        ([.receive () 100] ++ List.replicate 4 (.stepReceive ()) ++ [.send () 7] ++
          List.replicate 3 (.stepSend ()) ++ List.replicate 3 (.stepReceive ()) ++
          List.replicate 2 (.stepSend ()) ++ [.send () 8])).map (copies · ()) =
      some [(100, 7)] := by decide
  obtain ⟨t, ht, hc⟩ := Option.map_eq_some_iff.1 hcopies
  have hinit : Initial (fun _ _ => True)
      (Channels.bound (fun _ : Unit => [()]) (fun _ : Unit => [()]) 0) :=
    bound_initial (fun _ _ _ => trivial) fun _ _ _ => trivial
  exact ⟨t, ht, hc, fifo_run (i := ()) (o := ()) hinit (fun _ _ => rfl) (fun _ _ => rfl) ht⟩

end Channels

end InsenseCVM
