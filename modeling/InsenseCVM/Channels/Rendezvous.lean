import InsenseCVM.Channels.Channel

/-!
# Exactly-once rendezvous

In every run the matching of sends with receives is one-to-one. The invariant says, for each
channel, what the state of its thread knows about the current call: an offer that is still `ready`
is unmatched, and one that is no longer ready was taken by a peer, which left one token on
`blocked`. The record of the calls is kept apart, in `RecordOk`.
-/

namespace InsenseCVM

namespace Channels

open Transition

variable {I O Ptr : Type}

/-- The outgoing channel `c` of thread `t`, whose current call was matched with the receives
`takes`. -/
def SenderOk (c : Channel I Ptr) (t : Thread (SendPc I) Ptr) (takes : Call I Ptr → Prop) : Prop :=
  match t.pc with
  | .idle => c.ready = false ∧ c.blocked = 0
  | .waitConns | .setReady => c.ready = false ∧ c.blocked = 0 ∧ ∀ b, ¬ takes b
  | .scan _ _ | .waitBlocked =>
    (c.ready = true ∧ c.blocked = 0 ∧ c.buffer = some t.data ∧ ∀ b, ¬ takes b) ∨
      (c.ready = false ∧ c.blocked = 1 ∧ ∃ b, takes b)
  | .waitReceived i => c.ready = false ∧ c.blocked = 0 ∧ ∃ b, takes b ∧ b.channel = i
  | .postConns => c.ready = false ∧ c.blocked = 0 ∧ ∃ b, takes b

/-- The incoming channel `c` of thread `t`, whose current call was matched with the sends `gives`
and has copied from the pointers `copies`. -/
def ReceiverOk (c : Channel O Ptr) (t : Thread ReceivePc Ptr) (gives : Call O Ptr → Prop)
    (copies : Ptr → Prop) : Prop :=
  match t.pc with
  | .idle => c.ready = false ∧ c.blocked = 0
  | .waitConns | .setReady => c.ready = false ∧ c.blocked = 0 ∧ ∀ a, ¬ gives a
  | .scan _ _ | .waitBlocked =>
    (c.ready = true ∧ c.blocked = 0 ∧ ∀ a, ¬ gives a) ∨
      (c.ready = false ∧ c.blocked = 1 ∧
        ∃ a, gives a ∧ c.buffer = some a.data ∧ ∀ p, ¬ copies p)
  | .copy => c.ready = false ∧ c.blocked = 0 ∧
      ∃ a, gives a ∧ c.buffer = some a.data ∧ ∀ p, ¬ copies p
  | .postConns | .postReceived => c.ready = false ∧ c.blocked = 0 ∧ ∃ a, gives a ∧ copies a.data

/-- The record of the calls: matches are one-to-one and between connected channels, each receive
copies once and from the send it was matched with, and what returned was matched. -/
structure RecordOk (conn : I → O → Prop) (s : Channels I O Ptr) : Prop where
  sendersOnce : (s.matched.map Prod.fst).Nodup
  receiversOnce : (s.matched.map Prod.snd).Nodup
  copiesOnce : (s.copied.map Prod.fst).Nodup
  connected : ∀ p ∈ s.matched, conn p.2.channel p.1.channel
  copied : ∀ q ∈ s.copied, ∃ a, (a, q.1) ∈ s.matched ∧ q.2 = a.data
  sent : ∀ a ∈ s.sent, ∃ b, (a, b) ∈ s.matched
  received : ∀ b ∈ s.received, ∃ a, (a, b) ∈ s.matched ∧ (b, a.data) ∈ s.copied
  sendNumbers : ∀ p ∈ s.matched, p.1.number ≤ (s.sender p.1.channel).number
  receiveNumbers : ∀ p ∈ s.matched, p.2.number ≤ (s.receiver p.2.channel).number

/-- The connection list of a channel holds connected channels. -/
def ListOk {κ : Type} (conn : κ → Prop) (l : IteratedList κ) : Prop :=
  ∃ ks, l.Round ks ∧ ∀ k ∈ ks, conn k

/-- The invariant of a run. -/
structure Inv (conn : I → O → Prop) (s : Channels I O Ptr) : Prop where
  sender : ∀ o, SenderOk (s.cout o) (s.sender o) fun b => (s.sendCall o, b) ∈ s.matched
  receiver : ∀ i, ReceiverOk (s.cin i) (s.receiver i)
    (fun a => (a, s.receiveCall i) ∈ s.matched) fun p => (s.receiveCall i, p) ∈ s.copied
  record : RecordOk conn s
  outList : ∀ o, ListOk (fun i => conn i o) (s.cout o).connections
  inList : ∀ i, ListOk (conn i) (s.cin i).connections

variable {conn : I → O → Prop} {s s' : Channels I O Ptr}

theorem ListOk.getNextElement {κ : Type} {conn : κ → Prop} {l l' : IteratedList κ} {k : κ}
    (h : ListOk conn l) (hget : l.getNextElement = some (some k, l')) : conn k ∧ ListOk conn l' := by
  obtain ⟨ks, hround, hks⟩ := h
  obtain ⟨ks, rfl, hround'⟩ := hround.next hget
  exact ⟨hks k (by simp), _, hround', fun y hy => hks y (by simpa [or_comm] using hy)⟩

/-! ### The record -/

theorem nodup_map_concat {α β : Type} {xs : List α} {a : α} {f : α → β}
    (h : (xs.map f).Nodup) (ha : ∀ x ∈ xs, f x ≠ f a) : ((xs ++ [a]).map f).Nodup := by
  rw [List.map_append, List.nodup_append]
  refine ⟨h, List.nodup_singleton _, fun b hb c hc => ?_⟩
  obtain ⟨x, hx, rfl⟩ := List.mem_map.1 hb
  obtain rfl : c = f a := by simpa using hc
  exact ha x hx

/-- A step that leaves the record alone, and numbers no call backwards. -/
theorem RecordOk.frame (h : RecordOk conn s) (hmatched : s'.matched = s.matched)
    (hcopied : s'.copied = s.copied) (hsent : s'.sent = s.sent)
    (hreceived : s'.received = s.received) (hs : ∀ o, (s.sender o).number ≤ (s'.sender o).number)
    (hr : ∀ i, (s.receiver i).number ≤ (s'.receiver i).number) : RecordOk conn s' := by
  constructor
  · rw [hmatched]; exact h.sendersOnce
  · rw [hmatched]; exact h.receiversOnce
  · rw [hcopied]; exact h.copiesOnce
  · rw [hmatched]; exact h.connected
  · rw [hmatched, hcopied]; exact h.copied
  · rw [hmatched, hsent]; exact h.sent
  · rw [hmatched, hcopied, hreceived]; exact h.received
  · rw [hmatched]; exact fun p hp => (h.sendNumbers p hp).trans (hs _)
  · rw [hmatched]; exact fun p hp => (h.receiveNumbers p hp).trans (hr _)

/-- A match of two unmatched calls. -/
theorem RecordOk.match (h : RecordOk conn s) {o : O} {i : I}
    (hs : ∀ b, (s.sendCall o, b) ∉ s.matched) (hr : ∀ a, (a, s.receiveCall i) ∉ s.matched)
    (hconn : conn i o) :
    RecordOk conn { s with matched := s.matched ++ [(s.sendCall o, s.receiveCall i)] } := by
  constructor
  · exact nodup_map_concat h.sendersOnce fun p hp (hpa : p.1 = s.sendCall o) =>
      hs p.2 (by rw [← hpa]; exact hp)
  · exact nodup_map_concat h.receiversOnce fun p hp (hpa : p.2 = s.receiveCall i) =>
      hr p.1 (by rw [← hpa]; exact hp)
  · exact h.copiesOnce
  · intro p hp
    rcases List.mem_append.1 hp with hp | hp
    · exact h.connected p hp
    · obtain rfl := List.mem_singleton.1 hp
      exact hconn
  · intro q hq
    obtain ⟨a, ha, hqa⟩ := h.copied q hq
    exact ⟨a, List.mem_append_left _ ha, hqa⟩
  · intro a ha
    obtain ⟨b, hb⟩ := h.sent a ha
    exact ⟨b, List.mem_append_left _ hb⟩
  · intro b hb
    obtain ⟨a, ha, hba⟩ := h.received b hb
    exact ⟨a, List.mem_append_left _ ha, hba⟩
  · intro p hp
    rcases List.mem_append.1 hp with hp | hp
    · exact h.sendNumbers p hp
    · obtain rfl := List.mem_singleton.1 hp
      exact le_rfl
  · intro p hp
    rcases List.mem_append.1 hp with hp | hp
    · exact h.receiveNumbers p hp
    · obtain rfl := List.mem_singleton.1 hp
      exact le_rfl

/-- A copy by a matched receive that has not copied yet. -/
theorem RecordOk.copy (h : RecordOk conn s) {a : Call O Ptr} {b : Call I Ptr}
    (hab : (a, b) ∈ s.matched) (hb : ∀ p, (b, p) ∉ s.copied) :
    RecordOk conn { s with copied := s.copied ++ [(b, a.data)] } where
  sendersOnce := h.sendersOnce
  receiversOnce := h.receiversOnce
  copiesOnce := nodup_map_concat h.copiesOnce fun q hq (hqb : q.1 = b) =>
    hb q.2 (by rw [← hqb]; exact hq)
  connected := h.connected
  copied := by
    intro q hq
    rcases List.mem_append.1 hq with hq | hq
    · exact h.copied q hq
    · obtain rfl := List.mem_singleton.1 hq
      exact ⟨a, hab, rfl⟩
  sent := h.sent
  received := by
    intro c hc
    obtain ⟨d, hd, hcd⟩ := h.received c hc
    exact ⟨d, hd, List.mem_append_left _ hcd⟩
  sendNumbers := h.sendNumbers
  receiveNumbers := h.receiveNumbers

/-- A matched send returns. -/
theorem RecordOk.return_send (h : RecordOk conn s) {a : Call O Ptr} {b : Call I Ptr}
    (hab : (a, b) ∈ s.matched) : RecordOk conn { s with sent := s.sent ++ [a] } :=
  { h with
    sent := fun c hc => by
      rcases List.mem_append.1 hc with hc | hc
      · exact h.sent c hc
      · obtain rfl := List.mem_singleton.1 hc
        exact ⟨b, hab⟩ }

/-- A receive that has copied returns. -/
theorem RecordOk.return_receive (h : RecordOk conn s) {a : Call O Ptr} {b : Call I Ptr}
    (hab : (a, b) ∈ s.matched) (hb : (b, a.data) ∈ s.copied) :
    RecordOk conn { s with received := s.received ++ [b] } :=
  { h with
    received := fun c hc => by
      rcases List.mem_append.1 hc with hc | hc
      · exact h.received c hc
      · obtain rfl := List.mem_singleton.1 hc
        exact ⟨a, hab, hb⟩ }

/-! ### What a peer finds -/

/-- A sender that is ready offers its own data and is unmatched. -/
theorem SenderOk.of_ready {c : Channel I Ptr} {t : Thread (SendPc I) Ptr}
    {takes : Call I Ptr → Prop} (h : SenderOk c t takes) (hready : c.ready = true) :
    c.blocked = 0 ∧ c.buffer = some t.data ∧ ∀ b, ¬ takes b := by
  unfold SenderOk at h
  cases hpc : t.pc with
  | scan i length | waitBlocked =>
    simp only [hpc] at h
    rcases h with ⟨-, hok⟩ | ⟨hfalse, -⟩
    · exact hok
    · rw [hready] at hfalse
      cases hfalse
  | idle | waitConns | setReady | waitReceived i | postConns =>
    simp only [hpc, hready, Bool.true_eq_false, false_and] at h

/-- Taking a sender that is ready leaves one token for it. -/
theorem SenderOk.taken {c : Channel I Ptr} {t : Thread (SendPc I) Ptr}
    {takes takes' : Call I Ptr → Prop} {b : Call I Ptr} (h : SenderOk c t takes)
    (hready : c.ready = true) (hb : takes' b) :
    SenderOk { c with ready := false, blocked := c.blocked + 1 } t takes' := by
  have hblocked := (h.of_ready hready).1
  unfold SenderOk at h ⊢
  cases hpc : t.pc with
  | scan i length | waitBlocked => exact Or.inr ⟨rfl, by rw [hblocked], b, hb⟩
  | idle | waitConns | setReady | waitReceived i | postConns =>
    simp only [hpc, hready, Bool.true_eq_false, false_and] at h

/-- A receiver that is ready is unmatched. -/
theorem ReceiverOk.of_ready {c : Channel O Ptr} {t : Thread ReceivePc Ptr}
    {gives : Call O Ptr → Prop} {copies : Ptr → Prop} (h : ReceiverOk c t gives copies)
    (hready : c.ready = true) : c.blocked = 0 ∧ ∀ a, ¬ gives a := by
  unfold ReceiverOk at h
  cases hpc : t.pc with
  | scan i length | waitBlocked =>
    simp only [hpc] at h
    rcases h with ⟨-, hok⟩ | ⟨hfalse, -⟩
    · exact hok
    · rw [hready] at hfalse
      cases hfalse
  | idle | waitConns | setReady | copy | postConns | postReceived =>
    simp only [hpc, hready, Bool.true_eq_false, false_and] at h

/-- Taking a receiver that is ready hands it the pointer and leaves one token for it. -/
theorem ReceiverOk.taken {c : Channel O Ptr} {t : Thread ReceivePc Ptr}
    {gives gives' : Call O Ptr → Prop} {copies : Ptr → Prop} {a : Call O Ptr}
    (h : ReceiverOk c t gives copies) (hready : c.ready = true) (ha : gives' a)
    (hcopies : ∀ p, ¬ copies p) :
    ReceiverOk { c with buffer := some a.data, ready := false, blocked := c.blocked + 1 } t
      gives' copies := by
  have hblocked := (h.of_ready hready).1
  unfold ReceiverOk at h ⊢
  cases hpc : t.pc with
  | scan i length | waitBlocked => exact Or.inr ⟨rfl, by rw [hblocked], a, ha, rfl, hcopies⟩
  | idle | waitConns | setReady | copy | postConns | postReceived =>
    simp only [hpc, hready, Bool.true_eq_false, false_and] at h

theorem RecordOk.not_copied (h : RecordOk conn s) {b : Call I Ptr}
    (hb : ∀ a, (a, b) ∉ s.matched) (p : Ptr) : (b, p) ∉ s.copied := by
  intro hmem
  obtain ⟨a, ha, -⟩ := h.copied _ hmem
  exact hb a ha

/-! ### Steps of one thread -/

variable [DecidableEq I] [DecidableEq O]

theorem number_update {κ Pc : Type} [DecidableEq κ] (f : κ → Thread Pc Ptr) (k : κ) (pc : Pc)
    (j : κ) : (Function.update f k { f k with pc := pc } j).number = (f j).number := by
  by_cases hj : j = k
  · subst hj
    rw [Function.update_self]
  · rw [Function.update_of_ne hj]

omit [DecidableEq I] in
theorem sendCall_update {o : O} {pc : SendPc I}
    (h : s'.sender = Function.update s.sender o { s.sender o with pc := pc }) (o' : O) :
    s'.sendCall o' = s.sendCall o' := by
  unfold sendCall
  rw [h]
  by_cases ho : o' = o
  · subst ho
    rw [Function.update_self]
  · rw [Function.update_of_ne ho]

omit [DecidableEq O] in
theorem receiveCall_update {i : I} {pc : ReceivePc}
    (h : s'.receiver = Function.update s.receiver i { s.receiver i with pc := pc }) (i' : I) :
    s'.receiveCall i' = s.receiveCall i' := by
  unfold receiveCall
  rw [h]
  by_cases hi : i' = i
  · subst hi
    rw [Function.update_self]
  · rw [Function.update_of_ne hi]

omit [DecidableEq I] in
/-- The lists of the channels of the other senders are as they were. -/
theorem Inv.outList_update (h : Inv conn s) {o : O} {c : Channel I Ptr}
    (hlist : ListOk (fun i => conn i o) c.connections) (o' : O) :
    ListOk (fun i => conn i o') (Function.update s.cout o c o').connections :=
  (Function.forall_update_iff s.cout fun o c => ListOk (fun i => conn i o) c.connections).2
    ⟨hlist, fun o _ => h.outList o⟩ o'

omit [DecidableEq O] in
theorem Inv.inList_update (h : Inv conn s) {i : I} {c : Channel O Ptr}
    (hlist : ListOk (conn i) c.connections) (i' : I) :
    ListOk (conn i') (Function.update s.cin i c i').connections :=
  (Function.forall_update_iff s.cin fun i c => ListOk (conn i) c.connections).2
    ⟨hlist, fun i _ => h.inList i⟩ i'

omit [DecidableEq I] in
/-- A step of a sender that matches nothing; it may take a token from `actually_received`. -/
theorem Inv.of_send (h : Inv conn s) {o : O} {c : Channel I Ptr} {pc : SendPc I}
    (hcout : s'.cout = Function.update s.cout o c)
    (hsender : s'.sender = Function.update s.sender o { s.sender o with pc := pc })
    (hcin : ∀ i, ∃ n, s'.cin i = { s.cin i with actuallyReceived := n })
    (hreceiver : s'.receiver = s.receiver) (hmatched : s'.matched = s.matched)
    (hcopied : s'.copied = s.copied) (hrecord : RecordOk conn s')
    (hok : SenderOk c { s.sender o with pc := pc } fun b => (s.sendCall o, b) ∈ s.matched)
    (hlist : ListOk (fun i => conn i o) c.connections) : Inv conn s' := by
  have hrcall : ∀ i, s'.receiveCall i = s.receiveCall i := by
    intro i
    unfold receiveCall
    rw [hreceiver]
  refine ⟨fun o' => ?_, fun i => ?_, hrecord, fun o' => ?_, fun i => ?_⟩
  · rw [hcout, hmatched, sendCall_update hsender, hsender]
    by_cases ho : o' = o
    · subst ho
      rw [Function.update_self, Function.update_self]
      exact hok
    · rw [Function.update_of_ne ho, Function.update_of_ne ho]
      exact h.sender o'
  · obtain ⟨n, hn⟩ := hcin i
    rw [hn, hreceiver, hmatched, hcopied, hrcall]
    exact h.receiver i
  · rw [hcout]
    exact h.outList_update hlist o'
  · obtain ⟨n, hn⟩ := hcin i
    rw [hn]
    exact h.inList i

omit [DecidableEq O] in
/-- A step of a receiver that matches nothing. -/
theorem Inv.of_receive (h : Inv conn s) {i : I} {c : Channel O Ptr} {pc : ReceivePc}
    (hcin : s'.cin = Function.update s.cin i c)
    (hreceiver : s'.receiver = Function.update s.receiver i { s.receiver i with pc := pc })
    (hcout : s'.cout = s.cout) (hsender : s'.sender = s.sender)
    (hmatched : s'.matched = s.matched)
    (hcopied : ∀ i', i' ≠ i → ∀ p, (s.receiveCall i', p) ∈ s'.copied ↔
      (s.receiveCall i', p) ∈ s.copied)
    (hrecord : RecordOk conn s')
    (hok : ReceiverOk c { s.receiver i with pc := pc }
      (fun a => (a, s.receiveCall i) ∈ s.matched) fun p => (s.receiveCall i, p) ∈ s'.copied)
    (hlist : ListOk (conn i) c.connections) : Inv conn s' := by
  have hscall : ∀ o, s'.sendCall o = s.sendCall o := by
    intro o
    unfold sendCall
    rw [hsender]
  refine ⟨fun o => ?_, fun i' => ?_, hrecord, fun o => ?_, fun i' => ?_⟩
  · rw [hcout, hsender, hmatched, hscall]
    exact h.sender o
  · rw [hcin, hmatched, receiveCall_update hreceiver, hreceiver]
    by_cases hi : i' = i
    · subst hi
      rw [Function.update_self, Function.update_self]
      exact hok
    · rw [Function.update_of_ne hi, Function.update_of_ne hi]
      simp only [hcopied i' hi]
      exact h.receiver i'
  · rw [hcout]
    exact h.outList o
  · rw [hcin]
    exact h.inList_update hlist i'

/-- A match, whichever side made it: the two calls are in the record, and both channels are no
longer ready. -/
theorem Inv.of_match (h : Inv conn s) {o : O} {i : I} {cout : Channel I Ptr}
    {cin : Channel O Ptr} {spc : SendPc I} {rpc : ReceivePc}
    (hcout : s'.cout = Function.update s.cout o cout)
    (hsender : s'.sender = Function.update s.sender o { s.sender o with pc := spc })
    (hcin : s'.cin = Function.update s.cin i cin)
    (hreceiver : s'.receiver = Function.update s.receiver i { s.receiver i with pc := rpc })
    (hmatched : s'.matched = s.matched ++ [(s.sendCall o, s.receiveCall i)])
    (hcopied : ∀ i', i' ≠ i → ∀ p, (s.receiveCall i', p) ∈ s'.copied ↔
      (s.receiveCall i', p) ∈ s.copied)
    (hrecord : RecordOk conn s')
    (hsend : SenderOk cout { s.sender o with pc := spc } fun b => (s.sendCall o, b) ∈ s'.matched)
    (hreceive : ReceiverOk cin { s.receiver i with pc := rpc }
      (fun a => (a, s.receiveCall i) ∈ s'.matched) fun p => (s.receiveCall i, p) ∈ s'.copied)
    (hout : ListOk (fun i => conn i o) cout.connections) (hin : ListOk (conn i) cin.connections) :
    Inv conn s' := by
  refine ⟨fun o' => ?_, fun i' => ?_, hrecord, fun o' => ?_, fun i' => ?_⟩
  · rw [hcout, sendCall_update hsender, hsender]
    by_cases ho : o' = o
    · subst ho
      rw [Function.update_self, Function.update_self]
      exact hsend
    · rw [Function.update_of_ne ho, Function.update_of_ne ho]
      have hcall : ∀ b, (s.sendCall o', b) ∈ s'.matched ↔ (s.sendCall o', b) ∈ s.matched := by
        intro b
        have hne : s.sendCall o' ≠ s.sendCall o := fun heq => ho (congrArg Call.channel heq)
        simp [hmatched, hne]
      simp only [hcall]
      exact h.sender o'
  · rw [hcin, receiveCall_update hreceiver, hreceiver]
    by_cases hi : i' = i
    · subst hi
      rw [Function.update_self, Function.update_self]
      exact hreceive
    · rw [Function.update_of_ne hi, Function.update_of_ne hi]
      have hcall : ∀ a, (a, s.receiveCall i') ∈ s'.matched ↔ (a, s.receiveCall i') ∈ s.matched := by
        intro a
        have hne : s.receiveCall i' ≠ s.receiveCall i := fun heq => hi (congrArg Call.channel heq)
        simp [hmatched, hne]
      simp only [hcall, hcopied i' hi]
      exact h.receiver i'
  · rw [hcout]
    exact h.outList_update hout o'
  · rw [hcin]
    exact h.inList_update hin i'

/-! ### The invariant -/

/-- A step in `channel_send`. -/
theorem Inv.send_step {o : O} (h : Inv conn s) (hstep : SendStep s o s') : Inv conn s' := by
  have hok := h.sender o
  have hlist := h.outList o
  have hnum := fun pc o' => (number_update s.sender o pc o').ge
  cases hstep with
  | waitConns hpc hsem =>
    simp only [SenderOk, hpc] at hok
    refine h.of_send rfl rfl (fun i => ⟨(s.cin i).actuallyReceived, rfl⟩) rfl rfl rfl ?_ hok hlist
    exact h.record.frame rfl rfl rfl rfl (hnum _) fun _ => le_rfl
  | setReady length hpc =>
    simp only [SenderOk, hpc] at hok
    refine h.of_send rfl rfl (fun i => ⟨(s.cin i).actuallyReceived, rfl⟩) rfl rfl rfl ?_
      (Or.inl ⟨rfl, hok.2.1, rfl, hok.2.2⟩) hlist
    exact h.record.frame rfl rfl rfl rfl (hnum _) fun _ => le_rfl
  | taken i length receiver connections hpc hget hcin hcout =>
    obtain ⟨hblocked, hbuffer, hnone⟩ := hok.of_ready hcout
    -- both are ready, so neither call is in the record yet
    have hfree := ((h.receiver receiver).of_ready hcin).2
    obtain ⟨hconn, hlist'⟩ := hlist.getNextElement hget
    have hab : (s.sendCall o, s.receiveCall receiver) ∈
        s.matched ++ [(s.sendCall o, s.receiveCall receiver)] := by simp
    refine h.of_match rfl rfl rfl (Function.update_eq_self receiver s.receiver).symm rfl
      (fun _ _ _ => Iff.rfl) ?_ ⟨rfl, hblocked, _, hab, rfl⟩ ?_ hlist' (h.inList receiver)
    · exact (h.record.match hnone hfree hconn).frame rfl rfl rfl rfl (hnum _) fun _ => le_rfl
    · rw [hbuffer]
      exact (h.receiver receiver).taken (a := s.sendCall o) hcin hab (h.record.not_copied hfree)
  | passed i length receiver connections hpc hget =>
    simp only [SenderOk, hpc] at hok
    refine h.of_send rfl rfl (fun i => ⟨(s.cin i).actuallyReceived, rfl⟩) rfl rfl rfl ?_ hok
      (hlist.getNextElement hget).2
    exact h.record.frame rfl rfl rfl rfl (hnum _) fun _ => le_rfl
  | scanned i length hpc =>
    simp only [SenderOk, hpc] at hok
    refine h.of_send rfl rfl (fun i => ⟨(s.cin i).actuallyReceived, rfl⟩) rfl rfl rfl ?_ hok hlist
    exact h.record.frame rfl rfl rfl rfl (hnum _) fun _ => le_rfl
  | acknowledged receiver hpc htoken =>
    simp only [SenderOk, hpc] at hok
    obtain ⟨hready, hblocked, b, hb, -⟩ := hok
    refine h.of_send rfl rfl (fun i => ?_) rfl rfl rfl ?_ ⟨hready, hblocked, b, hb⟩ hlist
    · by_cases hi : i = receiver
      · subst hi
        exact ⟨_, Function.update_self ..⟩
      · exact ⟨(s.cin i).actuallyReceived, Function.update_of_ne hi ..⟩
    · exact h.record.frame rfl rfl rfl rfl (hnum _) fun _ => le_rfl
  | returned hpc =>
    simp only [SenderOk, hpc] at hok
    obtain ⟨b, hb⟩ := hok.2.2
    refine h.of_send rfl rfl (fun i => ⟨(s.cin i).actuallyReceived, rfl⟩) rfl rfl rfl ?_
      ⟨hok.1, hok.2.1⟩ hlist
    exact (h.record.return_send hb).frame rfl rfl rfl rfl (hnum _) fun _ => le_rfl
  | woken hpc htoken =>
    simp only [SenderOk, hpc] at hok
    -- a token in `blocked` is there only behind a match
    rcases hok with ⟨-, hzero, -⟩ | ⟨hready, hone, b, hb⟩
    · omega
    · refine h.of_send rfl rfl (fun i => ⟨(s.cin i).actuallyReceived, rfl⟩) rfl rfl rfl ?_
        ⟨hready, by simp [hone]⟩ hlist
      exact (h.record.return_send hb).frame rfl rfl rfl rfl (hnum _) fun _ => le_rfl

/-- A step in `channel_receive`. -/
theorem Inv.receive_step {i : I} (h : Inv conn s) (hstep : ReceiveStep s i s') : Inv conn s' := by
  have hok := h.receiver i
  have hlist := h.inList i
  have hnum := fun pc i' => (number_update s.receiver i pc i').ge
  cases hstep with
  | waitConns hpc hsem =>
    simp only [ReceiverOk, hpc] at hok
    refine h.of_receive rfl rfl rfl rfl rfl (fun _ _ _ => Iff.rfl) ?_ hok hlist
    exact h.record.frame rfl rfl rfl rfl (fun _ => le_rfl) (hnum _)
  | setReady length hpc =>
    simp only [ReceiverOk, hpc] at hok
    refine h.of_receive rfl rfl rfl rfl rfl (fun _ _ _ => Iff.rfl) ?_
      (Or.inl ⟨rfl, hok.2.1, hok.2.2⟩) hlist
    exact h.record.frame rfl rfl rfl rfl (fun _ => le_rfl) (hnum _)
  | taken j length sender connections data hpc hget hcout hcin hdata =>
    obtain ⟨hblocked, hnone⟩ := hok.of_ready hcin
    -- both are ready, so neither call is in the record yet
    obtain ⟨-, hbuffer, hfree⟩ := (h.sender sender).of_ready hcout
    obtain ⟨hconn, hlist'⟩ := hlist.getNextElement hget
    have hab : (s.sendCall sender, s.receiveCall i) ∈
        s.matched ++ [(s.sendCall sender, s.receiveCall i)] := by simp
    -- the buffer that is copied is the one that the waiting sender has filled
    obtain rfl : (s.sender sender).data = data := by
      rw [hbuffer] at hdata
      exact Option.some.inj hdata
    refine h.of_match rfl (Function.update_eq_self sender s.sender).symm rfl rfl rfl
      (fun i' hi p => ?_) ?_ ((h.sender sender).taken hcout hab)
      ⟨rfl, hblocked, s.sendCall sender, hab, ?_⟩ (h.outList sender) hlist'
    · have hne : s.receiveCall i' ≠ s.receiveCall i := fun heq => hi (congrArg Call.channel heq)
      simp [hne]
    · have hcopy := (h.record.match hfree hnone hconn).copy hab (h.record.not_copied hnone)
      exact hcopy.frame rfl rfl rfl rfl (fun _ => le_rfl) (hnum _)
    · exact List.mem_append_right _ (List.mem_singleton.2 rfl)
  | passed j length sender connections hpc hget =>
    simp only [ReceiverOk, hpc] at hok
    refine h.of_receive rfl rfl rfl rfl rfl (fun _ _ _ => Iff.rfl) ?_ hok
      (hlist.getNextElement hget).2
    exact h.record.frame rfl rfl rfl rfl (fun _ => le_rfl) (hnum _)
  | scanned j length hpc =>
    simp only [ReceiverOk, hpc] at hok
    refine h.of_receive rfl rfl rfl rfl rfl (fun _ _ _ => Iff.rfl) ?_ hok hlist
    exact h.record.frame rfl rfl rfl rfl (fun _ => le_rfl) (hnum _)
  | returned hpc =>
    simp only [ReceiverOk, hpc] at hok
    obtain ⟨hready, hblocked, a, ha, hcopied⟩ := hok
    refine h.of_receive rfl rfl rfl rfl rfl (fun _ _ _ => Iff.rfl) ?_ ⟨hready, hblocked⟩ hlist
    exact (h.record.return_receive ha hcopied).frame rfl rfl rfl rfl (fun _ => le_rfl) (hnum _)
  | woken hpc htoken =>
    simp only [ReceiverOk, hpc] at hok
    -- a token in `blocked` is there only behind a match
    rcases hok with ⟨-, hzero, -⟩ | ⟨hready, hone, hgiven⟩
    · omega
    · refine h.of_receive rfl rfl rfl rfl rfl (fun _ _ _ => Iff.rfl) ?_
        ⟨hready, by simp [hone], hgiven⟩ hlist
      exact h.record.frame rfl rfl rfl rfl (fun _ => le_rfl) (hnum _)
  | copied data hpc hdata =>
    simp only [ReceiverOk, hpc] at hok
    obtain ⟨hready, hblocked, a, ha, hbuffer, hnone⟩ := hok
    obtain rfl : a.data = data := by
      rw [hbuffer] at hdata
      exact Option.some.inj hdata
    refine h.of_receive rfl rfl rfl rfl rfl (fun i' hi p => ?_) ?_
      ⟨hready, hblocked, a, ha, List.mem_append_right _ (List.mem_singleton.2 rfl)⟩ hlist
    · have hne : s.receiveCall i' ≠ s.receiveCall i := fun heq => hi (congrArg Call.channel heq)
      simp [hne]
    · exact (h.record.copy ha hnone).frame rfl rfl rfl rfl (fun _ => le_rfl) (hnum _)
  | posted hpc =>
    simp only [ReceiverOk, hpc] at hok
    obtain ⟨hready, hblocked, a, ha, hcopied⟩ := hok
    refine h.of_receive rfl rfl rfl rfl rfl (fun _ _ _ => Iff.rfl) ?_ ⟨hready, hblocked⟩ hlist
    exact (h.record.return_receive ha hcopied).frame rfl rfl rfl rfl (fun _ => le_rfl) (hnum _)

omit [DecidableEq I] in
/-- A call of `channel_send`: its number is new, so it is unmatched. -/
theorem Inv.call_send (h : Inv conn s) {o : O} (data : Ptr) (hpc : (s.sender o).pc = .idle) :
    Inv conn { s with
      sender := Function.update s.sender o ⟨.waitConns, (s.sender o).number + 1, data⟩ } := by
  refine ⟨fun o' => ?_, h.receiver, ?_, h.outList, h.inList⟩
  · by_cases ho : o' = o
    · subst ho
      have hok := h.sender o'
      simp only [SenderOk, hpc] at hok
      simp only [SenderOk, sendCall, Function.update_self]
      refine ⟨hok.1, hok.2, fun b hb => ?_⟩
      have hle := h.record.sendNumbers _ hb
      exact absurd hle (Nat.not_succ_le_self _)
    · simp only [sendCall, Function.update_of_ne ho]
      exact h.sender o'
  · refine h.record.frame rfl rfl rfl rfl (fun o' => ?_) fun _ => le_rfl
    by_cases ho : o' = o
    · subst ho
      simp
    · simp only [Function.update_of_ne ho, le_refl]

omit [DecidableEq O] in
/-- A call of `channel_receive`: its number is new, so it is unmatched. -/
theorem Inv.call_receive (h : Inv conn s) {i : I} (data : Ptr)
    (hpc : (s.receiver i).pc = .idle) :
    Inv conn { s with
      receiver := Function.update s.receiver i ⟨.waitConns, (s.receiver i).number + 1, data⟩ } := by
  refine ⟨h.sender, fun i' => ?_, ?_, h.outList, h.inList⟩
  · by_cases hi : i' = i
    · subst hi
      have hok := h.receiver i'
      simp only [ReceiverOk, hpc] at hok
      simp only [ReceiverOk, receiveCall, Function.update_self]
      refine ⟨hok.1, hok.2, fun a ha => ?_⟩
      have hle := h.record.receiveNumbers _ ha
      exact absurd hle (Nat.not_succ_le_self _)
    · simp only [receiveCall, Function.update_of_ne hi]
      exact h.receiver i'
  · refine h.record.frame rfl rfl rfl rfl (fun _ => le_rfl) fun i' => ?_
    by_cases hi : i' = i
    · subst hi
      simp
    · simp only [Function.update_of_ne hi, le_refl]

/-- One event keeps the invariant. -/
theorem Inv.step {e : Event I O Ptr} (h : Inv conn s) (hstep : s.step e = some s') :
    Inv conn s' := by
  cases e with
  | send o data =>
    obtain ⟨hpc, rfl⟩ := called_of_send hstep
    exact h.call_send data hpc
  | receive i data =>
    obtain ⟨hpc, rfl⟩ := called_of_receive hstep
    exact h.call_receive data hpc
  | stepSend o => exact h.send_step (sendStep_of_stepSend hstep)
  | stepReceive i => exact h.receive_step (receiveStep_of_stepReceive hstep)

omit [DecidableEq I] [DecidableEq O] in
theorem Initial.inv (h : Initial conn s) : Inv conn s where
  sender := fun o => by
    simp only [SenderOk, h.sender o]
    exact h.cout o
  receiver := fun i => by
    simp only [ReceiverOk, h.receiver i]
    exact ⟨(h.cin i).1, (h.cin i).2.1⟩
  record := by
    constructor <;> simp [h.matched, h.copied, h.sent, h.received]
  outList := h.outConnections
  inList := h.inConnections

/-- The invariant holds after every run. -/
theorem Initial.inv_run {t : Channels I O Ptr} {events : List (Event I O Ptr)}
    (h : Initial conn s) (hrun : run Channels.step s events = some t) : Inv conn t := by
  have hany : Along Channels.step (fun _ _ => True) s events := fun _ _ _ _ _ => trivial
  exact run_invariant _ (fun _ _ _ hinv _ hstep => hinv.step hstep) h.inv hany hrun

/-- The matching of sends with receives is one-to-one and between connected channels; a receive
that returned has copied, once, from the data of the one send it was matched with, and a send that
returned was matched with one receive. -/
structure ExactlyOnce (conn : I → O → Prop) (s : Channels I O Ptr) : Prop where
  sendersOnce : (s.matched.map Prod.fst).Nodup
  receiversOnce : (s.matched.map Prod.snd).Nodup
  connected : ∀ p ∈ s.matched, conn p.2.channel p.1.channel
  copiesOnce : (s.copied.map Prod.fst).Nodup
  received : ∀ b ∈ s.received, ∃ a, (a, b) ∈ s.matched ∧ (b, a.data) ∈ s.copied ∧
    ∀ a', (a', b) ∈ s.matched → a' = a
  sent : ∀ a ∈ s.sent, ∃ b, (a, b) ∈ s.matched ∧ ∀ b', (a, b') ∈ s.matched → b' = b

omit [DecidableEq I] [DecidableEq O] in
theorem RecordOk.exactlyOnce (h : RecordOk conn s) : ExactlyOnce conn s where
  sendersOnce := h.sendersOnce
  receiversOnce := h.receiversOnce
  connected := h.connected
  copiesOnce := h.copiesOnce
  received := fun b hb => by
    obtain ⟨a, ha, hcopied⟩ := h.received b hb
    refine ⟨a, ha, hcopied, fun a' ha' => ?_⟩
    exact congrArg Prod.fst (List.inj_on_of_nodup_map h.receiversOnce ha' ha rfl)
  sent := fun a ha => by
    obtain ⟨b, hb⟩ := h.sent a ha
    refine ⟨b, hb, fun b' hb' => ?_⟩
    exact congrArg Prod.snd (List.inj_on_of_nodup_map h.sendersOnce hb' hb rfl)

/-- **Whatever the interleaving, the rendezvous is exactly once.** -/
theorem exactlyOnce_run {t : Channels I O Ptr} {events : List (Event I O Ptr)}
    (h : Initial conn s) (hrun : run Channels.step s events = some t) : ExactlyOnce conn t :=
  (h.inv_run hrun).record.exactlyOnce

/-- A receive that finds nothing and blocks, and the send that wakes it. -/
theorem exactlyOnce_run_pair : ∃ t : Channels Unit Unit ℕ,
    run Channels.step (Channels.bound (fun _ => [()]) (fun _ => [()]) 0)
        ([.receive () 100] ++ List.replicate 4 (.stepReceive ()) ++ [.send () 7] ++
          List.replicate 3 (.stepSend ()) ++ List.replicate 3 (.stepReceive ()) ++
          List.replicate 2 (.stepSend ())) = some t ∧
      t.sent = [⟨(), 1, 7⟩] ∧ t.received = [⟨(), 1, 100⟩] ∧ ExactlyOnce (fun _ _ => True) t := by
  have hrec : (run Channels.step (Channels.bound (fun _ : Unit => [()]) (fun _ : Unit => [()]) 0)
        ([.receive () 100] ++ List.replicate 4 (.stepReceive ()) ++ [.send () 7] ++
          List.replicate 3 (.stepSend ()) ++ List.replicate 3 (.stepReceive ()) ++
          List.replicate 2 (.stepSend ()))).map (fun t => (t.sent, t.received)) =
      some ([⟨(), 1, 7⟩], [⟨(), 1, 100⟩]) := by decide
  obtain ⟨t, hrun, ht⟩ := Option.map_eq_some_iff.1 hrec
  obtain ⟨hsent, hreceived⟩ := Prod.mk.inj ht
  have hinit : Initial (fun _ _ => True)
      (Channels.bound (fun _ : Unit => [()]) (fun _ : Unit => [()]) 0) :=
    bound_initial (fun _ _ _ => trivial) fun _ _ _ => trivial
  exact ⟨t, hrun, hsent, hreceived, exactlyOnce_run hinit hrun⟩

end Channels

end InsenseCVM
