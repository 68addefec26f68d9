import InsenseCVM.Channels.Rendezvous

/-!
# No missed rendezvous

A thread sets the `ready` flag of its channel and then scans the connected channels, and blocks only
behind the scan. When a connected pair of channels is ready, one of the two threads is still in its
scan and has the channel of the other in front of it: the one that set its flag last found all
connected channels ahead, and what a cursor passes is not ready.
-/

namespace InsenseCVM

namespace Channels

open Transition

variable {I O Ptr : Type}

/-- The next `left` elements of a connection list have `k` among them. -/
def Ahead {κ : Type} (l : IteratedList κ) (left : ℕ) (k : κ) : Prop :=
  ∃ ks, l.Round ks ∧ k ∈ ks.take left

/-- The connection list of a channel holds all connected channels. -/
def HoldsAll {κ : Type} (conn : κ → Prop) (l : IteratedList κ) : Prop :=
  ∃ ks, l.Round ks ∧ ∀ k, conn k → k ∈ ks

/-- The scan of the sender `o` has the channel `i` in front of it. -/
def SendAhead (s : Channels I O Ptr) (o : O) (i : I) : Prop :=
  ∃ j length, (s.sender o).pc = .scan j length ∧ Ahead (s.cout o).connections (length - j) i

/-- The scan of the receiver `i` has the channel `o` in front of it. -/
def ReceiveAhead (s : Channels I O Ptr) (i : I) (o : O) : Prop :=
  ∃ j length, (s.receiver i).pc = .scan j length ∧ Ahead (s.cin i).connections (length - j) o

/-- The lists hold all connected channels, and a connected pair that is ready is in front of one of
the two scans. -/
structure Covered (conn : I → O → Prop) (s : Channels I O Ptr) : Prop where
  outList : ∀ o, HoldsAll (fun i => conn i o) (s.cout o).connections
  inList : ∀ i, HoldsAll (conn i) (s.cin i).connections
  ready : ∀ i o, conn i o → (s.cin i).ready = true → (s.cout o).ready = true →
    SendAhead s o i ∨ ReceiveAhead s i o

variable {conn : I → O → Prop} {s s' : Channels I O Ptr}

/-! ### Cursors -/

theorem Ahead.getNextElement {κ : Type} {l l' : IteratedList κ} {left : ℕ} {k x : κ}
    (h : Ahead l (left + 1) k) (hget : l.getNextElement = some (some x, l')) :
    k = x ∨ Ahead l' left k := by
  obtain ⟨ks, hround, hk⟩ := h
  obtain ⟨ks, rfl, hround'⟩ := hround.next hget
  rw [List.take_succ_cons] at hk
  rcases List.mem_cons.1 hk with rfl | hk
  · exact .inl rfl
  · refine .inr ⟨_, hround', ?_⟩
    rw [List.take_append]
    exact List.mem_append_left _ hk

theorem not_ahead_zero {κ : Type} {l : IteratedList κ} {k : κ} : ¬ Ahead l 0 k := by
  rintro ⟨ks, -, hk⟩
  simp at hk

theorem HoldsAll.getNextElement {κ : Type} {conn : κ → Prop} {l l' : IteratedList κ} {k : κ}
    (h : HoldsAll conn l) (hget : l.getNextElement = some (some k, l')) : HoldsAll conn l' := by
  obtain ⟨ks, hround, hks⟩ := h
  obtain ⟨ks, rfl, hround'⟩ := hround.next hget
  refine ⟨_, hround', fun y hy => ?_⟩
  have hmem := hks y hy
  simpa [or_comm] using hmem

/-- A scan begins with all connected channels ahead. -/
theorem HoldsAll.ahead {κ : Type} {conn : κ → Prop} {l : IteratedList κ} {k : κ} {length : ℕ}
    (h : HoldsAll conn l) (hlength : l.getListLength = some length) (hk : conn k) :
    Ahead l length k := by
  obtain ⟨ks, hround, hks⟩ := h
  refine ⟨ks, hround, ?_⟩
  rw [hround.getListLength_eq] at hlength
  obtain rfl := Option.some.inj hlength
  rw [List.take_length]
  exact hks k hk

/-! ### Scans -/

variable [DecidableEq I] [DecidableEq O]

/-- A thread that sets the flag of its channel scans all of its list. -/
theorem getListLength_of_stepSend {o : O} {length : ℕ} (h : s.stepSend o = some s')
    (hpc : (s.sender o).pc = .setReady) (hpc' : (s'.sender o).pc = .scan 0 length) :
    (s.cout o).connections.getListLength = some length := by
  simp only [stepSend, hpc, Option.bind_eq_bind, Option.bind_eq_some_iff] at h
  obtain ⟨n, hn, h⟩ := h
  cases h
  simp only [setSender, Function.update_self, SendPc.scan.injEq, true_and] at hpc'
  rw [← hpc']
  exact hn

theorem getListLength_of_stepReceive {i : I} {length : ℕ} (h : s.stepReceive i = some s')
    (hpc : (s.receiver i).pc = .setReady) (hpc' : (s'.receiver i).pc = .scan 0 length) :
    (s.cin i).connections.getListLength = some length := by
  simp only [stepReceive, hpc, Option.bind_eq_bind, Option.bind_eq_some_iff] at h
  obtain ⟨n, hn, h⟩ := h
  cases h
  simp only [setReceiver, Function.update_self, ReceivePc.scan.injEq, true_and] at hpc'
  rw [← hpc']
  exact hn

/-- A scan ends behind the last element, and passes only channels with which there is no match. -/
theorem scan_of_stepSend {o : O} {j length : ℕ} (h : s.stepSend o = some s')
    (hpc : (s.sender o).pc = .scan j length) :
    (length ≤ j ∧ (s'.sender o).pc = .waitBlocked) ∨
      (j < length ∧ (s'.sender o).pc ≠ .waitBlocked ∧
        ∀ receiver l', (s.cout o).connections.getNextElement = some (some receiver, l') →
          (s'.sender o).pc = .scan (j + 1) length →
            ¬ ((s.cin receiver).ready = true ∧ (s.cout o).ready = true)) := by
  simp only [stepSend, hpc] at h
  split_ifs at h with hlt
  · right
    simp only [Option.bind_eq_bind, Option.bind_eq_some_iff] at h
    obtain ⟨⟨element, connections⟩, hget, receiver, rfl, h⟩ := h
    by_cases hready : (s.cin receiver).ready = true ∧ (s.cout o).ready = true
    · simp only [sendMatch, hready.1, hready.2, Bool.and_self, if_true] at h
      cases h
      refine ⟨hlt, ?_, fun _ _ _ hpc' => ?_⟩
      · simp [setSender]
      · simp [setSender] at hpc'
    · have hnot := hready
      rw [← Bool.and_eq_true] at hready
      simp only [sendMatch, hready] at h
      cases h
      refine ⟨hlt, ?_, fun receiver' l' hget' _ => ?_⟩
      · simp [setSender]
      · rw [hget] at hget'
        cases hget'
        exact hnot
  · cases h
    refine .inl ⟨not_lt.1 hlt, ?_⟩
    simp [setSender]

theorem scan_of_stepReceive {i : I} {j length : ℕ} (h : s.stepReceive i = some s')
    (hpc : (s.receiver i).pc = .scan j length) :
    (length ≤ j ∧ (s'.receiver i).pc = .waitBlocked) ∨
      (j < length ∧ (s'.receiver i).pc ≠ .waitBlocked ∧
        ∀ sender l', (s.cin i).connections.getNextElement = some (some sender, l') →
          (s'.receiver i).pc = .scan (j + 1) length →
            ¬ ((s.cin i).ready = true ∧ (s.cout sender).ready = true)) := by
  simp only [stepReceive, hpc] at h
  split_ifs at h with hlt
  · right
    simp only [Option.bind_eq_bind, Option.bind_eq_some_iff] at h
    obtain ⟨⟨element, connections⟩, hget, sender, rfl, h⟩ := h
    by_cases hready : (s.cout sender).ready = true ∧ (s.cin i).ready = true
    · simp only [receiveMatch, hready.1, hready.2, Bool.and_self, if_true,
        Option.bind_eq_some_iff] at h
      obtain ⟨data, hdata, h⟩ := h
      cases h
      refine ⟨hlt, ?_, fun _ _ _ hpc' => ?_⟩
      · simp [setReceiver]
      · simp [setReceiver] at hpc'
    · have hnot := hready
      rw [← Bool.and_eq_true] at hready
      simp only [receiveMatch, hready] at h
      cases h
      refine ⟨hlt, ?_, fun sender' l' hget' _ => ?_⟩
      · simp [setReceiver]
      · rw [hget] at hget'
        cases hget'
        exact fun hboth => hnot hboth.symm
  · cases h
    refine .inl ⟨not_lt.1 hlt, ?_⟩
    simp [setReceiver]

/-! ### The invariant -/

omit [DecidableEq I] in
/-- A step of the thread of `o`. -/
theorem Covered.of_send (h : Covered conn s) {o : O} {c : Channel I Ptr}
    {t : Thread (SendPc I) Ptr} (hcout : s'.cout = Function.update s.cout o c)
    (hsender : s'.sender = Function.update s.sender o t)
    (hcin : ∀ i, (s'.cin i).connections = (s.cin i).connections ∧
      ((s'.cin i).ready = true → (s.cin i).ready = true))
    (hreceiver : s'.receiver = s.receiver)
    (hlist : HoldsAll (fun i => conn i o) c.connections)
    (hready : ∀ i, conn i o → (s.cin i).ready = true → c.ready = true →
      (∃ j length, t.pc = .scan j length ∧ Ahead c.connections (length - j) i) ∨
        ReceiveAhead s i o) : Covered conn s' := by
  refine ⟨fun o' => ?_, fun i => ?_, fun i o' hconn hin hout => ?_⟩
  · rw [hcout]
    exact (Function.forall_update_iff s.cout fun o c =>
      HoldsAll (fun i => conn i o) c.connections).2 ⟨hlist, fun o _ => h.outList o⟩ o'
  · rw [(hcin i).1]
    exact h.inList i
  · have hi := (hcin i).2 hin
    unfold SendAhead ReceiveAhead
    rw [hcout] at hout
    rw [hcout, hsender, hreceiver, (hcin i).1]
    by_cases ho : o' = o
    · subst ho
      rw [Function.update_self] at hout
      rw [Function.update_self, Function.update_self]
      exact hready i hconn hi hout
    · rw [Function.update_of_ne ho] at hout
      rw [Function.update_of_ne ho, Function.update_of_ne ho]
      exact h.ready i o' hconn hi hout

omit [DecidableEq O] in
/-- A step of the thread of `i`. -/
theorem Covered.of_receive (h : Covered conn s) {i : I} {c : Channel O Ptr}
    {t : Thread ReceivePc Ptr} (hcin : s'.cin = Function.update s.cin i c)
    (hreceiver : s'.receiver = Function.update s.receiver i t)
    (hcout : ∀ o, (s'.cout o).connections = (s.cout o).connections ∧
      ((s'.cout o).ready = true → (s.cout o).ready = true))
    (hsender : s'.sender = s.sender)
    (hlist : HoldsAll (conn i) c.connections)
    (hready : ∀ o, conn i o → c.ready = true → (s.cout o).ready = true →
      SendAhead s o i ∨
        ∃ j length, t.pc = .scan j length ∧ Ahead c.connections (length - j) o) :
    Covered conn s' := by
  refine ⟨fun o => ?_, fun i' => ?_, fun i' o hconn hin hout => ?_⟩
  · rw [(hcout o).1]
    exact h.outList o
  · rw [hcin]
    exact (Function.forall_update_iff s.cin fun i c => HoldsAll (conn i) c.connections).2
      ⟨hlist, fun i _ => h.inList i⟩ i'
  · have ho := (hcout o).2 hout
    unfold SendAhead ReceiveAhead
    rw [hcin] at hin
    rw [hcin, hreceiver, hsender, (hcout o).1]
    by_cases hi : i' = i
    · subst hi
      rw [Function.update_self] at hin
      rw [Function.update_self, Function.update_self]
      exact hready o hconn hin ho
    · rw [Function.update_of_ne hi] at hin
      rw [Function.update_of_ne hi, Function.update_of_ne hi]
      exact h.ready i' o hconn hin ho

theorem Covered.send_step {o : O} (h : Covered conn s) (hinv : Inv conn s)
    (hstep : s.stepSend o = some s') : Covered conn s' := by
  have hlist := h.outList o
  have hok := hinv.sender o
  have hkeep : ∀ i, (s.cin i).connections = (s.cin i).connections ∧
      ((s.cin i).ready = true → (s.cin i).ready = true) := fun i => ⟨rfl, id⟩
  cases sendStep_of_stepSend hstep with
  | waitConns hpc hsem =>
    simp only [SenderOk, hpc] at hok
    refine h.of_send rfl rfl hkeep rfl hlist fun i _ _ hready => ?_
    rw [hok.1] at hready
    cases hready
  | setReady length hpc =>
    refine h.of_send rfl rfl hkeep rfl hlist fun i hconn _ _ => ?_
    have hlength : (s.cout o).connections.getListLength = some length :=
      getListLength_of_stepSend hstep hpc (by simp [setSender])
    -- the scan that starts now goes over all connections
    exact .inl ⟨0, length, rfl, hlist.ahead hlength hconn⟩
  | taken j length receiver connections hpc hget hcin hcout =>
    refine h.of_send rfl rfl (fun i => ?_) rfl (hlist.getNextElement hget) fun i _ _ hready => ?_
    · by_cases hi : i = receiver
      · subst hi
        simp
      · simp [Function.update_of_ne hi]
    · cases hready
  | passed j length receiver connections hpc hget =>
    refine h.of_send rfl rfl hkeep rfl (hlist.getNextElement hget) fun i hconn hin hout => ?_
    rcases scan_of_stepSend hstep hpc with ⟨-, hpc'⟩ | ⟨hlt, -, hnot⟩
    · simp [setSender] at hpc'
    · rcases h.ready i o hconn hin hout with ⟨j', length', hpc', hahead⟩ | hreceive
      · rw [hpc] at hpc'
        cases hpc'
        obtain ⟨left, hleft⟩ : ∃ left, length - j = left + 1 := ⟨length - j - 1, by omega⟩
        rw [hleft] at hahead
        rcases hahead.getNextElement hget with rfl | hahead'
        -- a receiver that is ready at its turn is taken, not passed
        · exact absurd ⟨hin, hout⟩ (hnot i connections hget (by simp [setSender]))
        · refine .inl ⟨j + 1, length, rfl, ?_⟩
          have heq : length - (j + 1) = left := by omega
          rw [heq]
          exact hahead'
      · exact .inr hreceive
  | scanned j length hpc =>
    refine h.of_send rfl rfl hkeep rfl hlist fun i hconn hin hout => ?_
    rcases scan_of_stepSend hstep hpc with ⟨hle, -⟩ | ⟨-, hne, -⟩
    · rcases h.ready i o hconn hin hout with ⟨j', length', hpc', hahead⟩ | hreceive
      · rw [hpc] at hpc'
        cases hpc'
        rw [Nat.sub_eq_zero_of_le hle] at hahead
        -- a scan at its end has nothing ahead, so the receiver must still meet the sender
        exact absurd hahead not_ahead_zero
      · exact .inr hreceive
    · exact absurd (by simp [setSender]) hne
  | acknowledged receiver hpc htoken =>
    simp only [SenderOk, hpc] at hok
    refine h.of_send rfl rfl (fun i => ?_) rfl hlist fun i _ _ hready => ?_
    · by_cases hi : i = receiver
      · subst hi
        simp
      · simp [Function.update_of_ne hi]
    · rw [hok.1] at hready
      cases hready
  | returned hpc =>
    simp only [SenderOk, hpc] at hok
    refine h.of_send rfl rfl hkeep rfl hlist fun i _ _ hready => ?_
    exact absurd (hok.1.symm.trans hready) (by decide)
  | woken hpc htoken =>
    simp only [SenderOk, hpc] at hok
    refine h.of_send rfl rfl hkeep rfl hlist fun i _ _ hready => ?_
    rcases hok with ⟨-, hzero, -⟩ | ⟨hfalse, -⟩
    · omega
    · exact absurd (hfalse.symm.trans hready) (by decide)

theorem Covered.receive_step {i : I} (h : Covered conn s) (hinv : Inv conn s)
    (hstep : s.stepReceive i = some s') : Covered conn s' := by
  have hlist := h.inList i
  have hok := hinv.receiver i
  have hkeep : ∀ o, (s.cout o).connections = (s.cout o).connections ∧
      ((s.cout o).ready = true → (s.cout o).ready = true) := fun o => ⟨rfl, id⟩
  cases receiveStep_of_stepReceive hstep with
  | waitConns hpc hsem =>
    simp only [ReceiverOk, hpc] at hok
    refine h.of_receive rfl rfl hkeep rfl hlist fun o _ hready _ => ?_
    exact absurd (hok.1.symm.trans hready) (by decide)
  | setReady length hpc =>
    refine h.of_receive rfl rfl hkeep rfl hlist fun o hconn _ _ => ?_
    have hlength : (s.cin i).connections.getListLength = some length :=
      getListLength_of_stepReceive hstep hpc (by simp [setReceiver])
    -- the scan that starts now goes over all connections
    exact .inr ⟨0, length, rfl, hlist.ahead hlength hconn⟩
  | taken j length sender connections data hpc hget hcout hcin hdata =>
    refine h.of_receive rfl rfl (fun o => ?_) rfl (hlist.getNextElement hget) fun o _ hready _ => ?_
    · by_cases ho : o = sender
      · subst ho
        simp
      · simp [Function.update_of_ne ho]
    · cases hready
  | passed j length sender connections hpc hget =>
    refine h.of_receive rfl rfl hkeep rfl (hlist.getNextElement hget) fun o hconn hin hout => ?_
    rcases scan_of_stepReceive hstep hpc with ⟨-, hpc'⟩ | ⟨hlt, -, hnot⟩
    · simp [setReceiver] at hpc'
    · rcases h.ready i o hconn hin hout with hsend | ⟨j', length', hpc', hahead⟩
      · exact .inl hsend
      · rw [hpc] at hpc'
        cases hpc'
        obtain ⟨left, hleft⟩ : ∃ left, length - j = left + 1 := ⟨length - j - 1, by omega⟩
        rw [hleft] at hahead
        rcases hahead.getNextElement hget with rfl | hahead'
        -- a sender that is ready at its turn is taken, not passed
        · exact absurd ⟨hin, hout⟩ (hnot o connections hget (by simp [setReceiver]))
        · refine .inr ⟨j + 1, length, rfl, ?_⟩
          have heq : length - (j + 1) = left := by omega
          rw [heq]
          exact hahead'
  | scanned j length hpc =>
    refine h.of_receive rfl rfl hkeep rfl hlist fun o hconn hin hout => ?_
    rcases scan_of_stepReceive hstep hpc with ⟨hle, -⟩ | ⟨-, hne, -⟩
    · rcases h.ready i o hconn hin hout with hsend | ⟨j', length', hpc', hahead⟩
      · exact .inl hsend
      · rw [hpc] at hpc'
        cases hpc'
        rw [Nat.sub_eq_zero_of_le hle] at hahead
        -- a scan at its end has nothing ahead, so the sender must still meet the receiver
        exact absurd hahead not_ahead_zero
    · exact absurd (by simp [setReceiver]) hne
  | returned hpc =>
    simp only [ReceiverOk, hpc] at hok
    refine h.of_receive rfl rfl hkeep rfl hlist fun o _ hready _ => ?_
    exact absurd (hok.1.symm.trans hready) (by decide)
  | woken hpc htoken =>
    simp only [ReceiverOk, hpc] at hok
    refine h.of_receive rfl rfl hkeep rfl hlist fun o _ hready _ => ?_
    rcases hok with ⟨-, hzero, -⟩ | ⟨hfalse, -⟩
    · omega
    · exact absurd (hfalse.symm.trans hready) (by decide)
  | copied data hpc hdata =>
    simp only [ReceiverOk, hpc] at hok
    refine h.of_receive rfl rfl hkeep rfl hlist fun o _ hready _ => ?_
    exact absurd (hok.1.symm.trans hready) (by decide)
  | posted hpc =>
    simp only [ReceiverOk, hpc] at hok
    refine h.of_receive rfl rfl hkeep rfl hlist fun o _ hready _ => ?_
    exact absurd (hok.1.symm.trans hready) (by decide)

theorem Covered.step {e : Event I O Ptr} (h : Covered conn s) (hinv : Inv conn s)
    (hstep : s.step e = some s') : Covered conn s' := by
  cases e with
  | send o data =>
    obtain ⟨hpc, rfl⟩ := called_of_send hstep
    have hok := hinv.sender o
    simp only [SenderOk, hpc] at hok
    refine h.of_send (Function.update_eq_self o s.cout).symm rfl (fun i => ⟨rfl, id⟩) rfl
      (h.outList o) fun i _ _ hready => ?_
    exact absurd (hok.1.symm.trans hready) (by decide)
  | receive i data =>
    obtain ⟨hpc, rfl⟩ := called_of_receive hstep
    have hok := hinv.receiver i
    simp only [ReceiverOk, hpc] at hok
    refine h.of_receive (Function.update_eq_self i s.cin).symm rfl (fun o => ⟨rfl, id⟩) rfl
      (h.inList i) fun o _ hready _ => ?_
    exact absurd (hok.1.symm.trans hready) (by decide)
  | stepSend o => exact h.send_step hinv hstep
  | stepReceive i => exact h.receive_step hinv hstep

/-- Each list holds all the channels that the channel is connected to. -/
structure Complete (conn : I → O → Prop) (s : Channels I O Ptr) : Prop where
  outConnections : ∀ o, HoldsAll (fun i => conn i o) (s.cout o).connections
  inConnections : ∀ i, HoldsAll (conn i) (s.cin i).connections

theorem foldl_insertElement_holdsAll {κ : Type} {l : IteratedList κ} {xs : List κ} (ks : List κ)
    (h : l.Round xs) :
    HoldsAll (fun k => k ∈ xs ∨ k ∈ ks) (ks.foldl (fun l k => l.insertElement (some k)) l) := by
  induction ks generalizing l xs with
  | nil => exact ⟨xs, h, fun k hk => hk.resolve_right List.not_mem_nil⟩
  | cons k ks ih =>
    obtain ⟨zs, hperm, hround⟩ := h.insertElement k
    obtain ⟨ys, hys, hmem⟩ := ih hround
    refine ⟨ys, hys, fun y hy => hmem y ?_⟩
    show y ∈ zs ∨ y ∈ ks
    rw [hperm.mem_iff, List.mem_cons]
    rcases hy with hx | hk
    · exact .inl (.inr hx)
    · rcases List.mem_cons.1 hk with rfl | hk
      · exact .inl (.inl rfl)
      · exact .inr hk

omit [DecidableEq I] [DecidableEq O] in
theorem bound_complete {inConnections : I → List O} {outConnections : O → List I} {data : Ptr}
    (hin : ∀ i o, conn i o → o ∈ inConnections i) (hout : ∀ i o, conn i o → i ∈ outConnections o) :
    Complete conn (bound inConnections outConnections data) where
  outConnections := fun o => by
    obtain ⟨ys, hys, hmem⟩ :=
      foldl_insertElement_holdsAll (outConnections o) IteratedList.constructList_round
    exact ⟨ys, hys, fun i hi => hmem i (.inr (hout i o hi))⟩
  inConnections := fun i => by
    obtain ⟨ys, hys, hmem⟩ :=
      foldl_insertElement_holdsAll (inConnections i) IteratedList.constructList_round
    exact ⟨ys, hys, fun o ho => hmem o (.inr (hin i o ho))⟩

/-- A connected pair is ready while both threads have finished their scans and are blocked. -/
def Missed (conn : I → O → Prop) (s : Channels I O Ptr) : Prop :=
  ∃ i o, conn i o ∧ (s.cin i).ready = true ∧ (s.cout o).ready = true ∧
    (s.receiver i).pc = .waitBlocked ∧ (s.sender o).pc = .waitBlocked

omit [DecidableEq I] [DecidableEq O] in
theorem Covered.not_missed (h : Covered conn s) : ¬ Missed conn s := by
  rintro ⟨i, o, hconn, hin, hout, hipc, hopc⟩
  rcases h.ready i o hconn hin hout with ⟨j, length, hpc, -⟩ | ⟨j, length, hpc, -⟩
  · rw [hopc] at hpc
    cases hpc
  · rw [hipc] at hpc
    cases hpc

/-- **Whatever the interleaving, no rendezvous of connected channels is missed.** -/
theorem not_missed_run {t : Channels I O Ptr} {events : List (Event I O Ptr)}
    (h : Initial conn s) (hall : Complete conn s) (hrun : run Channels.step s events = some t) :
    ¬ Missed conn t := by
  have hinit : Covered conn s := by
    refine ⟨hall.outConnections, hall.inConnections, fun i o _ hready _ => ?_⟩
    exact absurd ((h.cin i).1.symm.trans hready) (by decide)
  have hboth : Inv conn t ∧ Covered conn t :=
    run_keeps (fun s => Inv conn s ∧ Covered conn s)
      (fun _ _ _ hs hstep => ⟨hs.1.step hstep, hs.2.step hs.1 hstep⟩) ⟨h.inv, hinit⟩ hrun
  exact hboth.2.not_missed

/-- A send that scans behind the flag of the receive, and both are blocked for a match. -/
theorem not_missed_run_pair : ∃ t : Channels Unit Unit ℕ,
    run Channels.step (Channels.bound (fun _ => [()]) (fun _ => [()]) 0)
        ([.receive () 100, .send () 7] ++ List.replicate 2 (.stepReceive ()) ++
          List.replicate 3 (.stepSend ()) ++ List.replicate 2 (.stepReceive ())) = some t ∧
      (t.receiver ()).pc = .waitBlocked ∧ ¬ Missed (fun _ _ => True) t := by
  have hrec : (run Channels.step (Channels.bound (fun _ : Unit => [()]) (fun _ : Unit => [()]) 0)
        ([.receive () 100, .send () 7] ++ List.replicate 2 (.stepReceive ()) ++
          List.replicate 3 (.stepSend ()) ++ List.replicate 2 (.stepReceive ()))).map
      (fun t => (t.receiver ()).pc) = some .waitBlocked := by decide
  obtain ⟨t, hrun, ht⟩ := Option.map_eq_some_iff.1 hrec
  have hinit : Initial (fun _ _ => True)
      (Channels.bound (fun _ : Unit => [()]) (fun _ : Unit => [()]) 0) :=
    bound_initial (fun _ _ _ => trivial) fun _ _ _ => trivial
  have hall : Complete (fun _ _ => True)
      (Channels.bound (fun _ : Unit => [()]) (fun _ : Unit => [()]) 0) :=
    bound_complete (fun _ _ _ => by simp) fun _ _ _ => by simp
  exact ⟨t, hrun, ht, not_missed_run hinit hall hrun⟩

end Channels

end InsenseCVM
