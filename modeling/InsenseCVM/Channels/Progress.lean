import InsenseCVM.Channels.Acknowledge
import InsenseCVM.Channels.MissedRendezvous
import Mathlib.Algebra.BigOperators.Group.Finset.Basic
import Mathlib.Algebra.Order.BigOperators.Group.Finset

/-!
# Progress of sending and receiving

Without a new call the threads in `channel_send` and `channel_receive` come to rest: each step
lowers the `effort`, which counts what is left of a call from where its thread is, the longest
scan of its connections included. At rest nothing is half done. No semaphore is held and no token
is left, so a call that was matched has returned on both sides, a thread that blocks is behind its
whole scan, and of two connected channels one at least has no call under way: a send and a receive
on them would have met.
-/

namespace InsenseCVM

/-- What is left of `channel_send` with `length` connections. -/
def SendPc.left {I : Type} (length : ℕ) : SendPc I → ℕ
  | .idle => 0
  | .postConns | .waitBlocked => 1
  | .waitReceived _ => 2
  | .scan i last => last - i + 3
  | .setReady => length + 4
  | .waitConns => length + 5

/-- What is left of `channel_receive` with `length` connections. -/
def ReceivePc.left (length : ℕ) : ReceivePc → ℕ
  | .idle => 0
  | .postConns | .postReceived => 1
  | .copy => 2
  | .waitBlocked => 3
  | .scan j last => last - j + 4
  | .setReady => length + 5
  | .waitConns => length + 6

/-- The thread is behind its wait on `conns_sem` and before its post. -/
def SendPc.HoldsConns {I : Type} : SendPc I → Prop
  | .setReady | .scan _ _ | .waitReceived _ | .postConns => True
  | .idle | .waitConns | .waitBlocked => False

def ReceivePc.HoldsConns : ReceivePc → Prop
  | .setReady | .scan _ _ | .postConns => True
  | .idle | .waitConns | .waitBlocked | .copy | .postReceived => False

namespace Channels

open Transition

variable {I O Ptr : Type}

/-! ### What is left of a call -/

/-- The elements of a list that can be counted. -/
def listLength {κ : Type} (l : IteratedList κ) : ℕ := l.getListLength.getD 0

/-- What is left of the calls under way. -/
def effort [Fintype I] [Fintype O] (s : Channels I O Ptr) : ℕ :=
  ∑ o, (s.sender o).pc.left (listLength (s.cout o).connections) +
    ∑ i, (s.receiver i).pc.left (listLength (s.cin i).connections)

/-- A thread goes on with its call. -/
def Event.IsStep : Event I O Ptr → Prop
  | .stepSend _ | .stepReceive _ => True
  | .send _ _ | .receive _ _ => False

variable [DecidableEq I] [DecidableEq O] {conn : I → O → Prop} {s s' : Channels I O Ptr}

/-- No thread can go on. -/
def Quiescent (s : Channels I O Ptr) : Prop :=
  (∀ o, s.stepSend o = none) ∧ ∀ i, s.stepReceive i = none

/-- A step of the thread of `o` leaves the other threads, and of the other channels the
lists with their locks. -/
theorem frame_of_sendStep {o : O} (h : SendStep s o s') : s'.receiver = s.receiver ∧
    (∀ i, (s'.cin i).connections = (s.cin i).connections ∧
      (s'.cin i).connsSem = (s.cin i).connsSem) ∧
    ∀ o', o' ≠ o → s'.sender o' = s.sender o' ∧ s'.cout o' = s.cout o' := by
  cases h with
  | taken i length receiver =>
    refine ⟨rfl, fun i' => ?_, fun o' ho => by simp [setSender, Function.update_of_ne ho]⟩
    by_cases hi : i' = receiver
    · subst hi
      simp
    · simp [Function.update_of_ne hi]
  | acknowledged receiver =>
    refine ⟨rfl, fun i' => ?_, fun o' ho => by simp [setSender, Function.update_of_ne ho]⟩
    by_cases hi : i' = receiver
    · subst hi
      simp
    · simp [Function.update_of_ne hi]
  | waitConns | setReady | passed | scanned | returned | woken =>
    exact ⟨rfl, fun _ => ⟨rfl, rfl⟩, fun o' ho => by simp [setSender, Function.update_of_ne ho]⟩

/-- A step of the thread of `i` leaves the other threads, and of the other channels the
lists with their locks. -/
theorem frame_of_receiveStep {i : I} (h : ReceiveStep s i s') : s'.sender = s.sender ∧
    (∀ o, (s'.cout o).connections = (s.cout o).connections ∧
      (s'.cout o).connsSem = (s.cout o).connsSem) ∧
    ∀ i', i' ≠ i → s'.receiver i' = s.receiver i' ∧ s'.cin i' = s.cin i' := by
  cases h with
  | taken j length sender =>
    refine ⟨rfl, fun o' => ?_, fun i' hi => by simp [setReceiver, Function.update_of_ne hi]⟩
    by_cases ho : o' = sender
    · subst ho
      simp
    · simp [Function.update_of_ne ho]
  | waitConns | setReady | passed | scanned | returned | woken | copied | posted =>
    exact ⟨rfl, fun _ => ⟨rfl, rfl⟩, fun i' hi => by simp [setReceiver, Function.update_of_ne hi]⟩

theorem left_lt_of_stepSend {o : O} (h : s.stepSend o = some s') :
    (s'.sender o).pc.left (listLength (s'.cout o).connections) <
      (s.sender o).pc.left (listLength (s.cout o).connections) := by
  cases sendStep_of_stepSend h with
  | setReady length hpc =>
    have hlength : (s.cout o).connections.getListLength = some length :=
      getListLength_of_stepSend h hpc (by simp [setSender])
    simp [setSender, SendPc.left, hpc, listLength, hlength]
  | passed i length receiver connections hpc hget =>
    rcases scan_of_stepSend h hpc with ⟨-, hpc'⟩ | ⟨hlt, -⟩
    · simp [setSender] at hpc'
    · simp only [setSender, Function.update_self, SendPc.left, hpc]
      omega
  | waitConns hpc | taken _ _ _ _ hpc | scanned _ _ hpc | acknowledged _ hpc | returned hpc
  | woken hpc => simp [setSender, SendPc.left, hpc]

theorem left_lt_of_stepReceive {i : I} (h : s.stepReceive i = some s') :
    (s'.receiver i).pc.left (listLength (s'.cin i).connections) <
      (s.receiver i).pc.left (listLength (s.cin i).connections) := by
  cases receiveStep_of_stepReceive h with
  | setReady length hpc =>
    have hlength : (s.cin i).connections.getListLength = some length :=
      getListLength_of_stepReceive h hpc (by simp [setReceiver])
    simp [setReceiver, ReceivePc.left, hpc, listLength, hlength]
  | passed j length sender connections hpc hget =>
    rcases scan_of_stepReceive h hpc with ⟨-, hpc'⟩ | ⟨hlt, -⟩
    · simp [setReceiver] at hpc'
    · simp only [setReceiver, Function.update_self, ReceivePc.left, hpc]
      omega
  | waitConns hpc | taken _ _ _ _ _ hpc | scanned _ _ hpc | returned hpc | woken hpc
  | copied _ hpc | posted hpc => simp [setReceiver, ReceivePc.left, hpc]

/-- Each step of a thread lowers the effort. -/
theorem effort_lt_of_step [Fintype I] [Fintype O] {e : Event I O Ptr} (he : e.IsStep)
    (h : s.step e = some s') : s'.effort < s.effort := by
  cases e with
  | send o data | receive i data => exact he.elim
  | stepSend o =>
    obtain ⟨hreceiver, hcin, hother⟩ := frame_of_sendStep (sendStep_of_stepSend h)
    refine Nat.add_lt_add_of_lt_of_le ?_ (le_of_eq ?_)
    · refine Finset.sum_lt_sum (fun o' _ => ?_) ⟨o, Finset.mem_univ o, left_lt_of_stepSend h⟩
      by_cases ho : o' = o
      · subst ho
        exact (left_lt_of_stepSend h).le
      · rw [(hother o' ho).1, (hother o' ho).2]
    · simp only [hreceiver, fun i => (hcin i).1]
  | stepReceive i =>
    obtain ⟨hsender, hcout, hother⟩ := frame_of_receiveStep (receiveStep_of_stepReceive h)
    refine Nat.add_lt_add_of_le_of_lt (le_of_eq ?_) ?_
    · simp only [hsender, fun o => (hcout o).1]
    · refine Finset.sum_lt_sum (fun i' _ => ?_) ⟨i, Finset.mem_univ i, left_lt_of_stepReceive h⟩
      by_cases hi : i' = i
      · subst hi
        exact (left_lt_of_stepReceive h).le
      · rw [(hother i' hi).1, (hother i' hi).2]

/-! ### What a call under way relies on -/

/-- The connections of `c` can be had by its thread, and a scan knows how many there are. -/
def SendResumes (connected : Prop) (c : Channel I Ptr) (pc : SendPc I) : Prop :=
  (connected → c.connsSem = true ∨ pc.HoldsConns) ∧
    ∀ j length, pc = .scan j length → c.connections.getListLength = some length

def ReceiveResumes (connected : Prop) (c : Channel O Ptr) (pc : ReceivePc) : Prop :=
  (connected → c.connsSem = true ∨ pc.HoldsConns) ∧
    ∀ j length, pc = .scan j length → c.connections.getListLength = some length

/-- Every thread can have its connections in its turn, and each call that was matched has returned
or is under way. -/
structure Underway (conn : I → O → Prop) (s : Channels I O Ptr) : Prop where
  sender : ∀ o, SendResumes (∃ i, conn i o) (s.cout o) (s.sender o).pc
  receiver : ∀ i, ReceiveResumes (∃ o, conn i o) (s.cin i) (s.receiver i).pc
  sends : ∀ p ∈ s.matched, p.1 ∈ s.sent ∨
    p.1 = s.sendCall p.1.channel ∧ (s.sender p.1.channel).pc ≠ .idle
  receives : ∀ p ∈ s.matched, p.2 ∈ s.received ∨
    p.2 = s.receiveCall p.2.channel ∧ (s.receiver p.2.channel).pc ≠ .idle

theorem getListLength_of_getNextElement {κ : Type} {l l' : IteratedList κ} {element : Option κ}
    (h : l.getNextElement = some (element, l')) : l'.getListLength = l.getListLength := by
  obtain ⟨p, rfl⟩ := IteratedList.getNextElement_moves h
  rfl

theorem SendResumes.step {o : O} {connected : Prop}
    (h : SendResumes connected (s.cout o) (s.sender o).pc) (hstep : s.stepSend o = some s') :
    SendResumes connected (s'.cout o) (s'.sender o).pc := by
  obtain ⟨hsem, hscan⟩ := h
  cases sendStep_of_stepSend hstep with
  | setReady length hpc =>
    have hlength : (s.cout o).connections.getListLength = some length :=
      getListLength_of_stepSend hstep hpc (by simp [setSender])
    refine ⟨fun _ => .inr ?_, fun j last hpc' => ?_⟩
    · simp [setSender, SendPc.HoldsConns]
    · simp only [setSender, Function.update_self, SendPc.scan.injEq] at hpc'
      simp only [setSender, Function.update_self, hlength, hpc'.2]
  | passed i length receiver connections hpc hget =>
    refine ⟨fun _ => .inr ?_, fun j last hpc' => ?_⟩
    · simp [setSender, SendPc.HoldsConns]
    · simp only [setSender, Function.update_self, SendPc.scan.injEq] at hpc'
      simp only [setSender, Function.update_self, getListLength_of_getNextElement hget]
      rw [← hpc'.2]
      exact hscan i length hpc
  | woken hpc =>
    refine ⟨fun hc => .inl ?_, fun j last hpc' => by simp [setSender] at hpc'⟩
    simpa [setSender, hpc, SendPc.HoldsConns] using hsem hc
  | waitConns | taken | acknowledged | scanned | returned =>
    exact ⟨fun _ => by simp [setSender, SendPc.HoldsConns],
      fun j last hpc' => by simp [setSender] at hpc'⟩

theorem ReceiveResumes.step {i : I} {connected : Prop}
    (h : ReceiveResumes connected (s.cin i) (s.receiver i).pc)
    (hstep : s.stepReceive i = some s') :
    ReceiveResumes connected (s'.cin i) (s'.receiver i).pc := by
  obtain ⟨hsem, hscan⟩ := h
  cases receiveStep_of_stepReceive hstep with
  | setReady length hpc =>
    have hlength : (s.cin i).connections.getListLength = some length :=
      getListLength_of_stepReceive hstep hpc (by simp [setReceiver])
    refine ⟨fun _ => .inr ?_, fun j last hpc' => ?_⟩
    · simp [setReceiver, ReceivePc.HoldsConns]
    · simp only [setReceiver, Function.update_self, ReceivePc.scan.injEq] at hpc'
      simp only [setReceiver, Function.update_self, hlength, hpc'.2]
  | passed j length sender connections hpc hget =>
    refine ⟨fun _ => .inr ?_, fun j' last hpc' => ?_⟩
    · simp [setReceiver, ReceivePc.HoldsConns]
    · simp only [setReceiver, Function.update_self, ReceivePc.scan.injEq] at hpc'
      simp only [setReceiver, Function.update_self, getListLength_of_getNextElement hget]
      rw [← hpc'.2]
      exact hscan j length hpc
  | woken hpc | copied _ hpc | posted hpc =>
    refine ⟨fun hc => .inl ?_, fun j last hpc' => by simp [setReceiver] at hpc'⟩
    simpa [setReceiver, hpc, ReceivePc.HoldsConns] using hsem hc
  | waitConns | taken | scanned | returned =>
    exact ⟨fun _ => by simp [setReceiver, ReceivePc.HoldsConns],
      fun j last hpc' => by simp [setReceiver] at hpc'⟩

/-- What a step of the thread of `o` puts into the record. -/
theorem record_of_sendStep {o : O} (h : SendStep s o s') :
    (∀ o', s'.sendCall o' = s.sendCall o') ∧ s'.received = s.received ∧ s.sent ⊆ s'.sent ∧
      ((s'.sender o).pc = .idle → s.sendCall o ∈ s'.sent) ∧
      ∀ p ∈ s'.matched, p ∈ s.matched ∨
        p.1 = s.sendCall o ∧ ∃ i, p.2 = s.receiveCall i ∧ (s.cin i).ready = true ∧
          (s'.sender o).pc ≠ .idle := by
  cases h with
  | taken i length receiver connections hpc hget hcin =>
    refine ⟨sendCall_update rfl, rfl, List.Subset.refl _, ?_, fun p hp => ?_⟩
    · simp [setSender]
    · rcases List.mem_append.1 hp with hp | hp
      · exact .inl hp
      · obtain rfl := List.mem_singleton.1 hp
        exact .inr ⟨rfl, receiver, rfl, hcin, by simp [setSender]⟩
  | returned | woken =>
    exact ⟨sendCall_update rfl, rfl, List.subset_append_left _ _,
      fun _ => List.mem_append_right _ (List.mem_singleton.2 rfl), fun p hp => .inl hp⟩
  | waitConns | setReady | passed | scanned | acknowledged =>
    exact ⟨sendCall_update rfl, rfl, List.Subset.refl _, by simp [setSender],
      fun p hp => .inl hp⟩

/-- What a step of the thread of `i` puts into the record. -/
theorem record_of_receiveStep {i : I} (h : ReceiveStep s i s') :
    (∀ i', s'.receiveCall i' = s.receiveCall i') ∧ s'.sent = s.sent ∧
      s.received ⊆ s'.received ∧
      ((s'.receiver i).pc = .idle → s.receiveCall i ∈ s'.received) ∧
      ∀ p ∈ s'.matched, p ∈ s.matched ∨
        p.2 = s.receiveCall i ∧ ∃ o, p.1 = s.sendCall o ∧ (s.cout o).ready = true ∧
          (s'.receiver i).pc ≠ .idle := by
  cases h with
  | taken j length sender connections data hpc hget hcout =>
    refine ⟨receiveCall_update rfl, rfl, List.Subset.refl _, ?_, fun p hp => ?_⟩
    · simp [setReceiver]
    · rcases List.mem_append.1 hp with hp | hp
      · exact .inl hp
      · obtain rfl := List.mem_singleton.1 hp
        exact .inr ⟨rfl, sender, rfl, hcout, by simp [setReceiver]⟩
  | returned | posted =>
    exact ⟨receiveCall_update rfl, rfl, List.subset_append_left _ _,
      fun _ => List.mem_append_right _ (List.mem_singleton.2 rfl), fun p hp => .inl hp⟩
  | waitConns | setReady | passed | scanned | woken | copied =>
    exact ⟨receiveCall_update rfl, rfl, List.Subset.refl _, by simp [setReceiver],
      fun p hp => .inl hp⟩

omit [DecidableEq I] [DecidableEq O] in
theorem SenderOk.not_idle_of_ready {c : Channel I Ptr} {t : Thread (SendPc I) Ptr}
    {takes : Call I Ptr → Prop} (h : SenderOk c t takes) (hready : c.ready = true) :
    t.pc ≠ .idle := by
  intro hpc
  simp [SenderOk, hpc, hready] at h

omit [DecidableEq I] [DecidableEq O] in
theorem ReceiverOk.not_idle_of_ready {c : Channel O Ptr} {t : Thread ReceivePc Ptr}
    {gives : Call O Ptr → Prop} {copies : Ptr → Prop} (h : ReceiverOk c t gives copies)
    (hready : c.ready = true) : t.pc ≠ .idle := by
  intro hpc
  simp [ReceiverOk, hpc, hready] at h

theorem Underway.send_step {o : O} (h : Underway conn s) (hinv : Inv conn s)
    (hstep : s.stepSend o = some s') : Underway conn s' := by
  obtain ⟨hreceiver, hcin, hother⟩ := frame_of_sendStep (sendStep_of_stepSend hstep)
  obtain ⟨hcall, hreceived, hsent, hreturn, hmatched⟩ :=
    record_of_sendStep (sendStep_of_stepSend hstep)
  have hrcall : ∀ i, s'.receiveCall i = s.receiveCall i := fun i => by
    simp only [receiveCall, hreceiver]
  refine ⟨fun o' => ?_, fun i => ?_, fun p hp => ?_, fun p hp => ?_⟩
  · by_cases ho : o' = o
    · subst ho
      exact (h.sender o').step hstep
    · rw [(hother o' ho).1, (hother o' ho).2]
      exact h.sender o'
  · unfold ReceiveResumes
    rw [(hcin i).1, (hcin i).2, hreceiver]
    exact h.receiver i
  · rcases hmatched p hp with hold | ⟨hcall', i, -, -, hpc⟩
    · rcases h.sends p hold with hin | ⟨heq, hpc⟩
      · exact .inl (hsent hin)
      · rw [hcall]
        by_cases ho : p.1.channel = o
        · -- the call of the thread that steps: it is recorded when the thread is done
          by_cases hidle : (s'.sender o).pc = .idle
          · rw [heq, ho]
            exact .inl (hreturn hidle)
          · rw [ho] at heq ⊢
            exact .inr ⟨heq, hidle⟩
        · rw [(hother _ ho).1]
          exact .inr ⟨heq, hpc⟩
    · rw [hcall, hcall']
      exact .inr ⟨rfl, hpc⟩
  · rw [hreceived, hrcall, hreceiver]
    rcases hmatched p hp with hold | ⟨-, i, hcall', hready, -⟩
    · exact h.receives p hold
    · rw [hcall']
      exact .inr ⟨rfl, (hinv.receiver i).not_idle_of_ready hready⟩

theorem Underway.receive_step {i : I} (h : Underway conn s) (hinv : Inv conn s)
    (hstep : s.stepReceive i = some s') : Underway conn s' := by
  obtain ⟨hsender, hcout, hother⟩ := frame_of_receiveStep (receiveStep_of_stepReceive hstep)
  obtain ⟨hcall, hsent, hreceived, hreturn, hmatched⟩ :=
    record_of_receiveStep (receiveStep_of_stepReceive hstep)
  have hscall : ∀ o, s'.sendCall o = s.sendCall o := fun o => by
    simp only [sendCall, hsender]
  refine ⟨fun o => ?_, fun i' => ?_, fun p hp => ?_, fun p hp => ?_⟩
  · unfold SendResumes
    rw [(hcout o).1, (hcout o).2, hsender]
    exact h.sender o
  · by_cases hi : i' = i
    · subst hi
      exact (h.receiver i').step hstep
    · rw [(hother i' hi).1, (hother i' hi).2]
      exact h.receiver i'
  · rw [hsent, hscall, hsender]
    rcases hmatched p hp with hold | ⟨-, o, hcall', hready, -⟩
    · exact h.sends p hold
    · rw [hcall']
      exact .inr ⟨rfl, (hinv.sender o).not_idle_of_ready hready⟩
  · rcases hmatched p hp with hold | ⟨hcall', o, -, -, hpc⟩
    · rcases h.receives p hold with hin | ⟨heq, hpc⟩
      · exact .inl (hreceived hin)
      · rw [hcall]
        by_cases hi : p.2.channel = i
        · -- the call of the thread that steps: it is recorded when the thread is done
          by_cases hidle : (s'.receiver i).pc = .idle
          · rw [heq, hi]
            exact .inl (hreturn hidle)
          · rw [hi] at heq ⊢
            exact .inr ⟨heq, hidle⟩
        · rw [(hother _ hi).1]
          exact .inr ⟨heq, hpc⟩
    · rw [hcall, hcall']
      exact .inr ⟨rfl, hpc⟩

omit [DecidableEq I] in
theorem Underway.call_send (h : Underway conn s) {o : O} (data : Ptr)
    (hpc : (s.sender o).pc = .idle) :
    Underway conn { s with
      sender := Function.update s.sender o ⟨.waitConns, (s.sender o).number + 1, data⟩ } := by
  refine ⟨fun o' => ?_, h.receiver, fun p hp => ?_, h.receives⟩
  · by_cases ho : o' = o
    · subst ho
      refine ⟨fun hc => .inl ?_, fun j length hpc' => by simp at hpc'⟩
      simpa [hpc, SendPc.HoldsConns] using (h.sender o').1 hc
    · simp only [Function.update_of_ne ho]
      exact h.sender o'
  · rcases h.sends p hp with hin | ⟨heq, hne⟩
    · exact .inl hin
    · have ho : p.1.channel ≠ o := by
        intro ho
        rw [ho] at hne
        exact hne hpc
      simp only [sendCall, Function.update_of_ne ho]
      exact .inr ⟨heq, hne⟩

omit [DecidableEq O] in
theorem Underway.call_receive (h : Underway conn s) {i : I} (data : Ptr)
    (hpc : (s.receiver i).pc = .idle) :
    Underway conn { s with
      receiver := Function.update s.receiver i ⟨.waitConns, (s.receiver i).number + 1, data⟩ } := by
  refine ⟨h.sender, fun i' => ?_, h.sends, fun p hp => ?_⟩
  · by_cases hi : i' = i
    · subst hi
      refine ⟨fun hc => .inl ?_, fun j length hpc' => by simp at hpc'⟩
      simpa [hpc, ReceivePc.HoldsConns] using (h.receiver i').1 hc
    · simp only [Function.update_of_ne hi]
      exact h.receiver i'
  · rcases h.receives p hp with hin | ⟨heq, hne⟩
    · exact .inl hin
    · have hi : p.2.channel ≠ i := by
        intro hi
        rw [hi] at hne
        exact hne hpc
      simp only [receiveCall, Function.update_of_ne hi]
      exact .inr ⟨heq, hne⟩

/-- One event keeps what the calls under way rely on. -/
theorem Underway.step {e : Event I O Ptr} (h : Underway conn s) (hinv : Inv conn s)
    (hstep : s.step e = some s') : Underway conn s' := by
  cases e with
  | send o data =>
    obtain ⟨hpc, rfl⟩ := called_of_send hstep
    exact h.call_send data hpc
  | receive i data =>
    obtain ⟨hpc, rfl⟩ := called_of_receive hstep
    exact h.call_receive data hpc
  | stepSend o => exact h.send_step hinv hstep
  | stepReceive i => exact h.receive_step hinv hstep

omit [DecidableEq I] [DecidableEq O] in
theorem bound_underway {inConnections : I → List O} {outConnections : O → List I} {data : Ptr}
    (hin : ∀ i o, conn i o → o ∈ inConnections i) (hout : ∀ i o, conn i o → i ∈ outConnections o) :
    Underway conn (bound inConnections outConnections data) where
  sender := fun o => ⟨fun ⟨i, hc⟩ => .inl (by
    simpa [bound, boundTo] using List.ne_nil_of_mem (hout i o hc)), fun _ _ h => by cases h⟩
  receiver := fun i => ⟨fun ⟨o, hc⟩ => .inl (by
    simpa [bound, boundTo] using List.ne_nil_of_mem (hin i o hc)), fun _ _ h => by cases h⟩
  sends := fun p hp => by cases hp
  receives := fun p hp => by cases hp

/-! ### Tokens of `actually_received` -/

/-- The sends that wait on a receiver outnumber its tokens by the receive that is pending. -/
def Tokens [Fintype O] (s : Channels I O Ptr) : Prop :=
  ∀ i, (s.waiting i).card =
    (s.cin i).actuallyReceived + if Pending (s.cin i) (s.receiver i) then 1 else 0

/-- The state with another record. -/
def recorded (s : Channels I O Ptr) (matched : List (Call O Ptr × Call I Ptr)) :
    Channels I O Ptr :=
  { s with matched := matched, copied := [] }

omit [DecidableEq O] in
/-- With no match on record, the tokens are all that is settled. -/
theorem Tokens.settled [Fintype O] (h : Tokens s) : Settled (s.recorded []) :=
  ⟨h, fun _ _ hab => absurd hab List.not_mem_nil⟩

omit [DecidableEq O] in
theorem Tokens.of_recorded [Fintype O] {m : List (Call O Ptr × Call I Ptr)}
    (h : Settled (s.recorded m)) : Tokens s := h.tokens

theorem Tokens.send_step [Fintype O] {o : O} (h : Tokens s) (hinv : Inv conn s)
    (hstep : SendStep s o s') : Tokens s' := by
  cases hstep with
  | waitConns hpc | setReady _ hpc | passed _ _ _ _ hpc | scanned _ _ hpc | returned hpc
  | woken hpc =>
    refine Tokens.of_recorded (m := []) (h.settled.of_send rfl ?_ ?_ rfl rfl rfl rfl)
    · simp [recorded, hpc]
    · simp
  | taken i length receiver connections hpc hget hcin hcout =>
    have hrec := hinv.receiver receiver
    refine Tokens.of_recorded (m := [(s.sendCall o, s.receiveCall receiver)])
      (h.settled.taken rfl rfl rfl rfl rfl ?_ rfl (hrec.not_pending hcin)
        (hrec.pending_of_ready hcin rfl))
    simp [recorded, hpc]
  | acknowledged receiver hpc htoken =>
    exact Tokens.of_recorded (m := []) (h.settled.acknowledged rfl rfl rfl rfl rfl hpc htoken
      fun b hb => absurd hb List.not_mem_nil)

theorem Tokens.receive_step [Fintype O] {i : I} (h : Tokens s) (hinv : Inv conn s)
    (hstep : ReceiveStep s i s') : Tokens s' := by
  have hok := hinv.receiver i
  -- a receive changes its own place and its own channel; the records are empty
  have hreceive : ∀ {c : Channel O Ptr} {pc : ReceivePc},
      s'.cin = Function.update s.cin i c →
      s'.receiver = Function.update s.receiver i { s.receiver i with pc := pc } →
      s'.sender = s.sender → c.actuallyReceived = (s.cin i).actuallyReceived →
      (Pending c { s.receiver i with pc := pc } ↔ Pending (s.cin i) (s.receiver i)) →
      Tokens s' := fun hcin hreceiver hsender htokens hpend =>
    Tokens.of_recorded (m := []) (h.settled.of_receive hcin hreceiver hsender
      (fun _ _ hab => absurd hab List.not_mem_nil) (List.Subset.refl _) htokens hpend)
  cases hstep with
  | waitConns hpc | setReady _ hpc | scanned _ _ hpc | passed _ _ _ _ hpc | returned hpc
  | copied _ hpc =>
    refine hreceive rfl rfl rfl rfl ?_
    simp [Pending, hpc]
  | taken j length sender connections data hpc hget hcout hcin =>
    refine hreceive rfl rfl rfl rfl ?_
    simp [Pending, hpc, hcin]
  | woken hpc htoken =>
    refine hreceive rfl rfl rfl rfl ?_
    simp only [ReceiverOk, hpc] at hok
    rcases hok with ⟨-, hzero, -⟩ | ⟨hready, -⟩
    · omega
    · simp [Pending, hpc, hready]
  | posted hpc =>
    exact Tokens.of_recorded (m := []) (h.settled.posted rfl rfl rfl rfl rfl hpc
      fun a ha => absurd ha List.not_mem_nil)

/-- No event makes the tokens wrong, in whatever turn they are taken. -/
theorem Tokens.step [Fintype O] {e : Event I O Ptr} (h : Tokens s) (hinv : Inv conn s)
    (hstep : s.step e = some s') : Tokens s' := by
  cases e with
  | send o data =>
    obtain ⟨hpc, rfl⟩ := called_of_send hstep
    intro i
    rw [← h i]
    congr 1
    ext o'
    rw [mem_waiting, mem_waiting]
    by_cases ho : o' = o
    · subst ho
      simp [hpc]
    · simp only [Function.update_of_ne ho]
  | receive i data =>
    obtain ⟨hpc, rfl⟩ := called_of_receive hstep
    intro i'
    refine (h i').trans ?_
    by_cases hi : i' = i
    · subst hi
      simp only [Function.update_self, Pending, hpc]
    · simp only [Function.update_of_ne hi]
  | stepSend o => exact h.send_step hinv (sendStep_of_stepSend hstep)
  | stepReceive i => exact h.receive_step hinv (receiveStep_of_stepReceive hstep)

/-! ### At rest -/

omit [DecidableEq I] [DecidableEq O] in
/-- A scan that has not passed all of a list gets another element. -/
theorem ListOk.exists_next {κ : Type} {conn : κ → Prop} {l : IteratedList κ} {j length : ℕ}
    (h : ListOk conn l) (hlength : l.getListLength = some length) (hlt : j < length) :
    ∃ k l', l.getNextElement = some (some k, l') := by
  obtain ⟨ks, hround, -⟩ := h
  rw [hround.getListLength_eq] at hlength
  obtain rfl := Option.some.inj hlength
  cases ks with
  | nil => simp at hlt
  | cons k ks =>
    obtain ⟨p, hget, -⟩ := hround.getNextElement
    exact ⟨k, _, hget⟩

/-- The places where a thread in `channel_receive` can rest. -/
theorem receiver_of_quiescent (hinv : Inv conn s) (h : Underway conn s) (hq : Quiescent s)
    (i : I) : (s.receiver i).pc = .idle ∨
      (s.receiver i).pc = .waitConns ∧ (∀ o, ¬ conn i o) ∨
      (s.receiver i).pc = .waitBlocked ∧ (s.cin i).ready = true ∧
        ∀ a, (a, s.receiveCall i) ∉ s.matched := by
  have hstep := hq.2 i
  have hok := hinv.receiver i
  obtain ⟨hsem, hscan⟩ := h.receiver i
  cases hpc : (s.receiver i).pc with
  | idle => exact .inl rfl
  | waitConns =>
    refine .inr (.inl ⟨rfl, fun o hc => ?_⟩)
    have hfree : (s.cin i).connsSem = true := by
      simpa [hpc, ReceivePc.HoldsConns] using hsem ⟨o, hc⟩
    simp [stepReceive, hpc, hfree] at hstep
  | setReady =>
    obtain ⟨ks, hround, -⟩ := hinv.inList i
    simp [stepReceive, hpc, hround.getListLength_eq] at hstep
  | scan j length =>
    simp only [stepReceive, hpc] at hstep
    split_ifs at hstep with hlt
    obtain ⟨k, l', hget⟩ := (hinv.inList i).exists_next (hscan j length hpc) hlt
    simp only [hget, Option.bind_eq_bind, Option.bind_some] at hstep
    by_cases hready : (s.cout k).ready = true ∧ (s.cin i).ready = true
    · -- a sender that is ready has filled its buffer
      obtain ⟨-, hbuffer, -⟩ := (hinv.sender k).of_ready hready.1
      simp [receiveMatch, hready, hbuffer] at hstep
    · rw [← Bool.and_eq_true] at hready
      simp [receiveMatch, hready] at hstep
  | postConns | postReceived => simp [stepReceive, hpc] at hstep
  | copy =>
    simp only [ReceiverOk, hpc] at hok
    obtain ⟨-, -, a, -, hbuffer, -⟩ := hok
    simp [stepReceive, hpc, hbuffer] at hstep
  | waitBlocked =>
    simp only [ReceiverOk, hpc] at hok
    refine .inr (.inr ⟨rfl, ?_⟩)
    rcases hok with ⟨hready, -, hnone⟩ | ⟨-, hone, -⟩
    · exact ⟨hready, hnone⟩
    · simp [stepReceive, hpc, hone] at hstep

/-- The places where a thread in `channel_send` can rest. -/
theorem sender_of_quiescent [Fintype O] (hinv : Inv conn s) (h : Underway conn s)
    (htokens : Tokens s) (hq : Quiescent s) (o : O) : (s.sender o).pc = .idle ∨
      (s.sender o).pc = .waitConns ∧ (∀ i, ¬ conn i o) ∨
      (s.sender o).pc = .waitBlocked ∧ (s.cout o).ready = true ∧
        ∀ b, (s.sendCall o, b) ∉ s.matched := by
  have hstep := hq.1 o
  have hok := hinv.sender o
  obtain ⟨hsem, hscan⟩ := h.sender o
  cases hpc : (s.sender o).pc with
  | idle => exact .inl rfl
  | waitConns =>
    refine .inr (.inl ⟨rfl, fun i hc => ?_⟩)
    have hfree : (s.cout o).connsSem = true := by
      simpa [hpc, SendPc.HoldsConns] using hsem ⟨i, hc⟩
    simp [stepSend, hpc, hfree] at hstep
  | setReady =>
    obtain ⟨ks, hround, -⟩ := hinv.outList o
    simp [stepSend, hpc, hround.getListLength_eq] at hstep
  | scan j length =>
    simp only [stepSend, hpc] at hstep
    split_ifs at hstep with hlt
    obtain ⟨k, l', hget⟩ := (hinv.outList o).exists_next (hscan j length hpc) hlt
    simp only [hget, Option.bind_eq_bind, Option.bind_some] at hstep
    by_cases hready : ((s.cin k).ready && (s.cout o).ready) = true
    · simp [sendMatch, hready] at hstep
    · simp [sendMatch, hready] at hstep
  | waitReceived i =>
    have hzero : (s.cin i).actuallyReceived = 0 := by
      simpa [stepSend, hpc] using hstep
    have hcard : 0 < (s.waiting i).card := Finset.card_pos.2 ⟨o, mem_waiting.2 hpc⟩
    -- so a receive is pending, but no receive that rests is
    have hpend : ¬ Pending (s.cin i) (s.receiver i) := by
      rcases receiver_of_quiescent hinv h hq i with hr | ⟨hr, -⟩ | ⟨hr, hready, -⟩
      · simp [Pending, hr]
      · simp [Pending, hr]
      · simp [Pending, hr, hready]
    have hcount := htokens i
    rw [if_neg hpend, hzero] at hcount
    omega
  | postConns => simp [stepSend, hpc] at hstep
  | waitBlocked =>
    simp only [SenderOk, hpc] at hok
    refine .inr (.inr ⟨rfl, ?_⟩)
    rcases hok with ⟨hready, -, -, hnone⟩ | ⟨-, hone, -⟩
    · exact ⟨hready, hnone⟩
    · simp [stepSend, hpc, hone] at hstep

/-- What is left at rest: calls that were matched have returned on both sides, a call that is still
under way is blocked behind its scan or has no connections, and of two connected channels one has
no call under way. -/
structure Finished (conn : I → O → Prop) (s : Channels I O Ptr) : Prop where
  sent : ∀ p ∈ s.matched, p.1 ∈ s.sent
  received : ∀ p ∈ s.matched, p.2 ∈ s.received
  sender : ∀ o, (s.sender o).pc = .idle ∨ (s.sender o).pc = .waitBlocked ∨
    (s.sender o).pc = .waitConns ∧ ∀ i, ¬ conn i o
  receiver : ∀ i, (s.receiver i).pc = .idle ∨ (s.receiver i).pc = .waitBlocked ∨
    (s.receiver i).pc = .waitConns ∧ ∀ o, ¬ conn i o
  oneSided : ∀ i o, conn i o → (s.sender o).pc = .idle ∨ (s.receiver i).pc = .idle

/-- The invariants of a run together. -/
structure Live [Fintype O] (conn : I → O → Prop) (s : Channels I O Ptr) : Prop where
  inv : Inv conn s
  covered : Covered conn s
  underway : Underway conn s
  tokens : Tokens s

theorem Live.step [Fintype O] {e : Event I O Ptr} (h : Live conn s) (hstep : s.step e = some s') :
    Live conn s' where
  inv := h.inv.step hstep
  covered := h.covered.step h.inv hstep
  underway := h.underway.step h.inv hstep
  tokens := h.tokens.step h.inv hstep

theorem Live.finished [Fintype O] (h : Live conn s) (hq : Quiescent s) : Finished conn s := by
  have hsender := sender_of_quiescent h.inv h.underway h.tokens hq
  have hreceiver := receiver_of_quiescent h.inv h.underway hq
  refine ⟨fun p hp => ?_, fun p hp => ?_, fun o => ?_, fun i => ?_, fun i o hc => ?_⟩
  · rcases h.underway.sends p hp with hin | ⟨heq, hne⟩
    · exact hin
    · rcases hsender p.1.channel with hpc | ⟨-, hnone⟩ | ⟨-, -, hnone⟩
      · exact absurd hpc hne
      · exact absurd (h.inv.record.connected p hp) (hnone _)
      · rw [← heq] at hnone
        exact absurd hp (hnone p.2)
  · rcases h.underway.receives p hp with hin | ⟨heq, hne⟩
    · exact hin
    · rcases hreceiver p.2.channel with hpc | ⟨-, hnone⟩ | ⟨-, -, hnone⟩
      · exact absurd hpc hne
      · exact absurd (h.inv.record.connected p hp) (hnone _)
      · rw [← heq] at hnone
        exact absurd hp (hnone p.1)
  · rcases hsender o with hpc | hpc | ⟨hpc, -⟩
    · exact .inl hpc
    · exact .inr (.inr hpc)
    · exact .inr (.inl hpc)
  · rcases hreceiver i with hpc | hpc | ⟨hpc, -⟩
    · exact .inl hpc
    · exact .inr (.inr hpc)
    · exact .inr (.inl hpc)
  · rcases hsender o with hpc | ⟨-, hnone⟩ | ⟨hopc, hout, -⟩
    · exact .inl hpc
    · exact absurd hc (hnone i)
    · rcases hreceiver i with hpc | ⟨-, hnone⟩ | ⟨hipc, hin, -⟩
      · exact .inr hpc
      · exact absurd hc (hnone o)
      -- both have blocked behind their scans: that rendezvous would be missed
      · exact absurd ⟨i, o, hc, hin, hout, hipc, hopc⟩ h.covered.not_missed

omit [DecidableEq O] in
theorem bound_live [Fintype O] {inConnections : I → List O} {outConnections : O → List I}
    {data : Ptr} (hin : ∀ i o, o ∈ inConnections i ↔ conn i o)
    (hout : ∀ i o, i ∈ outConnections o ↔ conn i o) :
    Live conn (bound inConnections outConnections data) := by
  have hinit : Initial conn (bound inConnections outConnections data) :=
    bound_initial (fun i o => (hin i o).1) fun o i => (hout i o).1
  have hall : Complete conn (bound inConnections outConnections data) :=
    bound_complete (fun i o => (hin i o).2) fun i o => (hout i o).2
  refine ⟨hinit.inv, ⟨hall.outConnections, hall.inConnections, fun i o _ hready _ => ?_⟩,
    bound_underway (fun i o => (hin i o).2) fun i o => (hout i o).2, fun i => ?_⟩
  · exact absurd ((hinit.cin i).1.symm.trans hready) (by decide)
  · exact hinit.ackInv.settled.tokens i

/-- **Whatever has happened on channels that were bound to each other, the threads go on for a
bounded number of steps; some order of them comes to rest, and whatever order does leaves no call
half done and no send and receive of connected channels both under way.** -/
theorem progress_run [Fintype I] [Fintype O] {inConnections : I → List O}
    {outConnections : O → List I} {data : Ptr} (hin : ∀ i o, o ∈ inConnections i ↔ conn i o)
    (hout : ∀ i o, i ∈ outConnections o ↔ conn i o) {t : Channels I O Ptr}
    {events : List (Event I O Ptr)}
    (hrun : run Channels.step (bound inConnections outConnections data) events = some t) :
    (∀ steps u, (∀ e ∈ steps, Event.IsStep e) → run Channels.step t steps = some u →
      steps.length ≤ t.effort ∧ (Quiescent u → Finished conn u)) ∧
    ∃ steps u, (∀ e ∈ steps, Event.IsStep e) ∧ run Channels.step t steps = some u ∧
      Quiescent u := by
  have hkeep : ∀ (s : Channels I O Ptr) e s', Live conn s → s.step e = some s' → Live conn s' :=
    fun _ _ _ h hstep => h.step hstep
  have hlower : ∀ (s : Channels I O Ptr) e s', Live conn s → Event.IsStep e →
      s.step e = some s' → s'.effort < s.effort := fun _ _ _ _ he hstep => effort_lt_of_step he hstep
  have hlive : Live conn t := run_keeps _ hkeep (bound_live hin hout) hrun
  refine ⟨fun steps u hsteps hu => ⟨?_, fun hq => ?_⟩, ?_⟩
  · exact length_le_of_lowers (Live conn) effort hkeep hlower hlive hsteps hu
  · exact (run_keeps _ hkeep hlive hu).finished hq
  · obtain ⟨steps, u, hsteps, hu, hrest⟩ :=
      exists_run_to_rest (Live conn) effort hkeep hlower hlive
    exact ⟨steps, u, hsteps, hu, fun o => hrest (.stepSend o) trivial,
      fun i => hrest (.stepReceive i) trivial⟩

/-- Two senders of one receiver with one receive: it comes to rest in a bounded number of steps. -/
theorem progress_run_two : ∃ t, run Channels.step twoSenders
      [.receive () 100, .send true 7, .send false 8] = some t ∧
    (∀ steps u, (∀ e ∈ steps, Event.IsStep e) → run Channels.step t steps = some u →
      steps.length ≤ t.effort ∧ (Quiescent u → Finished (fun _ _ => True) u)) ∧
    ∃ steps u, (∀ e ∈ steps, Event.IsStep e) ∧ run Channels.step t steps = some u ∧
      Quiescent u := by
  have hrun : (run Channels.step twoSenders
      [.receive () 100, .send true 7, .send false 8]).isSome := by decide
  obtain ⟨t, ht⟩ := Option.isSome_iff_exists.1 hrun
  refine ⟨t, ht, progress_run (fun _ o => ?_) (fun i _ => ?_) ht⟩
  · cases o <;> simp
  · simp

end Channels

end InsenseCVM
