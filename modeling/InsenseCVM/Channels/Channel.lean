import InsenseCVM.Collections.Cursor
import InsenseCVM.Lib.Transition

/-!
# Channels

`Channels/channel.c`: threads in `channel_send` and `channel_receive` over a fixed set of
channels. `channel_bind` connects channels of different direction only, so the incoming channels
and the outgoing ones have types of their own, `I` and `O`, and a channel of one lists channels of
the other. Each channel is used by one thread at a time, so a thread is known by its channel.

One event is one lock-protected section or one operation on a semaphore; what a thread does
between two of them touches its own data only. The semaphores are ideal: a post adds a token, a
wait takes one. A buffer holds a pointer of type `Ptr`.

Calls are numbered, and the state keeps a record that the code does not have: which send was
matched with which receive, which pointer each receive copied from, and which calls returned.
-/

namespace InsenseCVM

/-- The fields of `struct Channel` that sending and receiving use. -/
structure Channel (κ Ptr : Type) where
  buffer : Option Ptr
  ready : Bool
  ndReceived : Bool
  connections : IteratedList κ
  connsSem : Bool
  blocked : ℕ
  actuallyReceived : ℕ

/-- A call of `channel_send` or `channel_receive`: its channel, its number on that channel, and
its argument `data`. -/
structure Call (κ Ptr : Type) where
  channel : κ
  number : ℕ
  data : Ptr
  deriving DecidableEq

/-- Where a thread is in `channel_send`. -/
inductive SendPc (I : Type)
  | idle
  | waitConns
  | setReady
  | scan (i length : ℕ)
  | waitReceived (receiver : I)
  | postConns
  | waitBlocked
  deriving DecidableEq

/-- Where a thread is in `channel_receive`. -/
inductive ReceivePc
  | idle
  | waitConns
  | setReady
  | scan (i length : ℕ)
  | postConns
  | waitBlocked
  | copy
  | postReceived
  deriving DecidableEq

/-- A thread, with the number and the argument of its current or last call. -/
structure Thread (Pc Ptr : Type) where
  pc : Pc
  number : ℕ
  data : Ptr

/-- Channels, threads, and the record of the calls. -/
structure Channels (I O Ptr : Type) where
  cin : I → Channel O Ptr
  cout : O → Channel I Ptr
  receiver : I → Thread ReceivePc Ptr
  sender : O → Thread (SendPc I) Ptr
  matched : List (Call O Ptr × Call I Ptr)
  copied : List (Call I Ptr × Ptr)
  sent : List (Call O Ptr)
  received : List (Call I Ptr)

namespace Channels

variable {I O Ptr : Type}

/-- The current or last call of `channel_send` on a channel. -/
def sendCall (s : Channels I O Ptr) (o : O) : Call O Ptr :=
  ⟨o, (s.sender o).number, (s.sender o).data⟩

/-- The current or last call of `channel_receive` on a channel. -/
def receiveCall (s : Channels I O Ptr) (i : I) : Call I Ptr :=
  ⟨i, (s.receiver i).number, (s.receiver i).data⟩

/-- The section of `channel_send` under both locks: the channels after a match. -/
def sendMatch (cout : Channel I Ptr) (receiver : Channel O Ptr) :
    Option (Channel I Ptr × Channel O Ptr) :=
  if receiver.ready && cout.ready then
    some ({ cout with ready := false, ndReceived := true },
      { receiver with buffer := cout.buffer, ready := false, blocked := receiver.blocked + 1 })
  else none

/-- The section of `channel_receive` under both locks: the channels after a match. -/
def receiveMatch (cin : Channel O Ptr) (sender : Channel I Ptr) :
    Option (Channel O Ptr × Channel I Ptr) :=
  if sender.ready && cin.ready then
    some ({ cin with buffer := sender.buffer, ready := false },
      { sender with ready := false, blocked := sender.blocked + 1 })
  else none

variable [DecidableEq I] [DecidableEq O]

/-- Write a channel of outgoing direction and move its thread. -/
def setSender (s : Channels I O Ptr) (o : O) (cout : Channel I Ptr) (pc : SendPc I) :
    Channels I O Ptr :=
  { s with
    cout := Function.update s.cout o cout
    sender := Function.update s.sender o { s.sender o with pc := pc } }

/-- Write a channel of incoming direction and move its thread. -/
def setReceiver (s : Channels I O Ptr) (i : I) (cin : Channel O Ptr) (pc : ReceivePc) :
    Channels I O Ptr :=
  { s with
    cin := Function.update s.cin i cin
    receiver := Function.update s.receiver i { s.receiver i with pc := pc } }

/-- One step of the thread in `channel_send` on `o`. -/
def stepSend (s : Channels I O Ptr) (o : O) : Option (Channels I O Ptr) :=
  let cout := s.cout o
  match (s.sender o).pc with
  | .idle => none
  | .waitConns =>
    if cout.connsSem then some (s.setSender o { cout with connsSem := false } .setReady)
    else none
  | .setReady => do
    let length ← cout.connections.getListLength
    let cout := { cout with buffer := some (s.sender o).data, ready := true }
    return s.setSender o cout (.scan 0 length)
  | .scan i length =>
    if i < length then do
      let (element, connections) ← cout.connections.getNextElement
      let receiver ← element
      let cout := { cout with connections := connections }
      match sendMatch cout (s.cin receiver) with
      | some (cout, cin) =>
        return { s.setSender o cout (.waitReceived receiver) with
          cin := Function.update s.cin receiver cin
          matched := s.matched ++ [(s.sendCall o, s.receiveCall receiver)] }
      | none => return s.setSender o cout (.scan (i + 1) length)
    else some (s.setSender o { cout with connsSem := true } .waitBlocked)
  | .waitReceived receiver =>
    let cin := s.cin receiver
    if 0 < cin.actuallyReceived then
      some { s.setSender o cout .postConns with
        cin := Function.update s.cin receiver
          { cin with actuallyReceived := cin.actuallyReceived - 1 } }
    else none
  | .postConns =>
    some { s.setSender o { cout with connsSem := true } .idle with
      sent := s.sent ++ [s.sendCall o] }
  | .waitBlocked =>
    if 0 < cout.blocked then
      some { s.setSender o { cout with blocked := cout.blocked - 1 } .idle with
        sent := s.sent ++ [s.sendCall o] }
    else none

/-- One step of the thread in `channel_receive` on `i`. -/
def stepReceive (s : Channels I O Ptr) (i : I) : Option (Channels I O Ptr) :=
  let cin := s.cin i
  match (s.receiver i).pc with
  | .idle => none
  | .waitConns =>
    if cin.connsSem then some (s.setReceiver i { cin with connsSem := false } .setReady)
    else none
  | .setReady => do
    let length ← cin.connections.getListLength
    return s.setReceiver i { cin with ready := true } (.scan 0 length)
  | .scan j length =>
    if j < length then do
      let (element, connections) ← cin.connections.getNextElement
      let sender ← element
      let cin := { cin with connections := connections }
      match receiveMatch cin (s.cout sender) with
      | some (cin, cout) =>
        let data ← cin.buffer
        return { s.setReceiver i cin .postConns with
          cout := Function.update s.cout sender cout
          matched := s.matched ++ [(s.sendCall sender, s.receiveCall i)]
          copied := s.copied ++ [(s.receiveCall i, data)] }
      | none => return s.setReceiver i cin (.scan (j + 1) length)
    else some (s.setReceiver i { cin with connsSem := true } .waitBlocked)
  | .postConns =>
    some { s.setReceiver i { cin with connsSem := true } .idle with
      received := s.received ++ [s.receiveCall i] }
  | .waitBlocked =>
    if 0 < cin.blocked then
      some (s.setReceiver i { cin with blocked := cin.blocked - 1 } .copy)
    else none
  | .copy => do
    let data ← cin.buffer
    return { s.setReceiver i cin .postReceived with
      copied := s.copied ++ [(s.receiveCall i, data)] }
  | .postReceived =>
    some { s.setReceiver i { cin with actuallyReceived := cin.actuallyReceived + 1 } .idle with
      received := s.received ++ [s.receiveCall i] }

/-- A thread calls `channel_send` or `channel_receive`, or takes one step in it. -/
inductive Event (I O Ptr : Type)
  | send (o : O) (data : Ptr)
  | receive (i : I) (data : Ptr)
  | stepSend (o : O)
  | stepReceive (i : I)

/-- One event. -/
def step (s : Channels I O Ptr) : Event I O Ptr → Option (Channels I O Ptr)
  | .send o data =>
    if (s.sender o).pc = .idle then
      some { s with
        sender := Function.update s.sender o ⟨.waitConns, (s.sender o).number + 1, data⟩ }
    else none
  | .receive i data =>
    if (s.receiver i).pc = .idle then
      some { s with
        receiver := Function.update s.receiver i ⟨.waitConns, (s.receiver i).number + 1, data⟩ }
    else none
  | .stepSend o => s.stepSend o
  | .stepReceive i => s.stepReceive i

/-! ### What a step can do -/

/-- The steps of a thread in `channel_send`. -/
inductive SendStep (s : Channels I O Ptr) (o : O) : Channels I O Ptr → Prop
  | waitConns (hpc : (s.sender o).pc = .waitConns) (hsem : (s.cout o).connsSem = true) :
      SendStep s o (s.setSender o { s.cout o with connsSem := false } .setReady)
  | setReady (length : ℕ) (hpc : (s.sender o).pc = .setReady) :
      SendStep s o (s.setSender o
        { s.cout o with buffer := some (s.sender o).data, ready := true } (.scan 0 length))
  | taken (i length : ℕ) (receiver : I) (connections : IteratedList I)
      (hpc : (s.sender o).pc = .scan i length)
      (hget : (s.cout o).connections.getNextElement = some (some receiver, connections))
      (hcin : (s.cin receiver).ready = true) (hcout : (s.cout o).ready = true) :
      SendStep s o
        { s.setSender o { s.cout o with
            connections := connections, ready := false, ndReceived := true }
            (.waitReceived receiver) with
          cin := Function.update s.cin receiver { s.cin receiver with
            buffer := (s.cout o).buffer, ready := false
            blocked := (s.cin receiver).blocked + 1 }
          matched := s.matched ++ [(s.sendCall o, s.receiveCall receiver)] }
  | passed (i length : ℕ) (receiver : I) (connections : IteratedList I)
      (hpc : (s.sender o).pc = .scan i length)
      (hget : (s.cout o).connections.getNextElement = some (some receiver, connections)) :
      SendStep s o (s.setSender o { s.cout o with connections := connections }
        (.scan (i + 1) length))
  | scanned (i length : ℕ) (hpc : (s.sender o).pc = .scan i length) :
      SendStep s o (s.setSender o { s.cout o with connsSem := true } .waitBlocked)
  | acknowledged (receiver : I) (hpc : (s.sender o).pc = .waitReceived receiver)
      (htoken : 0 < (s.cin receiver).actuallyReceived) :
      SendStep s o { s.setSender o (s.cout o) .postConns with
        cin := Function.update s.cin receiver { s.cin receiver with
          actuallyReceived := (s.cin receiver).actuallyReceived - 1 } }
  | returned (hpc : (s.sender o).pc = .postConns) :
      SendStep s o { s.setSender o { s.cout o with connsSem := true } .idle with
        sent := s.sent ++ [s.sendCall o] }
  | woken (hpc : (s.sender o).pc = .waitBlocked) (htoken : 0 < (s.cout o).blocked) :
      SendStep s o { s.setSender o { s.cout o with blocked := (s.cout o).blocked - 1 } .idle with
        sent := s.sent ++ [s.sendCall o] }

/-- The steps of a thread in `channel_receive`. -/
inductive ReceiveStep (s : Channels I O Ptr) (i : I) : Channels I O Ptr → Prop
  | waitConns (hpc : (s.receiver i).pc = .waitConns) (hsem : (s.cin i).connsSem = true) :
      ReceiveStep s i (s.setReceiver i { s.cin i with connsSem := false } .setReady)
  | setReady (length : ℕ) (hpc : (s.receiver i).pc = .setReady) :
      ReceiveStep s i (s.setReceiver i { s.cin i with ready := true } (.scan 0 length))
  | taken (j length : ℕ) (sender : O) (connections : IteratedList O) (data : Ptr)
      (hpc : (s.receiver i).pc = .scan j length)
      (hget : (s.cin i).connections.getNextElement = some (some sender, connections))
      (hcout : (s.cout sender).ready = true) (hcin : (s.cin i).ready = true)
      (hdata : (s.cout sender).buffer = some data) :
      ReceiveStep s i
        { s.setReceiver i { s.cin i with
            connections := connections, buffer := (s.cout sender).buffer, ready := false }
            .postConns with
          cout := Function.update s.cout sender { s.cout sender with
            ready := false, blocked := (s.cout sender).blocked + 1 }
          matched := s.matched ++ [(s.sendCall sender, s.receiveCall i)]
          copied := s.copied ++ [(s.receiveCall i, data)] }
  | passed (j length : ℕ) (sender : O) (connections : IteratedList O)
      (hpc : (s.receiver i).pc = .scan j length)
      (hget : (s.cin i).connections.getNextElement = some (some sender, connections)) :
      ReceiveStep s i (s.setReceiver i { s.cin i with connections := connections }
        (.scan (j + 1) length))
  | scanned (j length : ℕ) (hpc : (s.receiver i).pc = .scan j length) :
      ReceiveStep s i (s.setReceiver i { s.cin i with connsSem := true } .waitBlocked)
  | returned (hpc : (s.receiver i).pc = .postConns) :
      ReceiveStep s i { s.setReceiver i { s.cin i with connsSem := true } .idle with
        received := s.received ++ [s.receiveCall i] }
  | woken (hpc : (s.receiver i).pc = .waitBlocked) (htoken : 0 < (s.cin i).blocked) :
      ReceiveStep s i (s.setReceiver i { s.cin i with blocked := (s.cin i).blocked - 1 } .copy)
  | copied (data : Ptr) (hpc : (s.receiver i).pc = .copy) (hdata : (s.cin i).buffer = some data) :
      ReceiveStep s i { s.setReceiver i (s.cin i) .postReceived with
        copied := s.copied ++ [(s.receiveCall i, data)] }
  | posted (hpc : (s.receiver i).pc = .postReceived) :
      ReceiveStep s i { s.setReceiver i { s.cin i with
          actuallyReceived := (s.cin i).actuallyReceived + 1 } .idle with
        received := s.received ++ [s.receiveCall i] }

/-- A call of `channel_send` that is made: none was under way on the channel. -/
theorem called_of_send {s s' : Channels I O Ptr} {o : O} {data : Ptr}
    (h : s.step (.send o data) = some s') : (s.sender o).pc = .idle ∧
      s' = { s with
        sender := Function.update s.sender o ⟨.waitConns, (s.sender o).number + 1, data⟩ } := by
  simp only [step] at h
  split_ifs at h with hpc
  exact ⟨hpc, (Option.some.inj h).symm⟩

/-- A call of `channel_receive` that is made. -/
theorem called_of_receive {s s' : Channels I O Ptr} {i : I} {data : Ptr}
    (h : s.step (.receive i data) = some s') : (s.receiver i).pc = .idle ∧
      s' = { s with
        receiver := Function.update s.receiver i
          ⟨.waitConns, (s.receiver i).number + 1, data⟩ } := by
  simp only [step] at h
  split_ifs at h with hpc
  exact ⟨hpc, (Option.some.inj h).symm⟩

theorem sendStep_of_stepSend {s s' : Channels I O Ptr} {o : O} (h : s.stepSend o = some s') :
    SendStep s o s' := by
  unfold stepSend at h
  cases hpc : (s.sender o).pc with
  | idle => simp [hpc] at h
  | waitConns =>
    simp only [hpc] at h
    split_ifs at h with hsem
    cases h
    exact .waitConns hpc hsem
  | setReady =>
    simp only [hpc, Option.bind_eq_bind, Option.bind_eq_some_iff] at h
    obtain ⟨length, -, h⟩ := h
    cases h
    exact .setReady length hpc
  | scan i length =>
    simp only [hpc] at h
    split_ifs at h with hlt
    · simp only [Option.bind_eq_bind, Option.bind_eq_some_iff] at h
      obtain ⟨⟨element, connections⟩, hget, receiver, rfl, h⟩ := h
      by_cases hready : (s.cin receiver).ready = true ∧ (s.cout o).ready = true
      · simp only [sendMatch, hready.1, hready.2, Bool.and_self, if_true] at h
        cases h
        exact .taken i length receiver connections hpc hget hready.1 hready.2
      · rw [← Bool.and_eq_true] at hready
        simp only [sendMatch, hready] at h
        cases h
        exact .passed i length receiver connections hpc hget
    · cases h
      exact .scanned i length hpc
  | waitReceived receiver =>
    simp only [hpc] at h
    split_ifs at h with htoken
    cases h
    exact .acknowledged receiver hpc htoken
  | postConns =>
    simp only [hpc] at h
    cases h
    exact .returned hpc
  | waitBlocked =>
    simp only [hpc] at h
    split_ifs at h with htoken
    cases h
    exact .woken hpc htoken

theorem receiveStep_of_stepReceive {s s' : Channels I O Ptr} {i : I}
    (h : s.stepReceive i = some s') : ReceiveStep s i s' := by
  unfold stepReceive at h
  cases hpc : (s.receiver i).pc with
  | idle => simp [hpc] at h
  | waitConns =>
    simp only [hpc] at h
    split_ifs at h with hsem
    cases h
    exact .waitConns hpc hsem
  | setReady =>
    simp only [hpc, Option.bind_eq_bind, Option.bind_eq_some_iff] at h
    obtain ⟨length, -, h⟩ := h
    cases h
    exact .setReady length hpc
  | scan j length =>
    simp only [hpc] at h
    split_ifs at h with hlt
    · simp only [Option.bind_eq_bind, Option.bind_eq_some_iff] at h
      obtain ⟨⟨element, connections⟩, hget, sender, rfl, h⟩ := h
      by_cases hready : (s.cout sender).ready = true ∧ (s.cin i).ready = true
      · simp only [receiveMatch, hready.1, hready.2, Bool.and_self, if_true,
          Option.bind_eq_some_iff] at h
        obtain ⟨data, hdata, h⟩ := h
        cases h
        exact .taken j length sender connections data hpc hget hready.1 hready.2 hdata
      · rw [← Bool.and_eq_true] at hready
        simp only [receiveMatch, hready] at h
        cases h
        exact .passed j length sender connections hpc hget
    · cases h
      exact .scanned j length hpc
  | postConns =>
    simp only [hpc] at h
    cases h
    exact .returned hpc
  | waitBlocked =>
    simp only [hpc] at h
    split_ifs at h with htoken
    cases h
    exact .woken hpc htoken
  | copy =>
    simp only [hpc, Option.bind_eq_bind, Option.bind_eq_some_iff] at h
    obtain ⟨data, hdata, h⟩ := h
    cases h
    exact .copied data hpc hdata
  | postReceived =>
    simp only [hpc] at h
    cases h
    exact .posted hpc

/-- No call is under way or was ever made, and no token is left on a semaphore but `conns_sem`;
the lists hold the connected channels of the other direction. -/
structure Initial (conn : I → O → Prop) (s : Channels I O Ptr) : Prop where
  sender : ∀ o, (s.sender o).pc = .idle
  receiver : ∀ i, (s.receiver i).pc = .idle
  cout : ∀ o, (s.cout o).ready = false ∧ (s.cout o).blocked = 0
  cin : ∀ i, (s.cin i).ready = false ∧ (s.cin i).blocked = 0 ∧ (s.cin i).actuallyReceived = 0
  outConnections : ∀ o, ∃ is, (s.cout o).connections.Round is ∧ ∀ i ∈ is, conn i o
  inConnections : ∀ i, ∃ os, (s.cin i).connections.Round os ∧ ∀ o ∈ os, conn i o
  matched : s.matched = []
  copied : s.copied = []
  sent : s.sent = []
  received : s.received = []

/-- A channel that `channel_create` made and `channel_bind` connected to `ks`. -/
def boundTo {κ : Type} (ks : List κ) : Channel κ Ptr where
  buffer := none
  ready := false
  ndReceived := false
  connections := ks.foldl (fun l k => l.insertElement (some k)) IteratedList.constructList
  connsSem := !ks.isEmpty
  blocked := 0
  actuallyReceived := 0

/-- Channels before the first call, each bound to the listed ones. -/
def bound (inConnections : I → List O) (outConnections : O → List I) (data : Ptr) :
    Channels I O Ptr where
  cin := fun i => boundTo (inConnections i)
  cout := fun o => boundTo (outConnections o)
  receiver := fun _ => ⟨.idle, 0, data⟩
  sender := fun _ => ⟨.idle, 0, data⟩
  matched := []
  copied := []
  sent := []
  received := []

theorem foldl_insertElement_round {κ : Type} {l : IteratedList κ} {xs : List κ} (ks : List κ)
    (h : l.Round xs) : ∃ ys, (ks.foldl (fun l k => l.insertElement (some k)) l).Round ys ∧
      ∀ y ∈ ys, y ∈ xs ∨ y ∈ ks := by
  induction ks generalizing l xs with
  | nil => exact ⟨xs, h, fun y hy => Or.inl hy⟩
  | cons k ks ih =>
    obtain ⟨zs, hperm, hround⟩ := h.insertElement k
    obtain ⟨ys, hys, hmem⟩ := ih hround
    refine ⟨ys, hys, fun y hy => ?_⟩
    rcases hmem y hy with hz | hk
    · rcases List.mem_cons.1 (hperm.mem_iff.1 hz) with rfl | hx
      · exact Or.inr (by simp)
      · exact Or.inl hx
    · exact Or.inr (List.mem_cons_of_mem _ hk)

theorem boundTo_round {κ : Type} (ks : List κ) :
    ∃ ys, (boundTo ks : Channel κ Ptr).connections.Round ys ∧ ∀ y ∈ ys, y ∈ ks := by
  obtain ⟨ys, hys, hmem⟩ := foldl_insertElement_round ks IteratedList.constructList_round
  exact ⟨ys, hys, fun y hy => (hmem y hy).resolve_left (List.not_mem_nil)⟩

omit [DecidableEq I] [DecidableEq O] in
theorem bound_initial {conn : I → O → Prop} {inConnections : I → List O}
    {outConnections : O → List I} {data : Ptr} (hin : ∀ i, ∀ o ∈ inConnections i, conn i o)
    (hout : ∀ o, ∀ i ∈ outConnections o, conn i o) :
    Initial conn (bound inConnections outConnections data) where
  sender := fun _ => rfl
  receiver := fun _ => rfl
  cout := fun _ => ⟨rfl, rfl⟩
  cin := fun _ => ⟨rfl, rfl, rfl⟩
  outConnections := fun o => by
    obtain ⟨ys, hys, hmem⟩ := @boundTo_round Ptr I (outConnections o)
    exact ⟨ys, hys, fun y hy => hout o y (hmem y hy)⟩
  inConnections := fun i => by
    obtain ⟨ys, hys, hmem⟩ := @boundTo_round Ptr O (inConnections i)
    exact ⟨ys, hys, fun y hy => hin i y (hmem y hy)⟩
  matched := rfl
  copied := rfl
  sent := rfl
  received := rfl

end Channels

end InsenseCVM
