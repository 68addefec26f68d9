import InsenseCVM.Channels.Channel

/-!
# Binding and unbinding

`Channels/channel.c` with `channel_bind` and `channel_unbind`: any number of threads in the four
operations on any channels. Binding and unbinding hold `conn_op_mutex` from their first step to
their last one. `channel_unbind` takes `conns_sem` of both channels before it edits their lists;
`channel_bind` only posts them.

One event is one operation on a mutex or a semaphore, or one edit of a list. A section of
`channel_send` or `channel_receive` under the mutexes of channels is one event, which can happen
when the mutexes are free. `direction` and `typesize` are what a channel was created with: no
function writes these fields later.
-/

namespace InsenseCVM

/-- `chan_dir` -/
inductive ChanDir
  | chanIn
  | chanOut
  deriving DecidableEq

/-- What `channel_create` is called with for each channel. -/
structure Ports (C : Type) where
  direction : C → ChanDir
  typesize : C → ℕ

namespace Ports

variable {C : Type}

/-- The one of two channels whose locks are taken first. -/
def first (p : Ports C) (id1 id2 : C) : C := if p.direction id1 = .chanIn then id1 else id2

/-- The one of two channels whose locks are taken second. -/
def second (p : Ports C) (id1 id2 : C) : C := if p.direction id1 = .chanIn then id2 else id1

end Ports

/-- `struct Channel` with its mutex, and the thread that holds it. -/
structure Endpoint (C T Ptr : Type) extends Channel C Ptr where
  mutex : Option T

/-- `channel_create`, with `initialise_sems_and_mutexes`. -/
def channelCreate {C T Ptr : Type} : Endpoint C T Ptr where
  buffer := none
  ready := false
  ndReceived := false
  connections := .constructList
  connsSem := false
  blocked := 0
  actuallyReceived := 0
  mutex := none

/-- Where a thread is in `channel_bind`. -/
inductive BindStage
  | lockOp
  | lockFirst
  | lockSecond
  | insertFirst
  | insertSecond
  | postFirst
  | postSecond
  | unlock
  deriving DecidableEq

/-- Where a thread is in the body of the loop of `channel_unbind`. -/
inductive UnbindStage
  | waitFirst
  | waitSecond
  | lockFirst
  | lockSecond
  | removeFirst
  | removeSecond
  | unlock
  | postFirst
  | postSecond
  deriving DecidableEq

/-- What a thread is doing. -/
inductive Activity (C Ptr : Type)
  | idle
  | bind (stage : BindStage) (id1 id2 : C)
  | unbindLock (id : C)
  | unbindLoop (id : C) (i length : ℕ)
  | unbind (stage : UnbindStage) (id opposite : C) (i : ℕ)
  | send (pc : SendPc C) (cout : C) (data : Ptr)
  | receive (pc : ReceivePc) (cin : C)
  deriving DecidableEq

/-- The channels, `conn_op_mutex`, the threads, and what the last `channel_bind` of each of them
returned. -/
structure Network (C T Ptr : Type) where
  channel : C → Endpoint C T Ptr
  connOpMutex : Option T
  thread : T → Activity C Ptr
  bound : T → Option Bool

/-- A thread calls one of the operations, or takes the next step in it. -/
inductive NetworkEvent (C T Ptr : Type)
  | bind (t : T) (id1 id2 : C)
  | unbind (t : T) (id : C)
  | send (t : T) (cout : C) (data : Ptr)
  | receive (t : T) (cin : C)
  | step (t : T)

namespace Network

variable {C T Ptr : Type} [DecidableEq C] [DecidableEq T]

def modify (s : Network C T Ptr) (c : C) (f : Endpoint C T Ptr → Endpoint C T Ptr) :
    Network C T Ptr :=
  { s with channel := Function.update s.channel c (f (s.channel c)) }

omit [DecidableEq T] in
@[simp] theorem modify_channel_self (s : Network C T Ptr) (c : C)
    (f : Endpoint C T Ptr → Endpoint C T Ptr) : (s.modify c f).channel c = f (s.channel c) :=
  Function.update_self ..

omit [DecidableEq T] in
theorem modify_channel_of_ne (s : Network C T Ptr) {c d : C}
    (f : Endpoint C T Ptr → Endpoint C T Ptr) (h : d ≠ c) :
    (s.modify c f).channel d = s.channel d :=
  Function.update_of_ne h ..

def go (s : Network C T Ptr) (t : T) (activity : Activity C Ptr) : Network C T Ptr :=
  { s with thread := Function.update s.thread t activity }

omit [DecidableEq C] in
@[simp] theorem go_channel (s : Network C T Ptr) (t : T) (activity : Activity C Ptr) :
    (s.go t activity).channel = s.channel := rfl

/-- `channel_bind` returns. -/
def returns (s : Network C T Ptr) (t : T) (result : Bool) : Network C T Ptr :=
  { s.go t .idle with bound := Function.update s.bound t (some result) }

def lock (s : Network C T Ptr) (t : T) (c : C) (activity : Activity C Ptr) :
    Option (Network C T Ptr) :=
  if (s.channel c).mutex.isNone then
    some ((s.modify c fun ch => { ch with mutex := some t }).go t activity)
  else none

def unlock (s : Network C T Ptr) (c : C) : Network C T Ptr :=
  s.modify c fun ch => { ch with mutex := none }

/-- `binary_sem_wait(&(c->conns_sem))` -/
def waitConns (s : Network C T Ptr) (t : T) (c : C) (activity : Activity C Ptr) :
    Option (Network C T Ptr) :=
  if (s.channel c).connsSem then
    some ((s.modify c fun ch => { ch with connsSem := false }).go t activity)
  else none

/-- `binary_sem_post(&(c->conns_sem))` -/
def postConns (s : Network C T Ptr) (c : C) : Network C T Ptr :=
  s.modify c fun ch => { ch with connsSem := true }

/-- `channel_bind(id1, id2)` -/
def stepBind (p : Ports C) (s : Network C T Ptr) (t : T) (id1 id2 : C) :
    BindStage → Option (Network C T Ptr)
  | .lockOp =>
    if s.connOpMutex.isSome then none
    else if p.direction id1 = p.direction id2 then some (s.returns t false)
    else if p.typesize id1 ≠ p.typesize id2 then some (s.returns t false)
    else some { s.go t (.bind .lockFirst id1 id2) with connOpMutex := some t }
  | .lockFirst => s.lock t (p.first id1 id2) (.bind .lockSecond id1 id2)
  | .lockSecond => s.lock t (p.second id1 id2) (.bind .insertFirst id1 id2)
  | .insertFirst => do
    if ← (s.channel id1).connections.containsElement id2 then
      -- only `conn_op_mutex` is unlocked here
      return { s.returns t false with connOpMutex := none }
    else
      return (s.modify id1 fun ch =>
        { ch with connections := ch.connections.insertElement (some id2) }).go t
          (.bind .insertSecond id1 id2)
  | .insertSecond =>
    some ((s.modify id2 fun ch =>
      { ch with connections := ch.connections.insertElement (some id1) }).go t
        (.bind .postFirst id1 id2))
  | .postFirst => some ((s.postConns id1).go t (.bind .postSecond id1 id2))
  | .postSecond => some ((s.postConns id2).go t (.bind .unlock id1 id2))
  | .unlock =>
    some { ((s.unlock id1).unlock id2).returns t true with connOpMutex := none }

/-- `channel_unbind(id)` up to its loop. -/
def stepUnbindLock (s : Network C T Ptr) (t : T) (id : C) : Option (Network C T Ptr) :=
  if s.connOpMutex.isSome then none
  else do
    let length ← (s.channel id).connections.getListLength
    return { s.go t (.unbindLoop id 0 length) with connOpMutex := some t }

/-- The head of the loop of `channel_unbind`. -/
def stepUnbindLoop (s : Network C T Ptr) (t : T) (id : C) (i length : ℕ) :
    Option (Network C T Ptr) :=
  if i < length then do
    let element ← (s.channel id).connections.getElementN i
    let opposite ← element
    return s.go t (.unbind .waitFirst id opposite i)
  else some { s.go t .idle with connOpMutex := none }

/-- The body of the loop of `channel_unbind`. -/
def stepUnbind (p : Ports C) (s : Network C T Ptr) (t : T) (id opposite : C) (i : ℕ) :
    UnbindStage → Option (Network C T Ptr)
  | .waitFirst => s.waitConns t (p.first id opposite) (.unbind .waitSecond id opposite i)
  | .waitSecond => s.waitConns t (p.second id opposite) (.unbind .lockFirst id opposite i)
  | .lockFirst => s.lock t (p.first id opposite) (.unbind .lockSecond id opposite i)
  | .lockSecond => s.lock t (p.second id opposite) (.unbind .removeFirst id opposite i)
  | .removeFirst => do
    let connections ← (s.channel id).connections.removeElement (some opposite)
    return (s.modify id fun ch => { ch with connections := connections }).go t
      (.unbind .removeSecond id opposite i)
  | .removeSecond => do
    let connections ← (s.channel opposite).connections.removeElement (some id)
    return (s.modify opposite fun ch => { ch with connections := connections }).go t
      (.unbind .unlock id opposite i)
  | .unlock => some (((s.unlock id).unlock opposite).go t (.unbind .postFirst id opposite i))
  | .postFirst =>
    if (s.channel id).connections.isEmpty then some (s.go t (.unbind .postSecond id opposite i))
    else some ((s.postConns id).go t (.unbind .postSecond id opposite i))
  | .postSecond => do
    let length ← (s.channel id).connections.getListLength
    if (s.channel opposite).connections.isEmpty then
      return s.go t (.unbindLoop id (i + 1) length)
    else return (s.postConns opposite).go t (.unbindLoop id (i + 1) length)

/-- `channel_send(cout, data)` -/
def stepSend (s : Network C T Ptr) (t : T) (cout : C) (data : Ptr) :
    SendPc C → Option (Network C T Ptr)
  | .idle => none
  | .waitConns => s.waitConns t cout (.send .setReady cout data)
  | .setReady =>
    if (s.channel cout).mutex.isNone then do
      let length ← (s.channel cout).connections.getListLength
      return (s.modify cout fun ch => { ch with buffer := some data, ready := true }).go t
        (.send (.scan 0 length) cout data)
    else none
  | .scan i length =>
    if i < length then do
      let (element, connections) ← (s.channel cout).connections.getNextElement
      let receiver ← element
      if (s.channel receiver).mutex.isNone && (s.channel cout).mutex.isNone then
        let s := s.modify cout fun ch => { ch with connections := connections }
        match Channels.sendMatch (s.channel cout).toChannel (s.channel receiver).toChannel with
        | some (cout', receiver') =>
          return ((s.modify cout fun ch => { ch with toChannel := cout' }).modify receiver
            fun ch => { ch with toChannel := receiver' }).go t
              (.send (.waitReceived receiver) cout data)
        | none => return s.go t (.send (.scan (i + 1) length) cout data)
      else none
    else some ((s.postConns cout).go t (.send .waitBlocked cout data))
  | .waitReceived receiver =>
    if 0 < (s.channel receiver).actuallyReceived then
      some ((s.modify receiver fun ch =>
        { ch with actuallyReceived := ch.actuallyReceived - 1 }).go t (.send .postConns cout data))
    else none
  | .postConns => some ((s.postConns cout).go t .idle)
  | .waitBlocked =>
    if 0 < (s.channel cout).blocked then
      some ((s.modify cout fun ch => { ch with blocked := ch.blocked - 1 }).go t .idle)
    else none

/-- `channel_receive(cin, data)` -/
def stepReceive (s : Network C T Ptr) (t : T) (cin : C) :
    ReceivePc → Option (Network C T Ptr)
  | .idle => none
  | .waitConns => s.waitConns t cin (.receive .setReady cin)
  | .setReady =>
    if (s.channel cin).mutex.isNone then do
      let length ← (s.channel cin).connections.getListLength
      return (s.modify cin fun ch => { ch with ready := true }).go t
        (.receive (.scan 0 length) cin)
    else none
  | .scan i length =>
    if i < length then do
      let (element, connections) ← (s.channel cin).connections.getNextElement
      let sender ← element
      if (s.channel cin).mutex.isNone && (s.channel sender).mutex.isNone then
        let s := s.modify cin fun ch => { ch with connections := connections }
        match Channels.receiveMatch (s.channel cin).toChannel (s.channel sender).toChannel with
        | some (cin', sender') =>
          -- the copy from a null buffer is a fault
          let _ ← cin'.buffer
          return ((s.modify cin fun ch => { ch with toChannel := cin' }).modify sender
            fun ch => { ch with toChannel := sender' }).go t (.receive .postConns cin)
        | none => return s.go t (.receive (.scan (i + 1) length) cin)
      else none
    else some ((s.postConns cin).go t (.receive .waitBlocked cin))
  | .postConns => some ((s.postConns cin).go t .idle)
  | .waitBlocked =>
    if 0 < (s.channel cin).blocked then
      some ((s.modify cin fun ch => { ch with blocked := ch.blocked - 1 }).go t
        (.receive .copy cin))
    else none
  | .copy => do
    let _ ← (s.channel cin).buffer
    return s.go t (.receive .postReceived cin)
  | .postReceived =>
    some ((s.modify cin fun ch =>
      { ch with actuallyReceived := ch.actuallyReceived + 1 }).go t .idle)

/-- The next step of a thread. -/
def stepThread (p : Ports C) (s : Network C T Ptr) (t : T) : Option (Network C T Ptr) :=
  match s.thread t with
  | .idle => none
  | .bind stage id1 id2 => s.stepBind p t id1 id2 stage
  | .unbindLock id => s.stepUnbindLock t id
  | .unbindLoop id i length => s.stepUnbindLoop t id i length
  | .unbind stage id opposite i => s.stepUnbind p t id opposite i stage
  | .send pc cout data => s.stepSend t cout data pc
  | .receive pc cin => s.stepReceive t cin pc

/-- A thread that is idle starts a call. -/
def call (s : Network C T Ptr) (t : T) (activity : Activity C Ptr) : Option (Network C T Ptr) :=
  match s.thread t with
  | .idle => some (s.go t activity)
  | _ => none

/-- One event. -/
def step (p : Ports C) (s : Network C T Ptr) : NetworkEvent C T Ptr → Option (Network C T Ptr)
  | .bind t id1 id2 => s.call t (.bind .lockOp id1 id2)
  | .unbind t id => s.call t (.unbindLock id)
  | .send t cout data => s.call t (.send .waitConns cout data)
  | .receive t cin => s.call t (.receive .waitConns cin)
  | .step t => s.stepThread p t

/-! ### What a send or a receive can do -/

/-- What a thread in `channel_send` changes in a step, and what it does next. -/
inductive SendStep (s : Network C T Ptr) (cout : C) (data : Ptr) :
    SendPc C → Network C T Ptr → Activity C Ptr → Prop
  | waitConns (hsem : (s.channel cout).connsSem = true) :
      SendStep s cout data .waitConns (s.modify cout fun ch => { ch with connsSem := false })
        (.send .setReady cout data)
  | setReady (length : ℕ) :
      SendStep s cout data .setReady
        (s.modify cout fun ch => { ch with buffer := some data, ready := true })
        (.send (.scan 0 length) cout data)
  | taken (i length : ℕ) (receiver : C) (connections : IteratedList C)
      (pair : Channel C Ptr × Channel C Ptr)
      (hget : (s.channel cout).connections.getNextElement = some (some receiver, connections))
      (hmatch : Channels.sendMatch
        ((s.modify cout fun ch => { ch with connections := connections }).channel cout).toChannel
        ((s.modify cout fun ch => { ch with connections := connections }).channel
          receiver).toChannel = some pair) :
      SendStep s cout data (.scan i length)
        (((s.modify cout fun ch => { ch with connections := connections }).modify cout
          fun ch => { ch with toChannel := pair.1 }).modify receiver
          fun ch => { ch with toChannel := pair.2 })
        (.send (.waitReceived receiver) cout data)
  | passed (i length : ℕ) (receiver : C) (connections : IteratedList C)
      (hget : (s.channel cout).connections.getNextElement = some (some receiver, connections)) :
      SendStep s cout data (.scan i length)
        (s.modify cout fun ch => { ch with connections := connections })
        (.send (.scan (i + 1) length) cout data)
  | scanned (i length : ℕ) :
      SendStep s cout data (.scan i length) (s.postConns cout) (.send .waitBlocked cout data)
  | acknowledged (receiver : C) :
      SendStep s cout data (.waitReceived receiver)
        (s.modify receiver fun ch => { ch with actuallyReceived := ch.actuallyReceived - 1 })
        (.send .postConns cout data)
  | returned : SendStep s cout data .postConns (s.postConns cout) .idle
  | woken :
      SendStep s cout data .waitBlocked
        (s.modify cout fun ch => { ch with blocked := ch.blocked - 1 }) .idle

/-- What a thread in `channel_receive` changes in a step, and what it does next. -/
inductive ReceiveStep (s : Network C T Ptr) (cin : C) :
    ReceivePc → Network C T Ptr → Activity C Ptr → Prop
  | waitConns (hsem : (s.channel cin).connsSem = true) :
      ReceiveStep s cin .waitConns (s.modify cin fun ch => { ch with connsSem := false })
        (.receive .setReady cin)
  | setReady (length : ℕ) :
      ReceiveStep s cin .setReady (s.modify cin fun ch => { ch with ready := true })
        (.receive (.scan 0 length) cin)
  | taken (i length : ℕ) (sender : C) (connections : IteratedList C)
      (pair : Channel C Ptr × Channel C Ptr)
      (hget : (s.channel cin).connections.getNextElement = some (some sender, connections))
      (hmatch : Channels.receiveMatch
        ((s.modify cin fun ch => { ch with connections := connections }).channel cin).toChannel
        ((s.modify cin fun ch => { ch with connections := connections }).channel
          sender).toChannel = some pair) :
      ReceiveStep s cin (.scan i length)
        (((s.modify cin fun ch => { ch with connections := connections }).modify cin
          fun ch => { ch with toChannel := pair.1 }).modify sender
          fun ch => { ch with toChannel := pair.2 })
        (.receive .postConns cin)
  | passed (i length : ℕ) (sender : C) (connections : IteratedList C)
      (hget : (s.channel cin).connections.getNextElement = some (some sender, connections)) :
      ReceiveStep s cin (.scan i length)
        (s.modify cin fun ch => { ch with connections := connections })
        (.receive (.scan (i + 1) length) cin)
  | scanned (i length : ℕ) :
      ReceiveStep s cin (.scan i length) (s.postConns cin) (.receive .waitBlocked cin)
  | returned : ReceiveStep s cin .postConns (s.postConns cin) .idle
  | woken :
      ReceiveStep s cin .waitBlocked
        (s.modify cin fun ch => { ch with blocked := ch.blocked - 1 }) (.receive .copy cin)
  | copied : ReceiveStep s cin .copy s (.receive .postReceived cin)
  | posted :
      ReceiveStep s cin .postReceived
        (s.modify cin fun ch => { ch with actuallyReceived := ch.actuallyReceived + 1 }) .idle

variable {s s' : Network C T Ptr} {t : T}

theorem sendStep_of_stepSend {cout : C} {data : Ptr} {pc : SendPc C}
    (h : s.stepSend t cout data pc = some s') :
    ∃ u activity, SendStep s cout data pc u activity ∧ s' = u.go t activity := by
  cases pc with
  | idle => cases h
  | waitConns =>
    simp only [stepSend, Network.waitConns] at h
    split_ifs at h with hsem
    cases h
    exact ⟨_, _, .waitConns hsem, rfl⟩
  | setReady =>
    simp only [stepSend] at h
    split_ifs at h with hfree
    simp only [Option.bind_eq_bind, Option.bind_eq_some_iff] at h
    obtain ⟨length, -, h⟩ := h
    cases h
    exact ⟨_, _, .setReady length, rfl⟩
  | scan i length =>
    simp only [stepSend] at h
    split_ifs at h with hlt
    · simp only [Option.bind_eq_bind, Option.bind_eq_some_iff] at h
      obtain ⟨⟨element, connections⟩, hget, receiver, rfl, h⟩ := h
      split_ifs at h with hfree
      cases hmatch : Channels.sendMatch
          ((s.modify cout fun ch => { ch with connections := connections }).channel cout).toChannel
          ((s.modify cout fun ch => { ch with connections := connections }).channel
            receiver).toChannel with
      | none =>
        rw [hmatch] at h
        cases h
        exact ⟨_, _, .passed i length receiver connections hget, rfl⟩
      | some pair =>
        rw [hmatch] at h
        cases h
        exact ⟨_, _, .taken i length receiver connections pair hget hmatch, rfl⟩
    · cases h
      exact ⟨_, _, .scanned i length, rfl⟩
  | waitReceived receiver =>
    simp only [stepSend] at h
    split_ifs at h with htoken
    cases h
    exact ⟨_, _, .acknowledged receiver, rfl⟩
  | postConns =>
    cases h
    exact ⟨_, _, .returned, rfl⟩
  | waitBlocked =>
    simp only [stepSend] at h
    split_ifs at h with htoken
    cases h
    exact ⟨_, _, .woken, rfl⟩

theorem receiveStep_of_stepReceive {cin : C} {pc : ReceivePc}
    (h : s.stepReceive t cin pc = some s') :
    ∃ u activity, ReceiveStep s cin pc u activity ∧ s' = u.go t activity := by
  cases pc with
  | idle => cases h
  | waitConns =>
    simp only [stepReceive, Network.waitConns] at h
    split_ifs at h with hsem
    cases h
    exact ⟨_, _, .waitConns hsem, rfl⟩
  | setReady =>
    simp only [stepReceive] at h
    split_ifs at h with hfree
    simp only [Option.bind_eq_bind, Option.bind_eq_some_iff] at h
    obtain ⟨length, -, h⟩ := h
    cases h
    exact ⟨_, _, .setReady length, rfl⟩
  | scan i length =>
    simp only [stepReceive] at h
    split_ifs at h with hlt
    · simp only [Option.bind_eq_bind, Option.bind_eq_some_iff] at h
      obtain ⟨⟨element, connections⟩, hget, sender, rfl, h⟩ := h
      split_ifs at h with hfree
      cases hmatch : Channels.receiveMatch
          ((s.modify cin fun ch => { ch with connections := connections }).channel cin).toChannel
          ((s.modify cin fun ch => { ch with connections := connections }).channel
            sender).toChannel with
      | none =>
        rw [hmatch] at h
        cases h
        exact ⟨_, _, .passed i length sender connections hget, rfl⟩
      | some pair =>
        rw [hmatch] at h
        simp only [Option.bind_eq_some_iff] at h
        obtain ⟨buffer, -, h⟩ := h
        cases h
        exact ⟨_, _, .taken i length sender connections pair hget hmatch, rfl⟩
    · cases h
      exact ⟨_, _, .scanned i length, rfl⟩
  | postConns =>
    cases h
    exact ⟨_, _, .returned, rfl⟩
  | waitBlocked =>
    simp only [stepReceive] at h
    split_ifs at h with htoken
    cases h
    exact ⟨_, _, .woken, rfl⟩
  | copy =>
    simp only [stepReceive, Option.bind_eq_bind, Option.bind_eq_some_iff] at h
    obtain ⟨buffer, -, h⟩ := h
    cases h
    exact ⟨_, _, .copied, rfl⟩
  | postReceived =>
    cases h
    exact ⟨_, _, .posted, rfl⟩

end Network

end InsenseCVM
