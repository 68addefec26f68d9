import InsenseCVM.Channels.Network
import InsenseCVM.Collections.Mutators
import Mathlib.Data.Fintype.Basic

/-!
# The connection graph

The abstract view of binding: every channel has a list of peers, and `Graph` says that these lists
make a symmetric relation between channels of opposite direction and the same size, without
duplicates. `channel_bind` links two channels and `channel_unbind` unlinks them. Between two calls
that do not overlap the connection lists are the lists of peers, and `conns_sem` of a channel has
its token exactly if the channel has a peer, so that `channel_unbind` finds every token it waits
for.
-/

namespace InsenseCVM

open Transition

/-! ### Peers -/

section Peers

variable {C : Type} {p : Ports C} {peers : C → List C} {a b c d : C}

/-- A symmetric relation between channels that fit. -/
structure Graph (p : Ports C) (peers : C → List C) : Prop where
  symm : ∀ c d, d ∈ peers c → c ∈ peers d
  direction : ∀ c d, d ∈ peers c → p.direction c ≠ p.direction d
  typesize : ∀ c d, d ∈ peers c → p.typesize c = p.typesize d
  nodup : ∀ c, (peers c).Nodup

theorem Graph.ne (h : Graph p peers) (hpeer : d ∈ peers c) : c ≠ d := by
  rintro rfl
  exact h.direction c c hpeer rfl

variable [DecidableEq C]

def link (peers : C → List C) (a b : C) : C → List C :=
  Function.update (Function.update peers a (b :: peers a)) b (a :: peers b)

def unlink (peers : C → List C) (a b : C) : C → List C :=
  Function.update (Function.update peers a ((peers a).erase b)) b ((peers b).erase a)

theorem link_first (hne : a ≠ b) : link peers a b a = b :: peers a := by
  rw [link, Function.update_of_ne hne, Function.update_self]

theorem link_second : link peers a b b = a :: peers b := Function.update_self ..

theorem link_of_ne (ha : c ≠ a) (hb : c ≠ b) : link peers a b c = peers c := by
  rw [link, Function.update_of_ne hb, Function.update_of_ne ha]

theorem unlink_first (hne : a ≠ b) : unlink peers a b a = (peers a).erase b := by
  rw [unlink, Function.update_of_ne hne, Function.update_self]

theorem unlink_second : unlink peers a b b = (peers b).erase a := Function.update_self ..

theorem unlink_of_ne (ha : c ≠ a) (hb : c ≠ b) : unlink peers a b c = peers c := by
  rw [unlink, Function.update_of_ne hb, Function.update_of_ne ha]

theorem mem_link (hne : a ≠ b) :
    d ∈ link peers a b c ↔ d ∈ peers c ∨ (c = a ∧ d = b) ∨ (c = b ∧ d = a) := by
  by_cases ha : c = a
  · subst ha
    rw [link_first hne]
    simp [hne, or_comm]
  · by_cases hb : c = b
    · subst hb
      rw [link_second]
      simp [ha, or_comm]
    · rw [link_of_ne ha hb]
      simp [ha, hb]

theorem mem_unlink (hne : a ≠ b) (hnodup : ∀ c, (peers c).Nodup) :
    d ∈ unlink peers a b c ↔
      d ∈ peers c ∧ ¬ (c = a ∧ d = b) ∧ ¬ (c = b ∧ d = a) := by
  by_cases ha : c = a
  · subst ha
    rw [unlink_first hne, (hnodup c).mem_erase_iff]
    simp [hne, and_comm]
  · by_cases hb : c = b
    · subst hb
      rw [unlink_second, (hnodup c).mem_erase_iff]
      simp [ha, and_comm]
    · rw [unlink_of_ne ha hb]
      simp [ha, hb]

/-- `channel_bind` keeps the graph. -/
theorem Graph.link (h : Graph p peers) (hdirection : p.direction a ≠ p.direction b)
    (htypesize : p.typesize a = p.typesize b) (hnot : b ∉ peers a) :
    Graph p (InsenseCVM.link peers a b) := by
  have hne : a ≠ b := fun heq => hdirection (congrArg p.direction heq)
  refine ⟨fun c d hd => ?_, fun c d hd => ?_, fun c d hd => ?_, fun c => ?_⟩
  · rw [mem_link hne] at hd ⊢
    rcases hd with hd | ⟨rfl, rfl⟩ | ⟨rfl, rfl⟩
    · exact .inl (h.symm c d hd)
    · exact .inr (.inr ⟨rfl, rfl⟩)
    · exact .inr (.inl ⟨rfl, rfl⟩)
  · rw [mem_link hne] at hd
    rcases hd with hd | ⟨rfl, rfl⟩ | ⟨rfl, rfl⟩
    · exact h.direction c d hd
    · exact hdirection
    · exact hdirection.symm
  · rw [mem_link hne] at hd
    rcases hd with hd | ⟨rfl, rfl⟩ | ⟨rfl, rfl⟩
    · exact h.typesize c d hd
    · exact htypesize
    · exact htypesize.symm
  · by_cases ha : c = a
    · subst ha
      rw [link_first hne]
      exact List.nodup_cons.2 ⟨hnot, h.nodup c⟩
    · by_cases hb : c = b
      · subst hb
        rw [link_second]
        exact List.nodup_cons.2 ⟨fun hmem => hnot (h.symm c a hmem), h.nodup c⟩
      · rw [link_of_ne ha hb]
        exact h.nodup c

/-- `channel_unbind` keeps the graph. -/
theorem Graph.unlink (h : Graph p peers) (hne : a ≠ b) : Graph p (InsenseCVM.unlink peers a b) := by
  refine ⟨fun c d hd => ?_, fun c d hd => ?_, fun c d hd => ?_, fun c => ?_⟩
  · rw [mem_unlink hne h.nodup] at hd ⊢
    refine ⟨h.symm c d hd.1, fun hab => hd.2.2 ⟨hab.2, hab.1⟩, fun hba => hd.2.1 ⟨hba.2, hba.1⟩⟩
  · exact h.direction c d ((mem_unlink hne h.nodup).1 hd).1
  · exact h.typesize c d ((mem_unlink hne h.nodup).1 hd).1
  · by_cases ha : c = a
    · subst ha
      rw [unlink_first hne]
      exact (h.nodup c).erase b
    · by_cases hb : c = b
      · subst hb
        rw [unlink_second]
        exact (h.nodup c).erase a
      · rw [unlink_of_ne ha hb]
        exact h.nodup c

end Peers

/-! ### Lists -/

namespace IteratedList

variable {α : Type} {l : IteratedList α} {xs : List α} {x : α}

/-- The payloads of the list. -/
def StandsFor (l : IteratedList α) (xs : List α) : Prop :=
  ∃ cells, Represents l cells ∧ cells.map Prod.snd = xs

theorem constructList_standsFor : (constructList : IteratedList α).StandsFor [] :=
  ⟨[], constructList_represents, rfl⟩

theorem StandsFor.isEmpty_eq (h : l.StandsFor xs) : l.isEmpty = xs.isEmpty := by
  obtain ⟨cells, hrep, rfl⟩ := h
  rw [hrep.isEmpty_eq]
  cases cells with
  | nil => rfl
  | cons c cells => rfl

theorem StandsFor.insertElement (h : l.StandsFor xs) (x : α) :
    (l.insertElement (some x)).StandsFor (x :: xs) := by
  obtain ⟨cells, hrep, rfl⟩ := h
  exact ⟨_, hrep.insertElement x, rfl⟩

theorem StandsFor.getElementN_eq (h : l.StandsFor xs) (i : ℕ) :
    l.getElementN i = some xs[i]? := by
  obtain ⟨cells, hrep, rfl⟩ := h
  exact hrep.getElementN_eq i

variable [DecidableEq α]

theorem StandsFor.containsElement_eq (h : l.StandsFor xs) (x : α) :
    l.containsElement x = some (decide (x ∈ xs)) := by
  obtain ⟨cells, hrep, rfl⟩ := h
  exact hrep.containsElement_eq x

theorem StandsFor.removeElement (h : l.StandsFor xs) (hx : x ∈ xs) :
    ∃ l', l.removeElement (some x) = some l' ∧ l'.StandsFor (xs.erase x) := by
  obtain ⟨cells, hrep, rfl⟩ := h
  obtain ⟨a, ys, zs, rfl, hys⟩ := exists_first_cell hx
  obtain ⟨l', hl', hrep', -⟩ := hrep.removeElement_present hys
  exact ⟨l', hl', _, hrep', (erase_of_first_cell hys).symm⟩

end IteratedList

/-! ### Calls in turn -/

/-- The channels, and which of them exist. -/
structure Session (C T Ptr : Type) where
  network : Network C T Ptr
  created : C → Bool

/-- `channel_create` of a channel, or an event of the others. -/
inductive Action (C T Ptr : Type)
  | create (c : C)
  | event (e : NetworkEvent C T Ptr)

namespace Session

variable {C T Ptr : Type} [DecidableEq C] [DecidableEq T]

/-- An operation is called with channels that exist. -/
def exist (s : Session C T Ptr) : NetworkEvent C T Ptr → Bool
  | .bind _ id1 id2 => s.created id1 && s.created id2
  | .unbind _ c | .send _ c _ | .receive _ c => s.created c
  | .step _ => true

def step (p : Ports C) (s : Session C T Ptr) : Action C T Ptr → Option (Session C T Ptr)
  | .create c =>
    if s.created c = true then none
    else
      some
        { network := s.network.modify c fun _ => channelCreate
          created := Function.update s.created c true }
  | .event e =>
    if s.exist e = true then (s.network.step p e).map fun network => { s with network := network }
    else none

/-- No channel exists yet. -/
def start (C T Ptr : Type) : Session C T Ptr where
  network :=
    { channel _ := channelCreate
      connOpMutex := none
      thread _ := .idle
      bound _ := none }
  created _ := false

def AllIdle (s : Session C T Ptr) : Prop := ∀ t, s.network.thread t = .idle

/-- A channel is created, bound or unbound when no call is under way, and nothing is sent or
received. -/
def InTurn (s : Session C T Ptr) : Action C T Ptr → Prop
  | .create _ | .event (.bind _ _ _) | .event (.unbind _ _) => s.AllIdle
  | .event (.send _ _ _) | .event (.receive _ _) => False
  | .event (.step _) => True

instance [Fintype T] [DecidableEq Ptr] (s : Session C T Ptr) : Decidable s.AllIdle :=
  inferInstanceAs (Decidable (∀ t, s.network.thread t = .idle))

instance [Fintype T] [DecidableEq Ptr] (s : Session C T Ptr) : ∀ action, Decidable (InTurn s action)
  | .create _ | .event (.bind _ _ _) | .event (.unbind _ _) =>
    inferInstanceAs (Decidable s.AllIdle)
  | .event (.send _ _ _) | .event (.receive _ _) => isFalse id
  | .event (.step _) => isTrue trivial

/-- The lists are those of a graph, and a channel has its token exactly if it has a peer. -/
structure Connected (p : Ports C) (s : Session C T Ptr) (peers : C → List C) : Prop where
  graph : Graph p peers
  lists : ∀ c, (s.network.channel c).connections.StandsFor (peers c)
  tokens : ∀ c, (s.network.channel c).connsSem = true ↔ peers c ≠ []

/-- A thread in `channel_unbind` waits for a token that is not there. -/
def Blocked (p : Ports C) (s : Session C T Ptr) : Prop :=
  ∃ t id opposite i,
    (s.network.thread t = .unbind .waitFirst id opposite i ∧
      (s.network.channel (p.first id opposite)).connsSem = false) ∨
    (s.network.thread t = .unbind .waitSecond id opposite i ∧
      (s.network.channel (p.second id opposite)).connsSem = false)

/-! ### Within a call -/

/-- The token of each channel with a peer. -/
def full (peers : C → List C) (c : C) : Bool := !(peers c).isEmpty

/-- Lists and tokens as they are. -/
structure At (n : Network C T Ptr) (lists : C → List C) (tokens : C → Bool) : Prop where
  list : ∀ c, (n.channel c).connections.StandsFor (lists c)
  token : ∀ c, (n.channel c).connsSem = tokens c

/-- Two channels that `channel_bind` accepts. -/
structure Fits (p : Ports C) (created : C → Bool) (a b : C) : Prop where
  createdFirst : created a = true
  createdSecond : created b = true
  direction : p.direction a ≠ p.direction b
  typesize : p.typesize a = p.typesize b

/-- The tokens of two channels are taken. -/
structure Taken (peers : C → List C) (tokens : C → Bool) (a b : C) : Prop where
  others : ∀ c, c ≠ a → c ≠ b → tokens c = full peers c
  first : tokens a = false
  second : tokens b = false

/-- How far lists and tokens are from those of the graph, for each place in a call. -/
def Progress (p : Ports C) (created : C → Bool) (peers : C → List C) :
    Activity C Ptr → (C → List C) → (C → Bool) → Prop
  | .bind .lockOp a b, lists, tokens =>
    (created a = true ∧ created b = true) ∧ lists = peers ∧ tokens = full peers
  | .bind .lockFirst a b, lists, tokens | .bind .lockSecond a b, lists, tokens
  | .bind .insertFirst a b, lists, tokens =>
    Fits p created a b ∧ lists = peers ∧ tokens = full peers
  | .bind .insertSecond a b, lists, tokens =>
    b ∈ peers a ∧ peers b = a :: lists b ∧ (∀ c ≠ b, lists c = peers c) ∧
      ∀ c, c ≠ a → c ≠ b → tokens c = full peers c
  | .bind .postFirst a b, lists, tokens =>
    b ∈ peers a ∧ lists = peers ∧ ∀ c, c ≠ a → c ≠ b → tokens c = full peers c
  | .bind .postSecond a b, lists, tokens =>
    b ∈ peers a ∧ lists = peers ∧ ∀ c ≠ b, tokens c = full peers c
  | .unbind .waitFirst id opposite _, lists, tokens =>
    opposite ∈ peers id ∧ lists = peers ∧ tokens = full peers
  | .unbind .waitSecond id opposite _, lists, tokens =>
    opposite ∈ peers id ∧ lists = peers ∧ tokens (p.first id opposite) = false ∧
      ∀ c ≠ p.first id opposite, tokens c = full peers c
  | .unbind .lockFirst id opposite _, lists, tokens
  | .unbind .lockSecond id opposite _, lists, tokens
  | .unbind .removeFirst id opposite _, lists, tokens =>
    opposite ∈ peers id ∧ lists = peers ∧ Taken peers tokens id opposite
  | .unbind .removeSecond id opposite _, lists, tokens =>
    id ≠ opposite ∧ id ∈ lists opposite ∧ peers opposite = (lists opposite).erase id ∧
      (∀ c ≠ opposite, lists c = peers c) ∧ Taken peers tokens id opposite
  | .unbind .unlock id opposite _, lists, tokens
  | .unbind .postFirst id opposite _, lists, tokens =>
    id ≠ opposite ∧ lists = peers ∧ Taken peers tokens id opposite
  | .unbind .postSecond _ opposite _, lists, tokens =>
    lists = peers ∧ tokens opposite = false ∧ ∀ c ≠ opposite, tokens c = full peers c
  | .idle, lists, tokens | .bind .unlock _ _, lists, tokens | .unbindLock _, lists, tokens
  | .unbindLoop _ _ _, lists, tokens => lists = peers ∧ tokens = full peers
  | .send _ _ _, _, _ | .receive _ _, _, _ => False

/-- Channels with peers exist. -/
def Used (created : C → Bool) (peers : C → List C) : Prop := ∀ c, peers c ≠ [] → created c = true

/-- A state within a call. -/
structure Within (p : Ports C) (created : C → Bool) (n : Network C T Ptr)
    (activity : Activity C Ptr) (peers lists : C → List C) (tokens : C → Bool) : Prop where
  graph : Graph p peers
  used : Used created peers
  holds : At n lists tokens
  progress : Progress p created peers activity lists tokens

variable {p : Ports C} {created : C → Bool} {n n' : Network C T Ptr} {t : T}
  {activity : Activity C Ptr} {peers lists : C → List C} {tokens : C → Bool} {a b c : C}

omit [DecidableEq C] in
theorem full_eq_true_iff : full peers c = true ↔ peers c ≠ [] := by
  simp [full]

omit [DecidableEq C] [DecidableEq T] in
theorem full_of_mem {x : C} (h : x ∈ peers c) : full peers c = true :=
  full_eq_true_iff.2 (List.ne_nil_of_mem h)

omit [DecidableEq T] in
theorem At.modify (h : At n lists tokens) {f : Endpoint C T Ptr → Endpoint C T Ptr} {xs : List C}
    {token : Bool} (hlist : (f (n.channel c)).connections.StandsFor xs)
    (htoken : (f (n.channel c)).connsSem = token) :
    At (n.modify c f) (Function.update lists c xs) (Function.update tokens c token) := by
  refine ⟨fun d => ?_, fun d => ?_⟩
  · by_cases hd : d = c
    · subst hd
      rw [Network.modify_channel_self, Function.update_self]
      exact hlist
    · rw [Network.modify_channel_of_ne _ _ hd, Function.update_of_ne hd]
      exact h.list d
  · by_cases hd : d = c
    · subst hd
      rw [Network.modify_channel_self, Function.update_self]
      exact htoken
    · rw [Network.modify_channel_of_ne _ _ hd, Function.update_of_ne hd]
      exact h.token d

omit [DecidableEq T] in
theorem At.setMutex (h : At n lists tokens) (mutex : Option T) :
    At (n.modify c fun ch => { ch with mutex := mutex }) lists tokens := by
  have hboth := h.modify (c := c) (f := fun ch => { ch with mutex := mutex }) (h.list c) (h.token c)
  rwa [Function.update_eq_self, Function.update_eq_self] at hboth

omit [DecidableEq T] in
theorem At.setToken (h : At n lists tokens) (token : Bool) :
    At (n.modify c fun ch => { ch with connsSem := token }) lists
      (Function.update tokens c token) := by
  have hboth := h.modify (c := c) (f := fun ch => { ch with connsSem := token }) (h.list c) rfl
  rwa [Function.update_eq_self] at hboth

omit [DecidableEq T] in
theorem At.setConnections (h : At n lists tokens) {l : IteratedList C} {xs : List C}
    (hlist : l.StandsFor xs) :
    At (n.modify c fun ch => { ch with connections := l }) (Function.update lists c xs) tokens := by
  have hboth := h.modify (c := c) (f := fun ch => { ch with connections := l }) hlist (h.token c)
  rwa [Function.update_eq_self c tokens] at hboth

omit [DecidableEq T] in
theorem At.insert (h : At n lists tokens) (x : C) :
    At (n.modify c fun ch => { ch with connections := ch.connections.insertElement (some x) })
      (Function.update lists c (x :: lists c)) tokens :=
  h.setConnections ((h.list c).insertElement x)

omit [DecidableEq C] [DecidableEq T] in
theorem At.congr (h : At n lists tokens) (hchannel : n'.channel = n.channel) :
    At n' lists tokens := by
  refine ⟨fun c => ?_, fun c => ?_⟩
  · rw [hchannel]
    exact h.list c
  · rw [hchannel]
    exact h.token c

theorem At.lock (h : At n lists tokens) (hlock : n.lock t c activity = some n') :
    n'.thread = Function.update n.thread t activity ∧ At n' lists tokens := by
  unfold Network.lock at hlock
  split_ifs at hlock with hfree
  cases hlock
  exact ⟨rfl, (h.setMutex (some t)).congr rfl⟩

theorem At.waitConns (h : At n lists tokens) (hwait : n.waitConns t c activity = some n') :
    n'.thread = Function.update n.thread t activity ∧ tokens c = true ∧
      At n' lists (Function.update tokens c false) := by
  unfold Network.waitConns at hwait
  split_ifs at hwait with hsem
  cases hwait
  exact ⟨rfl, (h.token c).symm.trans hsem, (h.setToken false).congr rfl⟩

omit [DecidableEq T] in
theorem At.postConns (h : At n lists tokens) :
    At (n.postConns c) lists (Function.update tokens c true) :=
  h.setToken true

omit [DecidableEq C] in
theorem Used.of_subset {peers' : C → List C} (h : Used created peers)
    (hsub : ∀ c, peers c = [] → peers' c = []) : Used created peers' :=
  fun c hc => h c fun hnil => hc (hsub c hnil)

theorem Used.link (h : Used created peers) (ha : created a = true) (hb : created b = true) :
    Used created (InsenseCVM.link peers a b) := by
  intro c hc
  by_cases hca : c = a
  · rw [hca]
    exact ha
  · by_cases hcb : c = b
    · rw [hcb]
      exact hb
    · rw [link_of_ne hca hcb] at hc
      exact h c hc

theorem Used.unlink (h : Used created peers) : Used created (InsenseCVM.unlink peers a b) := by
  refine h.of_subset fun c hnil => ?_
  by_cases hcb : c = b
  · subst hcb
    rw [unlink_second, hnil]
    rfl
  · rw [InsenseCVM.unlink, Function.update_of_ne hcb]
    by_cases hca : c = a
    · subst hca
      rw [Function.update_self, hnil]
      rfl
    · rw [Function.update_of_ne hca, hnil]

theorem Taken.unlink (h : Taken peers tokens a b) :
    Taken (InsenseCVM.unlink peers a b) tokens a b := by
  refine ⟨fun c ha hb => ?_, h.first, h.second⟩
  rw [h.others c ha hb, full, full, unlink_of_ne ha hb]

/-- Both tokens have been taken, one behind the other. -/
theorem taken_second (hne : a ≠ b) (hfalse : tokens (p.first a b) = false)
    (htokens : ∀ c ≠ p.first a b, tokens c = full peers c) :
    Taken peers (Function.update tokens (p.second a b) false) a b := by
  unfold Ports.first at hfalse htokens
  unfold Ports.second
  split_ifs at hfalse htokens ⊢
  · refine ⟨fun c ha hb => ?_, ?_, Function.update_self ..⟩
    · rw [Function.update_of_ne hb, htokens c ha]
    · rw [Function.update_of_ne hne, hfalse]
  · refine ⟨fun c ha hb => ?_, Function.update_self .., ?_⟩
    · rw [Function.update_of_ne ha, htokens c hb]
    · rw [Function.update_of_ne hne.symm, hfalse]

/-- A thread goes on within its call. -/
def Proceeds (p : Ports C) (created : C → Bool) (n n' : Network C T Ptr) (t : T) : Prop :=
  ∃ activity peers lists tokens, n'.thread = Function.update n.thread t activity ∧
    Within p created n' activity peers lists tokens

theorem bind_proceeds {stage : BindStage}
    (h : Within p created n (.bind stage a b) peers lists tokens)
    (hstep : n.stepBind p t a b stage = some n') : Proceeds p created n n' t := by
  obtain ⟨hgraph, hused, hat, hprogress⟩ := h
  cases stage with
  | lockOp =>
    obtain ⟨hcreated, rfl, rfl⟩ := hprogress
    simp only [Network.stepBind] at hstep
    split_ifs at hstep with hheld hdirection hsize
    · cases hstep
      exact ⟨.idle, lists, lists, _, rfl, hgraph, hused, hat.congr rfl, rfl, rfl⟩
    · cases hstep
      exact ⟨.idle, lists, lists, _, rfl, hgraph, hused, hat.congr rfl, rfl, rfl⟩
    · cases hstep
      refine ⟨_, lists, lists, _, rfl, hgraph, hused, hat.congr rfl, ?_, rfl, rfl⟩
      exact ⟨hcreated.1, hcreated.2, hdirection, not_not.1 hsize⟩
  | lockFirst =>
    obtain ⟨hthread, hat'⟩ := hat.lock hstep
    exact ⟨_, _, _, _, hthread, hgraph, hused, hat', hprogress⟩
  | lockSecond =>
    obtain ⟨hthread, hat'⟩ := hat.lock hstep
    exact ⟨_, _, _, _, hthread, hgraph, hused, hat', hprogress⟩
  | insertFirst =>
    obtain ⟨hfits, rfl, rfl⟩ := hprogress
    simp only [Network.stepBind, Option.bind_eq_bind, Option.bind_eq_some_iff] at hstep
    obtain ⟨contained, hcontains, hstep⟩ := hstep
    -- already bound: the code leaves at once, and only `conn_op_mutex` changes
    split_ifs at hstep with htrue
    · cases hstep
      exact ⟨.idle, lists, lists, _, rfl, hgraph, hused, hat.congr rfl, rfl, rfl⟩
    · cases hstep
      rw [(hat.list a).containsElement_eq b, Option.some.injEq] at hcontains
      have hnot : b ∉ lists a := by
        rw [← hcontains] at htrue
        simpa using htrue
      -- the graph has the connection from here on; the second list gets it in the next step
      have hne : a ≠ b := fun heq => hfits.direction (congrArg p.direction heq)
      refine ⟨_, link lists a b, _, _, rfl, hgraph.link hfits.direction hfits.typesize hnot,
        hused.link hfits.createdFirst hfits.createdSecond,
        (hat.insert b).congr rfl, ?_, ?_, fun c hc => ?_,
        fun c ha hb => ?_⟩
      · exact (mem_link hne).2 (.inr (.inl ⟨rfl, rfl⟩))
      · rw [link_second, Function.update_of_ne hne.symm]
      · rw [link, Function.update_of_ne hc]
      · rw [full, full, link_of_ne ha hb]
  | insertSecond =>
    obtain ⟨hmem, hpeers, hlists, htokens⟩ := hprogress
    simp only [Network.stepBind] at hstep
    cases hstep
    refine ⟨_, peers, _, _, rfl, hgraph, hused,
      (hat.insert a).congr rfl, hmem, ?_, htokens⟩
    funext c
    by_cases hc : c = b
    · subst hc
      rw [Function.update_self, hpeers]
    · rw [Function.update_of_ne hc, hlists c hc]
  | postFirst =>
    obtain ⟨hmem, rfl, htokens⟩ := hprogress
    simp only [Network.stepBind] at hstep
    cases hstep
    refine ⟨_, lists, lists, _, rfl, hgraph, hused, hat.postConns.congr rfl, hmem, rfl,
      fun c hc => ?_⟩
    by_cases ha : c = a
    · subst ha
      rw [Function.update_self, full_of_mem hmem]
    · rw [Function.update_of_ne ha, htokens c ha hc]
  | postSecond =>
    obtain ⟨hmem, rfl, htokens⟩ := hprogress
    simp only [Network.stepBind] at hstep
    cases hstep
    refine ⟨_, lists, lists, _, rfl, hgraph, hused, hat.postConns.congr rfl, rfl, ?_⟩
    funext c
    by_cases hb : c = b
    · subst hb
      rw [Function.update_self, full_of_mem (hgraph.symm a c hmem)]
    · rw [Function.update_of_ne hb, htokens c hb]
  | unlock =>
    obtain ⟨rfl, rfl⟩ := hprogress
    simp only [Network.stepBind] at hstep
    cases hstep
    exact ⟨.idle, lists, lists, _, rfl, hgraph, hused,
      ((hat.setMutex none).setMutex none).congr rfl, rfl, rfl⟩

theorem unbind_proceeds {stage : UnbindStage} {i : ℕ}
    (h : Within p created n (.unbind stage a b i) peers lists tokens)
    (hstep : n.stepUnbind p t a b i stage = some n') : Proceeds p created n n' t := by
  obtain ⟨hgraph, hused, hat, hprogress⟩ := h
  cases stage with
  | waitFirst =>
    obtain ⟨hmem, rfl, rfl⟩ := hprogress
    obtain ⟨hthread, -, hat'⟩ := hat.waitConns hstep
    refine ⟨_, lists, _, _, hthread, hgraph, hused, hat', hmem, rfl, Function.update_self ..,
      fun c hc => Function.update_of_ne hc ..⟩
  | waitSecond =>
    obtain ⟨hmem, rfl, hfalse, htokens⟩ := hprogress
    obtain ⟨hthread, -, hat'⟩ := hat.waitConns hstep
    refine ⟨_, lists, _, _, hthread, hgraph, hused, hat', hmem, rfl,
      taken_second (hgraph.ne hmem) hfalse htokens⟩
  | lockFirst =>
    obtain ⟨hthread, hat'⟩ := hat.lock hstep
    exact ⟨_, _, _, _, hthread, hgraph, hused, hat', hprogress⟩
  | lockSecond =>
    obtain ⟨hthread, hat'⟩ := hat.lock hstep
    exact ⟨_, _, _, _, hthread, hgraph, hused, hat', hprogress⟩
  | removeFirst =>
    obtain ⟨hmem, rfl, htaken⟩ := hprogress
    -- one of the two lists still has the connection that the graph has lost
    have hne := hgraph.ne hmem
    simp only [Network.stepUnbind, Option.bind_eq_bind, Option.bind_eq_some_iff] at hstep
    obtain ⟨l, hl, hstep⟩ := hstep
    cases hstep
    obtain ⟨l', hl', hlist⟩ := (hat.list a).removeElement hmem
    rw [hl] at hl'
    cases hl'
    refine ⟨_, unlink lists a b, _, _, rfl, hgraph.unlink hne, hused.unlink,
      (hat.setConnections hlist).congr rfl, hne, ?_, ?_, fun c hc => ?_, htaken.unlink⟩
    · rw [Function.update_of_ne hne.symm]
      exact hgraph.symm a b hmem
    · rw [unlink_second, Function.update_of_ne hne.symm]
    · rw [unlink, Function.update_of_ne hc]
  | removeSecond =>
    obtain ⟨hne, hmem, hpeers, hlists, htaken⟩ := hprogress
    simp only [Network.stepUnbind, Option.bind_eq_bind, Option.bind_eq_some_iff] at hstep
    obtain ⟨l, hl, hstep⟩ := hstep
    cases hstep
    obtain ⟨l', hl', hlist⟩ := (hat.list b).removeElement hmem
    rw [hl] at hl'
    cases hl'
    refine ⟨_, peers, _, _, rfl, hgraph, hused, (hat.setConnections hlist).congr rfl, hne, ?_,
      htaken⟩
    -- the second removal makes the lists those of the graph again
    funext c
    by_cases hc : c = b
    · subst hc
      rw [Function.update_self, hpeers]
    · rw [Function.update_of_ne hc, hlists c hc]
  | unlock =>
    simp only [Network.stepUnbind] at hstep
    cases hstep
    exact ⟨_, _, _, _, rfl, hgraph, hused, ((hat.setMutex none).setMutex none).congr rfl,
      hprogress⟩
  | postFirst =>
    obtain ⟨hne, rfl, htaken⟩ := hprogress
    simp only [Network.stepUnbind] at hstep
    split_ifs at hstep with hempty
    · cases hstep
      refine ⟨_, lists, _, _, rfl, hgraph, hused, hat.congr rfl, rfl, htaken.second,
        fun c hc => ?_⟩
      -- an empty channel keeps its token taken
      by_cases ha : c = a
      · subst ha
        rw [(hat.list c).isEmpty_eq] at hempty
        rw [htaken.first, full, hempty]
        rfl
      · exact htaken.others c ha hc
    · cases hstep
      refine ⟨_, lists, _, _, rfl, hgraph, hused, hat.postConns.congr rfl, rfl, ?_, fun c hc => ?_⟩
      · rw [Function.update_of_ne hne.symm]
        exact htaken.second
      · by_cases ha : c = a
        · subst ha
          rw [(hat.list c).isEmpty_eq, Bool.not_eq_true] at hempty
          rw [Function.update_self, full, hempty]
          rfl
        · rw [Function.update_of_ne ha]
          exact htaken.others c ha hc
  | postSecond =>
    obtain ⟨rfl, hfalse, htokens⟩ := hprogress
    simp only [Network.stepUnbind, Option.bind_eq_bind, Option.bind_eq_some_iff] at hstep
    obtain ⟨length, -, hstep⟩ := hstep
    split_ifs at hstep with hempty
    · cases hstep
      refine ⟨_, lists, _, _, rfl, hgraph, hused, hat.congr rfl, rfl, ?_⟩
      funext c
      by_cases hc : c = b
      · subst hc
        rw [(hat.list c).isEmpty_eq] at hempty
        rw [hfalse, full, hempty]
        rfl
      · exact htokens c hc
    · cases hstep
      refine ⟨_, lists, _, _, rfl, hgraph, hused, hat.postConns.congr rfl, rfl, ?_⟩
      funext c
      by_cases hc : c = b
      · subst hc
        rw [(hat.list c).isEmpty_eq, Bool.not_eq_true] at hempty
        rw [Function.update_self, full, hempty]
        rfl
      · rw [Function.update_of_ne hc]
        exact htokens c hc

/-- A step of a thread in a call. -/
theorem step_proceeds (h : Within p created n (n.thread t) peers lists tokens)
    (hstep : n.stepThread p t = some n') : Proceeds p created n n' t := by
  unfold Network.stepThread at hstep
  cases hthread : n.thread t with
  | idle =>
    rw [hthread] at hstep
    cases hstep
  | bind stage id1 id2 =>
    rw [hthread] at h hstep
    exact bind_proceeds h hstep
  | unbindLock id =>
    rw [hthread] at h hstep
    obtain ⟨hgraph, hused, hat, hprogress⟩ := h
    simp only [Network.stepUnbindLock] at hstep
    split_ifs at hstep with hheld
    simp only [Option.bind_eq_bind, Option.bind_eq_some_iff] at hstep
    obtain ⟨length, -, hstep⟩ := hstep
    cases hstep
    exact ⟨_, _, _, _, rfl, hgraph, hused, hat.congr rfl, hprogress⟩
  | unbindLoop id i length =>
    rw [hthread] at h hstep
    obtain ⟨hgraph, hused, hat, rfl, rfl⟩ := h
    simp only [Network.stepUnbindLoop] at hstep
    split_ifs at hstep with hlt
    · simp only [Option.bind_eq_bind, Option.bind_eq_some_iff] at hstep
      obtain ⟨element, helement, opposite, rfl, hstep⟩ := hstep
      cases hstep
      rw [(hat.list id).getElementN_eq i, Option.some.injEq] at helement
      exact ⟨_, lists, _, _, rfl, hgraph, hused, hat.congr rfl, List.mem_of_getElem? helement, rfl,
        rfl⟩
    · cases hstep
      exact ⟨.idle, lists, _, _, rfl, hgraph, hused, hat.congr rfl, rfl, rfl⟩
  | unbind stage id opposite i =>
    rw [hthread] at h hstep
    exact unbind_proceeds h hstep
  | send pc cout data =>
    rw [hthread] at h
    exact h.progress.elim
  | receive pc cin =>
    rw [hthread] at h
    exact h.progress.elim

/-! ### Runs -/

/-- At most one thread is in a call, and lists and tokens are as they should be there. -/
def Inv (p : Ports C) (s : Session C T Ptr) : Prop :=
  ∃ activity peers lists tokens, Within p s.created s.network activity peers lists tokens ∧
    ((s.AllIdle ∧ activity = .idle) ∨
      ∃ t, s.network.thread t = activity ∧ ∀ u ≠ t, s.network.thread u = .idle)

variable {s s' : Session C T Ptr}

omit [DecidableEq T] in
theorem inv_start : Inv p (start C T Ptr) := by
  have hempty : ∀ c d : C, d ∉ ([] : List C) := fun c d => List.not_mem_nil
  refine ⟨.idle, fun _ => [], fun _ => [], fun _ => false, ⟨?_, fun c hc => absurd rfl hc, ?_,
    rfl, rfl⟩, .inl ⟨fun t => rfl, rfl⟩⟩
  · exact ⟨fun c d hd => absurd hd (hempty c d), fun c d hd => absurd hd (hempty c d),
      fun c d hd => absurd hd (hempty c d), fun c => List.nodup_nil⟩
  · exact ⟨fun c => IteratedList.constructList_standsFor, fun c => rfl⟩

omit [DecidableEq T] in
theorem Inv.idle (h : Inv p s) (hidle : s.AllIdle) :
    ∃ peers, Within p s.created s.network .idle peers peers (full peers) := by
  obtain ⟨activity, peers, lists, tokens, hwithin, hthread⟩ := h
  have hactivity : activity = .idle := by
    rcases hthread with ⟨-, hactivity⟩ | ⟨t, ht, -⟩
    · exact hactivity
    · rw [← ht]
      exact hidle t
  subst hactivity
  obtain ⟨rfl, rfl⟩ := hwithin.progress
  exact ⟨lists, hwithin⟩

omit [DecidableEq T] in
/-- `channel_create` -/
theorem Inv.create (h : Inv p s) (hidle : s.AllIdle) (hcreated : s.created c ≠ true) :
    Inv p
      { network := s.network.modify c fun _ => channelCreate
        created := Function.update s.created c true } := by
  obtain ⟨peers, hgraph, hused, hat, -⟩ := h.idle hidle
  have hnil : peers c = [] := by
    by_contra hne
    exact hcreated (hused c hne)
  have hat' : At (s.network.modify c fun _ => channelCreate) peers (full peers) := by
    have hboth : At (s.network.modify c fun _ => channelCreate) (Function.update peers c [])
        (Function.update (full peers) c false) :=
      hat.modify IteratedList.constructList_standsFor rfl
    have hlists : Function.update peers c [] = peers := by
      rw [← hnil, Function.update_eq_self]
    have htokens : Function.update (full peers) c false = full peers := by
      have hfull : full peers c = false := by
        rw [full, hnil]
        rfl
      rw [← hfull, Function.update_eq_self]
    rwa [hlists, htokens] at hboth
  refine ⟨.idle, peers, peers, _, ⟨hgraph, fun d hd => ?_, hat', rfl, rfl⟩, .inl ⟨hidle, rfl⟩⟩
  show Function.update s.created c true d = true
  by_cases hdc : d = c
  · subst hdc
    exact Function.update_self ..
  · rw [Function.update_of_ne hdc]
    exact hused d hd

/-- An operation is called when no call is under way. -/
theorem Inv.call {network : Network C T Ptr} (h : Inv p s) (hidle : s.AllIdle)
    (hcall : s.network.call t activity = some network)
    (hprogress : ∀ peers, Progress p s.created peers activity peers (full peers)) :
    Inv p { s with network := network } := by
  obtain ⟨peers, hgraph, hused, hat, -⟩ := h.idle hidle
  unfold Network.call at hcall
  rw [hidle t] at hcall
  cases hcall
  refine ⟨activity, peers, peers, _, ⟨hgraph, hused, hat.congr rfl, hprogress peers⟩,
    .inr ⟨t, Function.update_self .., fun u hu => ?_⟩⟩
  exact (Function.update_of_ne hu ..).trans (hidle u)

theorem Inv.stepThread {network : Network C T Ptr} (h : Inv p s)
    (hstep : s.network.stepThread p t = some network) : Inv p { s with network := network } := by
  obtain ⟨activity, peers, lists, tokens, hwithin, hthread⟩ := h
  have hactive : s.network.thread t ≠ .idle := by
    intro hidle
    unfold Network.stepThread at hstep
    rw [hidle] at hstep
    cases hstep
  obtain ⟨ht, hothers⟩ : s.network.thread t = activity ∧ ∀ u ≠ t, s.network.thread u = .idle := by
    rcases hthread with ⟨hidle, -⟩ | ⟨u, hu, hothers⟩
    · exact absurd (hidle t) hactive
    · obtain rfl : t = u := by
        by_contra hne
        exact hactive (hothers t hne)
      exact ⟨hu, hothers⟩
  rw [← ht] at hwithin
  obtain ⟨activity', peers', lists', tokens', hthread', hwithin'⟩ := step_proceeds hwithin hstep
  refine ⟨activity', peers', lists', tokens', hwithin', .inr ⟨t, ?_, fun u hu => ?_⟩⟩
  · show network.thread t = activity'
    rw [hthread', Function.update_self]
  · show network.thread u = .idle
    rw [hthread', Function.update_of_ne hu]
    exact hothers u hu

theorem Inv.step {action : Action C T Ptr} (h : Inv p s) (hturn : InTurn s action)
    (hstep : s.step p action = some s') : Inv p s' := by
  cases action with
  | create c =>
    simp only [Session.step] at hstep
    split_ifs at hstep with hcreated
    cases hstep
    exact h.create hturn hcreated
  | event e =>
    simp only [Session.step] at hstep
    split_ifs at hstep with hexist
    rw [Option.map_eq_some_iff] at hstep
    obtain ⟨network, hstep, rfl⟩ := hstep
    cases e with
    | bind t id1 id2 =>
      have hcreated : s.created id1 = true ∧ s.created id2 = true := by
        simpa [exist] using hexist
      exact h.call hturn hstep fun peers => ⟨hcreated, rfl, rfl⟩
    | unbind t id => exact h.call hturn hstep fun peers => ⟨rfl, rfl⟩
    | send t cout data => exact hturn.elim
    | receive t cin => exact hturn.elim
    | step t => exact h.stepThread hstep

omit [DecidableEq T] in
/-- Both tokens that an unbinding waits for are in their place. -/
theorem Inv.not_blocked (h : Inv p s) : ¬ Blocked p s := by
  rintro ⟨t, id, opposite, i, hblocked⟩
  obtain ⟨activity, peers, lists, tokens, ⟨hgraph, hused, hat, hprogress⟩, hthread⟩ := h
  have hactive : s.network.thread t ≠ .idle → s.network.thread t = activity := by
    intro hne
    rcases hthread with ⟨hidle, -⟩ | ⟨u, hu, hothers⟩
    · exact absurd (hidle t) hne
    · obtain rfl : t = u := by
        by_contra hne'
        exact hne (hothers t hne')
      exact hu
  -- both channels have a peer
  have hfull : opposite ∈ peers id → ∀ c, c = id ∨ c = opposite → full peers c = true := by
    rintro hmem c (rfl | rfl)
    · exact full_of_mem hmem
    · exact full_of_mem (hgraph.symm id c hmem)
  rcases hblocked with ⟨hpc, hsem⟩ | ⟨hpc, hsem⟩
  · have heq := hactive (by simp [hpc])
    rw [← heq, hpc] at hprogress
    obtain ⟨hmem, -, rfl⟩ := hprogress
    rw [hat.token, hfull hmem] at hsem
    · cases hsem
    · unfold Ports.first
      split_ifs
      · exact .inl rfl
      · exact .inr rfl
  · have heq := hactive (by simp [hpc])
    rw [← heq, hpc] at hprogress
    obtain ⟨hmem, -, -, htokens⟩ := hprogress
    have hne := hgraph.ne hmem
    rw [hat.token, htokens, hfull hmem] at hsem
    · cases hsem
    · unfold Ports.second
      split_ifs
      · exact .inr rfl
      · exact .inl rfl
    · unfold Ports.first Ports.second
      split_ifs
      · exact hne.symm
      · exact hne

/-- **Behind every sequence of calls that do not overlap, the connection lists are those of a
graph and `conns_sem` of a channel is 1 exactly if the channel is connected; and no
`channel_unbind` ever waits for a token that is not there.** -/
theorem connected_of_inTurn {actions : List (Action C T Ptr)}
    (hturn : Along (Session.step p) InTurn (start C T Ptr) actions)
    (hrun : run (Session.step p) (start C T Ptr) actions = some s) :
    (s.AllIdle → ∃ peers, Connected p s peers) ∧ ¬ Blocked p s := by
  have hinv : Inv p s :=
    run_invariant (Inv p) (fun _ _ _ hs hok hstep => hs.step hok hstep) inv_start hturn hrun
  refine ⟨fun hidle => ?_, hinv.not_blocked⟩
  obtain ⟨peers, hgraph, -, hat, -⟩ := hinv.idle hidle
  refine ⟨peers, hgraph, hat.list, fun c => ?_⟩
  rw [hat.token c]
  exact full_eq_true_iff

/-- An outgoing and an incoming channel. -/
def twoPorts : Ports (Fin 2) where
  direction c := if c = 0 then .chanOut else .chanIn
  typesize _ := 4

/-- A thread creates the two channels, binds them and unbinds the first. -/
def bindAndUnbind : List (Action (Fin 2) (Fin 1) Unit) :=
  [.create 0, .create 1, .event (.bind 0 0 1)] ++ List.replicate 8 (.event (.step 0)) ++
    [.event (.unbind 0 0)] ++ List.replicate 12 (.event (.step 0))

theorem connected_of_inTurn_bindAndUnbind :
    ∃ s, run (Session.step twoPorts) (start (Fin 2) (Fin 1) Unit) bindAndUnbind = some s ∧
      s.AllIdle ∧ (∃ peers, Connected twoPorts s peers) ∧ ¬ Blocked twoPorts s := by
  have hturn : Along (Session.step twoPorts) InTurn (start (Fin 2) (Fin 1) Unit) bindAndUnbind := by
    decide +kernel
  have hidle : (run (Session.step twoPorts) (start (Fin 2) (Fin 1) Unit) bindAndUnbind).map
      (fun s => s.network.thread 0) = some .idle := by decide +kernel
  obtain ⟨s, hs, hthread⟩ := Option.map_eq_some_iff.1 hidle
  have hall : s.AllIdle := by
    intro t
    obtain rfl : t = 0 := Subsingleton.elim t 0
    exact hthread
  have hmain := connected_of_inTurn hturn hs
  exact ⟨s, hs, hall, hmain.1 hall, hmain.2⟩

end Session

end InsenseCVM
