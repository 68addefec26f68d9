import InsenseCVM.Channels.Network

/-!
# Exclusive access to a connection list

`conns_sem` of a channel is a token. A send or a receive takes it before it scans the list and posts
it behind the scan, and `channel_unbind` takes the tokens of both channels before it edits their
lists. `channel_bind` takes none: it inserts into a list whoever has the token, and posts one when
it is done. When it finds the token in its place, or the list empty, the lists are edited by nobody
else while a thread has the token.
-/

namespace InsenseCVM

/-- A send has taken `conns_sem` and has not posted it. -/
def SendPc.inSection {I : Type} : SendPc I → Bool
  | .setReady | .scan _ _ | .waitReceived _ | .postConns => true
  | _ => false

/-- A receive has taken `conns_sem` and has not posted it. -/
def ReceivePc.inSection : ReceivePc → Bool
  | .setReady | .scan _ _ | .postConns => true
  | _ => false

namespace Activity

variable {C Ptr : Type}

/-- A send or receive on `c` that is between taking `conns_sem` and posting it. -/
def InSection : Activity C Ptr → C → Prop
  | .send pc cout _, c => c = cout ∧ pc.inSection = true
  | .receive pc cin, c => c = cin ∧ pc.inSection = true
  | _, _ => False

/-- `channel_unbind` has taken `conns_sem` of `c` and has not posted it. -/
def Unbinds (p : Ports C) : Activity C Ptr → C → Prop
  | .unbind .waitFirst _ _ _, _ => False
  | .unbind .waitSecond id opposite _, c => c = p.first id opposite
  | .unbind .postSecond _ opposite _, c => c = opposite
  | .unbind _ id opposite _, c => c = id ∨ c = opposite
  | _, _ => False

/-- The thread has the token of `c`. -/
def Owns (p : Ports C) (a : Activity C Ptr) (c : C) : Prop := a.InSection c ∨ a.Unbinds p c

/-- `channel_bind` has inserted into the list of `c` and has not posted its `conns_sem`. -/
def Pending : Activity C Ptr → C → Prop
  | .bind .insertSecond id1 _, c => c = id1
  | .bind .postFirst id1 id2, c => c = id1 ∨ c = id2
  | .bind .postSecond _ id2, c => c = id2
  | _, _ => False

/-- The thread holds `conn_op_mutex`. -/
def HoldsOp : Activity C Ptr → Prop
  | .bind .lockOp _ _ => False
  | .bind _ _ _ | .unbindLoop _ _ _ | .unbind _ _ _ _ => True
  | _ => False

/-- A binding that has passed its checks is of two channels, and so is an unbinding that has both
tokens. -/
def Apart : Activity C Ptr → Prop
  | .bind .lockOp _ _ => True
  | .bind _ id1 id2 => id1 ≠ id2
  | .unbind .waitFirst _ _ _ | .unbind .waitSecond _ _ _ => True
  | .unbind _ id opposite _ => id ≠ opposite
  | _ => True

end Activity

/-- Two lists have the same nodes; only the cursor may have moved. -/
def IteratedList.SameNodes {α : Type} (l l' : IteratedList α) : Prop :=
  ∃ p, l' = { l with next := p }

namespace Endpoint

variable {C T Ptr : Type}

/-- The token is in its place, or there is none because the list is empty. -/
def Available (ch : Endpoint C T Ptr) : Prop :=
  ch.connsSem = true ∨ ch.connections.isEmpty = true

/-- The token is in its place, or there has been none because the list was empty. -/
def WasAvailable (ch : Endpoint C T Ptr) : Prop :=
  ch.connsSem = true ∨ ch.connections.getListLength = some 1

/-- Neither the nodes of the list nor the token have changed. -/
structure Quiet (ch ch' : Endpoint C T Ptr) : Prop where
  sem : ch'.connsSem = ch.connsSem
  nodes : ch.connections.SameNodes ch'.connections

end Endpoint

namespace Network

open Transition

variable {C T Ptr : Type} [DecidableEq C] [DecidableEq T]

/-- The thread whose event it is. -/
def actor : NetworkEvent C T Ptr → T
  | .bind t _ _ | .unbind t _ | .send t _ _ | .receive t _ | .step t => t

/-- `channel_bind` inserts into a list, and posts its token, only when the token is not taken. -/
def BindsAvailable (s : Network C T Ptr) : NetworkEvent C T Ptr → Prop
  | .step t =>
    match s.thread t with
    | .bind .insertFirst id1 id2 =>
      (s.channel id1).connections.containsElement id2 = some false → (s.channel id1).Available
    | .bind .insertSecond _ id2 => (s.channel id2).Available
    | .bind .postFirst id1 _ => (s.channel id1).WasAvailable
    | .bind .postSecond _ id2 => (s.channel id2).WasAvailable
    | _ => True
  | _ => True

instance (s : Network C T Ptr) : ∀ e, Decidable (BindsAvailable s e)
  | .bind _ _ _ | .unbind _ _ | .send _ _ _ | .receive _ _ => isTrue trivial
  | .step t =>
    match hthread : s.thread t with
    | .bind .insertFirst id1 id2 =>
      decidable_of_iff ((s.channel id1).connections.containsElement id2 = some false →
        (s.channel id1).connsSem = true ∨ (s.channel id1).connections.isEmpty = true)
        (by simp only [BindsAvailable, hthread, Endpoint.Available])
    | .bind .insertSecond _ id2 =>
      decidable_of_iff
        ((s.channel id2).connsSem = true ∨ (s.channel id2).connections.isEmpty = true)
        (by simp only [BindsAvailable, hthread, Endpoint.Available])
    | .bind .postFirst id1 _ =>
      decidable_of_iff
        ((s.channel id1).connsSem = true ∨ (s.channel id1).connections.getListLength = some 1)
        (by simp only [BindsAvailable, hthread, Endpoint.WasAvailable])
    | .bind .postSecond _ id2 =>
      decidable_of_iff
        ((s.channel id2).connsSem = true ∨ (s.channel id2).connections.getListLength = some 1)
        (by simp only [BindsAvailable, hthread, Endpoint.WasAvailable])
    | .bind .lockOp _ _ | .bind .lockFirst _ _ | .bind .lockSecond _ _ | .bind .unlock _ _
    | .idle | .unbindLock _ | .unbindLoop _ _ _ | .unbind _ _ _ _ | .send _ _ _ | .receive _ _ =>
      isTrue (by simp only [BindsAvailable, hthread])

/-- The step inserts into no list and removes from none while another thread is between taking the
token and posting it in a send or a receive. -/
def Undisturbed (p : Ports C) (s : Network C T Ptr) (e : NetworkEvent C T Ptr) : Prop :=
  ∀ s', step p s e = some s' → ∀ c u, u ≠ actor e → (s.thread u).InSection c →
    (s.channel c).connections.SameNodes (s'.channel c).connections

/-- No call is under way, and each channel has its token exactly if it is connected. -/
structure Initial (s : Network C T Ptr) : Prop where
  thread : ∀ t, s.thread t = .idle
  connsSem : ∀ c, (s.channel c).connsSem = !(s.channel c).connections.isEmpty

/-! ### What a step can do -/

/-- What the step of a thread `t` that is then at `activity` does to lists and tokens. -/
inductive Effect (p : Ports C) (s s' : Network C T Ptr) (t : T) (activity : Activity C Ptr) : Prop
  | quiet (hquiet : ∀ c, (s.channel c).Quiet (s'.channel c))
      (howns : ∀ c, activity.Owns p c → (s.thread t).Owns p c)
      (hsection : ∀ c, activity.InSection c → (s.thread t).InSection c)
      (hpending : ∀ c, activity.Pending c → (s.thread t).Pending c)
  | take (c : C) (hsem : (s.channel c).connsSem = true) (hsem' : (s'.channel c).connsSem = false)
      (hnodes : (s.channel c).connections.SameNodes (s'.channel c).connections)
      (hquiet : ∀ d ≠ c, (s.channel d).Quiet (s'.channel d))
      (howns : ∀ d, activity.Owns p d → (s.thread t).Owns p d ∨ d = c)
      (hsection : ∀ d, activity.InSection d → (s.thread t).InSection d ∨ d = c)
      (hpending : ∀ d, ¬ activity.Pending d)
  | give (c : C) (howner : (s.thread t).Owns p c)
      (hnonempty : (s.thread t).InSection c ∨ (s.channel c).connections.isEmpty = false)
      (hsem' : (s'.channel c).connsSem = true)
      (hnodes : (s.channel c).connections.SameNodes (s'.channel c).connections)
      (hquiet : ∀ d ≠ c, (s.channel d).Quiet (s'.channel d))
      (howns : ∀ d, activity.Owns p d → (s.thread t).Owns p d ∧ d ≠ c)
      (hsection : ∀ d, ¬ activity.InSection d) (hpending : ∀ d, ¬ activity.Pending d)
  | insert (c element : C) (hop : (s.thread t).HoldsOp) (havailable : (s.channel c).Available)
      (hsem' : (s'.channel c).connsSem = (s.channel c).connsSem)
      (hlist : (s'.channel c).connections = (s.channel c).connections.insertElement (some element))
      (hquiet : ∀ d ≠ c, (s.channel d).Quiet (s'.channel d)) (howns : ∀ d, ¬ activity.Owns p d)
      (hpending : ∀ d, activity.Pending d → (s.thread t).Pending d ∨ d = c)
  | post (c : C) (hpend : (s.thread t).Pending c) (havailable : (s.channel c).WasAvailable)
      (hop : (s.thread t).HoldsOp)
      (hsem' : (s'.channel c).connsSem = true)
      (hnodes : (s.channel c).connections.SameNodes (s'.channel c).connections)
      (hquiet : ∀ d ≠ c, (s.channel d).Quiet (s'.channel d)) (howns : ∀ d, ¬ activity.Owns p d)
      (hpending : ∀ d, activity.Pending d → (s.thread t).Pending d ∧ d ≠ c)
  | remove (c : C) (hop : (s.thread t).HoldsOp) (howner : (s.thread t).Owns p c)
      (hsem' : (s'.channel c).connsSem = (s.channel c).connsSem)
      (hquiet : ∀ d ≠ c, (s.channel d).Quiet (s'.channel d))
      (howns : ∀ d, activity.Owns p d → (s.thread t).Owns p d)
      (hsection : ∀ d, ¬ activity.InSection d) (hpending : ∀ d, ¬ activity.Pending d)

/-- What it does to `conn_op_mutex`. -/
def OpMoves (s s' : Network C T Ptr) (t : T) (activity : Activity C Ptr) : Prop :=
  (s'.connOpMutex = s.connOpMutex ∧ (activity.HoldsOp → (s.thread t).HoldsOp)) ∨
    (s.connOpMutex = none ∧ s'.connOpMutex = some t) ∨
    ((s.thread t).HoldsOp ∧ s'.connOpMutex = none ∧ ¬ activity.HoldsOp)

/-- A step of `t` to `activity`. -/
structure Moves (p : Ports C) (s s' : Network C T Ptr) (t : T) (activity : Activity C Ptr) :
    Prop where
  thread : s'.thread = Function.update s.thread t activity
  effect : Effect p s s' t activity
  op : OpMoves s s' t activity
  apart : (∀ c, (s.thread t).Owns p c → (s.channel c).connsSem = false) → (s.thread t).Apart →
    activity.Apart

variable {p : Ports C} {s s' : Network C T Ptr} {t : T} {activity : Activity C Ptr} {c : C}

omit [DecidableEq C] [DecidableEq T] in
theorem sameNodes_refl {α : Type} (l : IteratedList α) : l.SameNodes l := ⟨l.next, rfl⟩

omit [DecidableEq C] [DecidableEq T] in
theorem quiet_refl (ch : Endpoint C T Ptr) : ch.Quiet ch := ⟨rfl, sameNodes_refl _⟩

omit [DecidableEq C] [DecidableEq T] in
theorem sameNodes_getNextElement {l l' : IteratedList C} {x : Option C}
    (h : l.getNextElement = some (x, l')) : l.SameNodes l' := by
  unfold IteratedList.getNextElement at h
  split_ifs at h with hempty
  · cases h
    exact sameNodes_refl _
  · simp only [Option.bind_eq_bind, Option.bind_eq_some_iff] at h
    obtain ⟨next, -, n, -, h⟩ := h
    cases h
    exact ⟨_, rfl⟩

omit [DecidableEq C] [DecidableEq T] in
theorem Quiet.trans {a b d : Endpoint C T Ptr} (hab : a.Quiet b) (hbd : b.Quiet d) : a.Quiet d := by
  obtain ⟨q, hq⟩ := hab.nodes
  obtain ⟨r, hr⟩ := hbd.nodes
  refine ⟨hbd.sem.trans hab.sem, r, ?_⟩
  rw [hr, hq]

omit [DecidableEq T] in
/-- One more channel is changed quietly. -/
theorem quiet_modify {u : Network C T Ptr} {f : Endpoint C T Ptr → Endpoint C T Ptr}
    (hquiet : ∀ d, (s.channel d).Quiet (u.channel d))
    (hf : (u.channel c).Quiet (f (u.channel c))) (d : C) :
    (s.channel d).Quiet ((u.modify c f).channel d) := by
  by_cases hd : d = c
  · subst hd
    rw [modify_channel_self]
    exact Quiet.trans (hquiet d) hf
  · rw [modify_channel_of_ne _ _ hd]
    exact hquiet d

omit [DecidableEq T] in
theorem quiet_unlock {u : Network C T Ptr} (hquiet : ∀ d, (s.channel d).Quiet (u.channel d))
    (d : C) : (s.channel d).Quiet ((u.unlock c).channel d) :=
  quiet_modify hquiet ⟨rfl, sameNodes_refl _⟩ d

omit [DecidableEq C] in
theorem quiet_go {u : Network C T Ptr} (hquiet : ∀ d, (s.channel d).Quiet (u.channel d)) (d : C) :
    (s.channel d).Quiet ((u.go t activity).channel d) :=
  hquiet d

omit [DecidableEq C] in
/-- A step of a thread that was at `before` and changes no list and no token. -/
theorem quiet_moves {before : Activity C Ptr} (hthread : s.thread t = before)
    (hgo : s'.thread = Function.update s.thread t activity)
    (hmutex : s'.connOpMutex = s.connOpMutex)
    (hquiet : ∀ c, (s.channel c).Quiet (s'.channel c))
    (howns : ∀ c, activity.Owns p c → before.Owns p c)
    (hsection : ∀ c, activity.InSection c → before.InSection c)
    (hpending : ∀ c, activity.Pending c → before.Pending c)
    (hop : activity.HoldsOp → before.HoldsOp)
    (hapart : before.Apart → activity.Apart) : Moves p s s' t activity := by
  subst hthread
  exact ⟨hgo, .quiet hquiet howns hsection hpending, .inl ⟨hmutex, hop⟩, fun _ => hapart⟩

theorem lock_moves {before : Activity C Ptr} (hthread : s.thread t = before)
    (h : s.lock t c activity = some s')
    (howns : ∀ c, activity.Owns p c → before.Owns p c)
    (hsection : ∀ c, activity.InSection c → before.InSection c)
    (hpending : ∀ c, activity.Pending c → before.Pending c)
    (hop : activity.HoldsOp → before.HoldsOp)
    (hapart : before.Apart → activity.Apart) : Moves p s s' t activity := by
  unfold lock at h
  split_ifs at h with hfree
  cases h
  have hquiet : ∀ d, (s.channel d).Quiet
      ((s.modify c fun ch => { ch with mutex := some t }).channel d) :=
    quiet_modify (fun _ => quiet_refl _) ⟨rfl, sameNodes_refl _⟩
  exact quiet_moves hthread rfl rfl hquiet howns hsection hpending hop hapart

theorem waitConns_moves (h : s.waitConns t c activity = some s')
    (howns : ∀ d, activity.Owns p d → (s.thread t).Owns p d ∨ d = c)
    (hsection : ∀ d, activity.InSection d → (s.thread t).InSection d ∨ d = c)
    (hpending : ∀ d, ¬ activity.Pending d)
    (hop : activity.HoldsOp → (s.thread t).HoldsOp)
    (hapart : (s.channel c).connsSem = true →
      (∀ c, (s.thread t).Owns p c → (s.channel c).connsSem = false) → (s.thread t).Apart →
        activity.Apart) : Moves p s s' t activity := by
  unfold waitConns at h
  split_ifs at h with hsem
  cases h
  refine ⟨rfl, .take c hsem ?_ ?_ (fun d hd => ?_) howns hsection hpending, .inl ⟨rfl, hop⟩,
    hapart hsem⟩
  · simp
  · simpa using sameNodes_refl _
  · simpa [modify_channel_of_ne _ _ hd] using quiet_refl _

omit [DecidableEq T] in
/-- A post only changes the token of its channel. -/
theorem postConns_channel (s : Network C T Ptr) (c : C) :
    ((s.postConns c).channel c).connsSem = true ∧
      (s.channel c).connections.SameNodes ((s.postConns c).channel c).connections ∧
      ∀ d ≠ c, (s.channel d).Quiet ((s.postConns c).channel d) := by
  refine ⟨by simp [postConns], ?_, fun d hd => ?_⟩
  · simpa [postConns] using sameNodes_refl _
  · simpa [postConns, modify_channel_of_ne _ _ hd] using quiet_refl _

/-- The step of a thread that posts a token which it has taken. -/
theorem give_moves {before : Activity C Ptr} (hthread : s.thread t = before)
    (howner : before.Owns p c)
    (hnonempty : before.InSection c ∨ (s.channel c).connections.isEmpty = false)
    (howns : ∀ d, activity.Owns p d → before.Owns p d ∧ d ≠ c)
    (hsection : ∀ d, ¬ activity.InSection d) (hpending : ∀ d, ¬ activity.Pending d)
    (hop : activity.HoldsOp → before.HoldsOp) (hapart : before.Apart → activity.Apart) :
    Moves p s ((s.postConns c).go t activity) t activity := by
  subst hthread
  obtain ⟨hsem, hnodes, hquiet⟩ := postConns_channel s c
  exact ⟨rfl, .give c howner hnonempty hsem hnodes hquiet howns hsection hpending,
    .inl ⟨rfl, hop⟩, fun _ => hapart⟩

/-- The step of a binding that posts the token of a channel with a first connection. -/
theorem pend_moves {before : Activity C Ptr} (hthread : s.thread t = before)
    (hpend : before.Pending c) (havailable : (s.channel c).WasAvailable) (hop : before.HoldsOp)
    (howns : ∀ d, ¬ activity.Owns p d)
    (hpending : ∀ d, activity.Pending d → before.Pending d ∧ d ≠ c)
    (hapart : before.Apart → activity.Apart) :
    Moves p s ((s.postConns c).go t activity) t activity := by
  subst hthread
  obtain ⟨hsem, hnodes, hquiet⟩ := postConns_channel s c
  exact ⟨rfl, .post c hpend havailable hop hsem hnodes hquiet howns hpending,
    .inl ⟨rfl, fun _ => hop⟩, fun _ => hapart⟩

omit [DecidableEq C] [DecidableEq T] in
/-- A thread in `channel_bind` has no token. -/
theorem not_owns_bind {stage : BindStage} {id1 id2 : C} (c : C) :
    ¬ (Activity.bind stage id1 id2 : Activity C Ptr).Owns p c := by
  rintro (hsection | hunbinds)
  · exact hsection
  · exact hunbinds

omit [DecidableEq C] [DecidableEq T] in
theorem not_owns_idle (c : C) : ¬ (Activity.idle : Activity C Ptr).Owns p c := by
  rintro (hsection | hunbinds)
  · exact hsection
  · exact hunbinds

/-- A step of `channel_bind`. -/
theorem bind_moves {id1 id2 : C} {stage : BindStage} (hthread : s.thread t = .bind stage id1 id2)
    (hok : BindsAvailable s (.step t)) (hapart : (s.thread t).Apart)
    (h : s.stepBind p t id1 id2 stage = some s') :
    ∃ activity, Moves p s s' t activity := by
  simp only [BindsAvailable, hthread] at hok
  rw [hthread] at hapart
  have hidle : ∀ c, (Activity.idle : Activity C Ptr).Owns p c → (s.thread t).Owns p c :=
    fun c hc => absurd hc (not_owns_idle c)
  cases stage with
  | lockOp =>
    simp only [stepBind] at h
    split_ifs at h with hheld hdirection hsize
    · cases h
      exact ⟨.idle, quiet_moves hthread rfl rfl (fun c => quiet_refl _)
        (fun c hc => absurd hc (not_owns_idle c)) (fun c hc => hc.elim) (fun c hc => hc.elim)
        False.elim fun _ => trivial⟩
    · cases h
      exact ⟨.idle, quiet_moves hthread rfl rfl (fun c => quiet_refl _)
        (fun c hc => absurd hc (not_owns_idle c)) (fun c hc => hc.elim) (fun c hc => hc.elim)
        False.elim fun _ => trivial⟩
    · cases h
      refine ⟨_, rfl, .quiet (fun c => quiet_refl _) (fun c hc => absurd hc (not_owns_bind c))
        (fun c hc => hc.elim) (fun c hc => hc.elim), .inr (.inl ⟨?_, rfl⟩), fun _ _ => ?_⟩
      · simpa using hheld
      · rintro rfl
        exact hdirection rfl
  | lockFirst =>
    exact ⟨_, lock_moves hthread h (fun c hc => absurd hc (not_owns_bind c)) (fun c hc => hc.elim)
      (fun c hc => hc.elim) id id⟩
  | lockSecond =>
    exact ⟨_, lock_moves hthread h (fun c hc => absurd hc (not_owns_bind c)) (fun c hc => hc.elim)
      (fun c hc => hc.elim) id id⟩
  | insertFirst =>
    simp only [stepBind, Option.bind_eq_bind, Option.bind_eq_some_iff] at h
    obtain ⟨contained, hcontains, h⟩ := h
    have hop : (s.thread t).HoldsOp := by
      rw [hthread]
      trivial
    split_ifs at h with htrue
    · cases h
      exact ⟨.idle, rfl, .quiet (fun c => quiet_refl _) hidle (fun c hc => hc.elim)
        (fun c hc => hc.elim), .inr (.inr ⟨hop, rfl, id⟩), fun _ _ => trivial⟩
    · cases h
      have hfalse : contained = false := by simpa using htrue
      rw [hfalse] at hcontains
      refine ⟨_, rfl, .insert id1 id2 hop (hok hcontains) ?_ ?_ (fun d hd => ?_) not_owns_bind
        (fun d hd => .inr hd), .inl ⟨rfl, fun _ => hop⟩, fun _ _ => hapart⟩
      · simp
      · simp
      · simpa [modify_channel_of_ne _ _ hd] using quiet_refl _
  | insertSecond =>
    simp only [stepBind] at h
    cases h
    have hop : (s.thread t).HoldsOp := by
      rw [hthread]
      trivial
    refine ⟨_, rfl, .insert id2 id1 hop hok ?_ ?_ (fun d hd => ?_) not_owns_bind
      (fun d hd => ?_), .inl ⟨rfl, fun _ => hop⟩, fun _ _ => hapart⟩
    · simp
    · simp
    · simpa [modify_channel_of_ne _ _ hd] using quiet_refl _
    · rw [hthread]
      exact hd
  | postFirst =>
    simp only [stepBind] at h
    cases h
    refine ⟨_, pend_moves hthread (.inl rfl) hok trivial not_owns_bind (fun d hd => ?_) id⟩
    obtain rfl : d = id2 := hd
    exact ⟨.inr rfl, fun heq => hapart heq.symm⟩
  | postSecond =>
    simp only [stepBind] at h
    cases h
    exact ⟨_, pend_moves hthread rfl hok trivial not_owns_bind (fun d hd => hd.elim) id⟩
  | unlock =>
    simp only [stepBind] at h
    cases h
    have hop : (s.thread t).HoldsOp := by
      rw [hthread]
      trivial
    refine ⟨.idle, rfl, .quiet (fun c => ?_) hidle (fun c hc => hc.elim) (fun c hc => hc.elim),
      .inr (.inr ⟨hop, rfl, id⟩), fun _ _ => trivial⟩
    exact quiet_unlock (quiet_unlock fun d => quiet_refl _) c

/-- A step of `channel_unbind` in the body of its loop. -/
theorem unbind_moves {id opposite : C} {i : ℕ} {stage : UnbindStage}
    (hthread : s.thread t = .unbind stage id opposite i) (hapart : (s.thread t).Apart)
    (h : s.stepUnbind p t id opposite i stage = some s') :
    ∃ activity, Moves p s s' t activity := by
  have hop : (s.thread t).HoldsOp := by
    rw [hthread]
    trivial
  cases stage with
  | waitFirst =>
    refine ⟨_, waitConns_moves h (fun d hd => ?_) (fun d hd => hd.elim) (fun d hd => hd)
      (fun _ => hop) fun _ _ _ => trivial⟩
    rcases hd with hsection | hunbinds
    · exact hsection.elim
    · exact .inr hunbinds
  | waitSecond =>
    refine ⟨_, waitConns_moves h (fun d hd => ?_) (fun d hd => hd.elim) (fun d hd => hd)
      (fun _ => hop) fun hsem hfalse _ => ?_⟩
    · rcases hd with hsection | hunbinds
      · exact hsection.elim
      · rw [hthread]
        -- it has the first token and takes the second
        have hd : d = p.first id opposite ∨ d = p.second id opposite := by
          unfold Ports.first Ports.second
          split_ifs
          · exact hunbinds
          · exact hunbinds.symm
        rcases hd with hd | hd
        · exact .inl (.inr hd)
        · exact .inr hd
    · -- a token that is taken and one that is there are of two channels
      have hfirst : (s.channel (p.first id opposite)).connsSem = false := by
        apply hfalse
        rw [hthread]
        exact .inr rfl
      rintro rfl
      unfold Ports.first at hfirst
      unfold Ports.second at hsem
      rw [ite_self] at hfirst hsem
      exact absurd (hsem.symm.trans hfirst) (by decide)
  | lockFirst =>
    exact ⟨_, lock_moves hthread h (fun c hc => hc) (fun c hc => hc) (fun c hc => hc)
      (fun hop => hop) fun hapart => hapart⟩
  | lockSecond =>
    exact ⟨_, lock_moves hthread h (fun c hc => hc) (fun c hc => hc) (fun c hc => hc)
      (fun hop => hop) fun hapart => hapart⟩
  | removeFirst =>
    simp only [stepUnbind, Option.bind_eq_bind, Option.bind_eq_some_iff] at h
    obtain ⟨connections, -, h⟩ := h
    cases h
    refine ⟨_, rfl, .remove id hop ?_ ?_ (fun d hd => ?_) (fun d hd => ?_) (fun d hd => hd)
      (fun d hd => hd), .inl ⟨rfl, fun _ => hop⟩, fun _ hapart => ?_⟩
    · rw [hthread]
      exact .inr (.inl rfl)
    · simp
    · simpa [modify_channel_of_ne _ _ hd] using quiet_refl _
    · rw [hthread]
      exact hd
    · rw [hthread] at hapart
      exact hapart
  | removeSecond =>
    simp only [stepUnbind, Option.bind_eq_bind, Option.bind_eq_some_iff] at h
    obtain ⟨connections, -, h⟩ := h
    cases h
    refine ⟨_, rfl, .remove opposite hop ?_ ?_ (fun d hd => ?_) (fun d hd => ?_) (fun d hd => hd)
      (fun d hd => hd), .inl ⟨rfl, fun _ => hop⟩, fun _ hapart => ?_⟩
    · rw [hthread]
      exact .inr (.inr rfl)
    · simp
    · simpa [modify_channel_of_ne _ _ hd] using quiet_refl _
    · rw [hthread]
      exact hd
    · rw [hthread] at hapart
      exact hapart
  | unlock =>
    simp only [stepUnbind] at h
    cases h
    exact ⟨_, quiet_moves hthread rfl rfl (quiet_unlock (quiet_unlock fun d => quiet_refl _))
      (fun c hc => hc) (fun c hc => hc) (fun c hc => hc)
      (fun hop => hop) fun hapart => hapart⟩
  | postFirst =>
    simp only [stepUnbind] at h
    rw [hthread] at hapart
    split_ifs at h with hempty
    · cases h
      refine ⟨_, quiet_moves hthread rfl rfl (fun c => quiet_refl _) (fun c hc => ?_)
        (fun c hc => hc) (fun c hc => hc)
      (fun hop => hop) fun hapart => hapart⟩
      rcases hc with hsection | hunbinds
      · exact hsection.elim
      · exact .inr (.inr hunbinds)
    · cases h
      refine ⟨_, give_moves hthread (.inr (.inl rfl)) (.inr (by simpa using hempty))
        (fun d hd => ?_) (fun d hd => hd) (fun d hd => hd) (fun hop => hop) fun hapart => hapart⟩
      rcases hd with hsection | hunbinds
      · exact hsection.elim
      · obtain rfl : d = opposite := hunbinds
        exact ⟨.inr (.inr rfl), fun heq => hapart heq.symm⟩
  | postSecond =>
    simp only [stepUnbind, Option.bind_eq_bind, Option.bind_eq_some_iff] at h
    obtain ⟨length, -, h⟩ := h
    have hnone : ∀ c, ¬ (Activity.unbindLoop id (i + 1) length : Activity C Ptr).Owns p c := by
      rintro c (hsection | hunbinds)
      · exact hsection
      · exact hunbinds
    split_ifs at h with hempty
    · cases h
      exact ⟨_, quiet_moves hthread rfl rfl (fun c => quiet_refl _)
        (fun c hc => absurd hc (hnone c)) (fun c hc => hc) (fun c hc => hc)
        (fun hop => hop) fun _ => trivial⟩
    · cases h
      exact ⟨_, give_moves hthread (.inr rfl) (.inr (by simpa using hempty))
        (fun d hd => absurd hd (hnone d)) (fun d hd => hd) (fun d hd => hd) (fun hop => hop)
        fun _ => trivial⟩

/-- A match changes neither the list nor the token of a channel. -/
def Keeps (ch ch' : Channel C Ptr) : Prop :=
  ch'.connsSem = ch.connsSem ∧ ch'.connections = ch.connections

omit [DecidableEq C] in
theorem sendMatch_keeps {cout receiver : Channel C Ptr} {pair : Channel C Ptr × Channel C Ptr}
    (h : Channels.sendMatch cout receiver = some pair) :
    Keeps cout pair.1 ∧ Keeps receiver pair.2 := by
  unfold Channels.sendMatch at h
  split_ifs at h with hready
  cases h
  exact ⟨⟨rfl, rfl⟩, rfl, rfl⟩

omit [DecidableEq C] in
theorem receiveMatch_keeps {cin sender : Channel C Ptr} {pair : Channel C Ptr × Channel C Ptr}
    (h : Channels.receiveMatch cin sender = some pair) :
    Keeps cin pair.1 ∧ Keeps sender pair.2 := by
  unfold Channels.receiveMatch at h
  split_ifs at h with hready
  cases h
  exact ⟨⟨rfl, rfl⟩, rfl, rfl⟩

omit [DecidableEq T] in
theorem quiet_cursor {connections : IteratedList C}
    (h : (s.channel c).connections.SameNodes connections) (d : C) :
    (s.channel d).Quiet
      ((s.modify c fun ch => { ch with connections := connections }).channel d) :=
  quiet_modify (fun _ => quiet_refl _) ⟨rfl, h⟩ d

omit [DecidableEq T] in
theorem quiet_match {u : Network C T Ptr} {a b : C} {ca cb : Channel C Ptr}
    (hquiet : ∀ d, (s.channel d).Quiet (u.channel d)) (ha : Keeps (u.channel a).toChannel ca)
    (hb : Keeps (u.channel b).toChannel cb) (d : C) :
    (s.channel d).Quiet (((u.modify a fun ch => { ch with toChannel := ca }).modify b
      fun ch => { ch with toChannel := cb }).channel d) := by
  have hnodes : ∀ {ch ch' : Channel C Ptr}, Keeps ch ch' →
      ch.connections.SameNodes ch'.connections := by
    intro ch ch' hkeeps
    rw [hkeeps.2]
    exact sameNodes_refl _
  by_cases hd : d = b
  · subst hd
    rw [modify_channel_self]
    exact Quiet.trans (hquiet d) ⟨hb.1, hnodes hb⟩
  · rw [modify_channel_of_ne _ _ hd]
    exact quiet_modify hquiet ⟨ha.1, hnodes ha⟩ d

/-- A send or a receive posts the token that it has taken. -/
theorem post_moves {before : Activity C Ptr} (hthread : s.thread t = before)
    (howner : before.InSection c) (howns : ∀ d, ¬ activity.Owns p d)
    (hpending : ∀ d, ¬ activity.Pending d) (hop : ¬ activity.HoldsOp) (hapart : activity.Apart) :
    Moves p s ((s.postConns c).go t activity) t activity :=
  give_moves hthread (.inl howner) (.inl howner) (fun d hd => absurd hd (howns d))
    (fun d hd => howns d (.inl hd)) hpending (fun h => absurd h hop) fun _ => hapart

/-- A step of `channel_send`. -/
theorem send_moves {cout : C} {data : Ptr} {pc : SendPc C}
    (hthread : s.thread t = .send pc cout data) (h : s.stepSend t cout data pc = some s') :
    ∃ activity, Moves p s s' t activity := by
  obtain ⟨u, activity, hstep, rfl⟩ := sendStep_of_stepSend h
  refine ⟨activity, ?_⟩
  cases hstep with
  | waitConns hsem =>
    refine waitConns_moves (if_pos hsem) (fun d hd => ?_) (fun d hd => .inr hd.1) (fun d hd => hd)
      (fun hop => hop.elim) fun _ _ _ => trivial
    rcases hd with hsection | hunbinds
    · exact .inr hsection.1
    · exact hunbinds.elim
  | setReady length =>
    exact quiet_moves hthread rfl rfl
      (quiet_go (quiet_modify (fun _ => quiet_refl _) ⟨rfl, sameNodes_refl _⟩))
      (fun c hc => hc) (fun c hc => hc) (fun c hc => hc) id id
  | taken i length receiver connections pair hget hmatch =>
    obtain ⟨hcout, hreceiver⟩ := sendMatch_keeps hmatch
    exact quiet_moves hthread rfl rfl
      (quiet_go (quiet_match (quiet_cursor (sameNodes_getNextElement hget)) hcout hreceiver))
      (fun c hc => hc) (fun c hc => hc) (fun c hc => hc) id id
  | passed i length receiver connections hget =>
    exact quiet_moves hthread rfl rfl (quiet_go (quiet_cursor (sameNodes_getNextElement hget)))
      (fun c hc => hc) (fun c hc => hc) (fun c hc => hc) id id
  | scanned i length =>
    refine post_moves hthread ⟨rfl, rfl⟩ (fun d hd => ?_) (fun d hd => hd) (fun hop => hop) trivial
    rcases hd with hsection | hunbinds
    · cases hsection.2
    · exact hunbinds
  | acknowledged receiver =>
    exact quiet_moves hthread rfl rfl
      (quiet_go (quiet_modify (fun _ => quiet_refl _) ⟨rfl, sameNodes_refl _⟩))
      (fun c hc => hc) (fun c hc => hc) (fun c hc => hc) id id
  | returned =>
    exact post_moves hthread ⟨rfl, rfl⟩ not_owns_idle (fun d hd => hd) (fun hop => hop) trivial
  | woken =>
    exact quiet_moves hthread rfl rfl
      (quiet_go (quiet_modify (fun _ => quiet_refl _) ⟨rfl, sameNodes_refl _⟩))
      (fun c hc => absurd hc (not_owns_idle c)) (fun c hc => hc.elim) (fun c hc => hc) id id

/-- A step of `channel_receive`. -/
theorem receive_moves {cin : C} {pc : ReceivePc} (hthread : s.thread t = .receive pc cin)
    (h : s.stepReceive t cin pc = some s') : ∃ activity, Moves p s s' t activity := by
  obtain ⟨u, activity, hstep, rfl⟩ := receiveStep_of_stepReceive h
  refine ⟨activity, ?_⟩
  cases hstep with
  | waitConns hsem =>
    refine waitConns_moves (if_pos hsem) (fun d hd => ?_) (fun d hd => .inr hd.1) (fun d hd => hd)
      (fun hop => hop.elim) fun _ _ _ => trivial
    rcases hd with hsection | hunbinds
    · exact .inr hsection.1
    · exact hunbinds.elim
  | setReady length =>
    exact quiet_moves hthread rfl rfl
      (quiet_go (quiet_modify (fun _ => quiet_refl _) ⟨rfl, sameNodes_refl _⟩))
      (fun c hc => hc) (fun c hc => hc) (fun c hc => hc) id id
  | taken i length sender connections pair hget hmatch =>
    obtain ⟨hcin, hsender⟩ := receiveMatch_keeps hmatch
    exact quiet_moves hthread rfl rfl
      (quiet_go (quiet_match (quiet_cursor (sameNodes_getNextElement hget)) hcin hsender))
      (fun c hc => hc) (fun c hc => hc) (fun c hc => hc) id id
  | passed i length sender connections hget =>
    exact quiet_moves hthread rfl rfl (quiet_go (quiet_cursor (sameNodes_getNextElement hget)))
      (fun c hc => hc) (fun c hc => hc) (fun c hc => hc) id id
  | scanned i length =>
    refine post_moves hthread ⟨rfl, rfl⟩ (fun d hd => ?_) (fun d hd => hd) (fun hop => hop) trivial
    rcases hd with hsection | hunbinds
    · cases hsection.2
    · exact hunbinds
  | returned =>
    exact post_moves hthread ⟨rfl, rfl⟩ not_owns_idle (fun d hd => hd) (fun hop => hop) trivial
  | woken =>
    refine quiet_moves hthread rfl rfl
      (quiet_go (quiet_modify (fun _ => quiet_refl _) ⟨rfl, sameNodes_refl _⟩))
      (fun c hc => ?_) (fun c hc => ?_) (fun c hc => hc) id id
    · rcases hc with hsection | hunbinds
      · cases hsection.2
      · exact hunbinds.elim
    · cases hc.2
  | copied =>
    refine quiet_moves hthread rfl rfl (fun c => quiet_refl _) (fun c hc => ?_)
      (fun c hc => ?_) (fun c hc => hc) id id
    · rcases hc with hsection | hunbinds
      · cases hsection.2
      · exact hunbinds.elim
    · cases hc.2
  | posted =>
    exact quiet_moves hthread rfl rfl
      (quiet_go (quiet_modify (fun _ => quiet_refl _) ⟨rfl, sameNodes_refl _⟩))
      (fun c hc => absurd hc (not_owns_idle c)) (fun c hc => hc.elim) (fun c hc => hc) id id

omit [DecidableEq C] in
theorem call_moves (h : s.call t activity = some s') (howns : ∀ c, ¬ activity.Owns p c)
    (hpending : ∀ c, ¬ activity.Pending c) (hop : ¬ activity.HoldsOp) (hapart : activity.Apart) :
    Moves p s s' t activity := by
  unfold call at h
  cases hthread : s.thread t with
  | idle =>
    rw [hthread] at h
    cases h
    exact ⟨rfl, .quiet (fun c => quiet_refl _) (fun c hc => absurd hc (howns c))
      (fun c hc => absurd (.inl hc) (howns c)) (fun c hc => absurd hc (hpending c)),
      .inl ⟨rfl, fun h => absurd h hop⟩, fun _ _ => hapart⟩
  | bind | unbindLock | unbindLoop | unbind | send | receive =>
    rw [hthread] at h
    cases h

/-- One event is a step of its thread. -/
theorem step_moves {e : NetworkEvent C T Ptr} (h : step p s e = some s')
    (hok : BindsAvailable s e) (hapart : (s.thread (actor e)).Apart) :
    ∃ activity, Moves p s s' (actor e) activity := by
  cases e with
  | bind t id1 id2 =>
    exact ⟨_, call_moves h not_owns_bind (fun c hc => hc) (fun hop => hop) trivial⟩
  | unbind t id =>
    refine ⟨_, call_moves h (fun c hc => ?_) (fun c hc => hc) (fun hop => hop) trivial⟩
    rcases hc with hsection | hunbinds
    · exact hsection
    · exact hunbinds
  | send t cout data =>
    refine ⟨_, call_moves h (fun c hc => ?_) (fun c hc => hc) (fun hop => hop) trivial⟩
    rcases hc with hsection | hunbinds
    · cases hsection.2
    · exact hunbinds
  | receive t cin =>
    refine ⟨_, call_moves h (fun c hc => ?_) (fun c hc => hc) (fun hop => hop) trivial⟩
    rcases hc with hsection | hunbinds
    · cases hsection.2
    · exact hunbinds
  | step t =>
    simp only [step, stepThread] at h
    simp only [actor] at hapart ⊢
    cases hthread : s.thread t with
    | idle =>
      rw [hthread] at h
      cases h
    | bind stage id1 id2 =>
      rw [hthread] at h
      exact bind_moves hthread hok hapart h
    | unbindLock id =>
      rw [hthread] at h
      simp only [stepUnbindLock] at h
      split_ifs at h with hheld
      simp only [Option.bind_eq_bind, Option.bind_eq_some_iff] at h
      obtain ⟨length, -, h⟩ := h
      cases h
      refine ⟨_, rfl, .quiet (fun c => quiet_refl _) (fun c hc => ?_) (fun c hc => hc.elim)
        (fun c hc => hc.elim), .inr (.inl ⟨by simpa using hheld, rfl⟩), fun _ _ => trivial⟩
      rcases hc with hsection | hunbinds
      · exact hsection.elim
      · exact hunbinds.elim
    | unbindLoop id i length =>
      have hop : (s.thread t).HoldsOp := by
        rw [hthread]
        trivial
      rw [hthread] at h
      simp only [stepUnbindLoop] at h
      split_ifs at h with hlt
      · simp only [Option.bind_eq_bind, Option.bind_eq_some_iff] at h
        obtain ⟨element, -, opposite, rfl, h⟩ := h
        cases h
        refine ⟨_, rfl, .quiet (fun c => quiet_refl _) (fun c hc => ?_) (fun c hc => hc.elim)
          (fun c hc => hc.elim), .inl ⟨rfl, fun _ => hop⟩, fun _ _ => trivial⟩
        rcases hc with hsection | hunbinds
        · exact hsection.elim
        · exact hunbinds.elim
      · cases h
        exact ⟨.idle, rfl, .quiet (fun c => quiet_refl _) (fun c hc => absurd hc (not_owns_idle c))
          (fun c hc => hc.elim) (fun c hc => hc.elim), .inr (.inr ⟨hop, rfl, fun h => h⟩),
          fun _ _ => trivial⟩
    | unbind stage id opposite i =>
      rw [hthread] at h
      exact unbind_moves hthread hapart h
    | send pc cout data =>
      rw [hthread] at h
      exact send_moves hthread h
    | receive pc cin =>
      rw [hthread] at h
      exact receive_moves hthread h

/-! ### The invariant -/

/-- What is owed to a channel that `channel_bind` has inserted into and not posted. -/
def Pended (p : Ports C) (s : Network C T Ptr) (c : C) : Prop :=
  (s.channel c).connections.isEmpty = false ∧
    ((s.channel c).connections.getListLength = some 1 →
      (s.channel c).connsSem = false ∧ ∀ u, ¬ (s.thread u).Owns p c)

/-- `conn_op_mutex` and the tokens. -/
structure Inv (p : Ports C) (s : Network C T Ptr) : Prop where
  op : ∀ t, (s.thread t).HoldsOp → s.connOpMutex = some t
  token : ∀ c t, (s.thread t).Owns p c →
    (s.channel c).connsSem = false ∧ ∀ u, (s.thread u).Owns p c → u = t
  connected : ∀ c, (s.channel c).connsSem = true → (s.channel c).connections.isEmpty = false
  inSection : ∀ c t, (s.thread t).InSection c → (s.channel c).connections.isEmpty = false
  pending : ∀ c t, (s.thread t).Pending c → Pended p s c
  apart : ∀ t, (s.thread t).Apart

omit [DecidableEq C] [DecidableEq T] in
theorem Initial.inv (h : Initial s) : Inv p s where
  op t ht := by
    rw [h.thread t] at ht
    exact ht.elim
  token c t ht := by
    rw [h.thread t] at ht
    exact absurd ht (not_owns_idle c)
  connected c hsem := by
    rw [h.connsSem c] at hsem
    simpa using hsem
  inSection c t ht := by
    rw [h.thread t] at ht
    exact ht.elim
  pending c t ht := by
    rw [h.thread t] at ht
    exact ht.elim
  apart t := by
    rw [h.thread t]
    trivial

omit [DecidableEq C] [DecidableEq T] in
theorem sameNodes_isEmpty {l l' : IteratedList C} (h : l.SameNodes l') : l'.isEmpty = l.isEmpty := by
  obtain ⟨q, rfl⟩ := h
  rfl

omit [DecidableEq C] [DecidableEq T] in
theorem sameNodes_getListLength {l l' : IteratedList C} (h : l.SameNodes l') :
    l'.getListLength = l.getListLength := by
  obtain ⟨q, rfl⟩ := h
  rfl

omit [DecidableEq C] [DecidableEq T] in
theorem isEmpty_insertElement (l : IteratedList C) (x : C) :
    (l.insertElement (some x)).isEmpty = false := by
  simp [IteratedList.insertElement, IteratedList.isEmpty]

omit [DecidableEq C] [DecidableEq T] in
theorem le_lengthFrom {heap : Linked.Heap C} {fuel : ℕ} {q : Option ℕ} {count length : ℕ}
    (h : IteratedList.lengthFrom heap fuel q count = some length) : count ≤ length := by
  induction fuel generalizing q count with
  | zero =>
    cases q with
    | none =>
      simp only [IteratedList.lengthFrom, Option.some.injEq] at h
      omega
    | some a => cases h
  | succ fuel ih =>
    cases q with
    | none =>
      simp only [IteratedList.lengthFrom, Option.some.injEq] at h
      omega
    | some a =>
      simp only [IteratedList.lengthFrom, Option.bind_eq_bind, Option.bind_eq_some_iff] at h
      obtain ⟨n, -, h⟩ := h
      have hle := ih h
      omega

omit [DecidableEq C] [DecidableEq T] in
/-- A list that was not empty has more than one element after an insertion. -/
theorem getListLength_insertElement {l : IteratedList C} {x : C} (h : l.isEmpty = false) :
    (l.insertElement (some x)).getListLength ≠ some 1 := by
  intro hlength
  obtain ⟨a, ha⟩ : ∃ a, l.first = some a := by
    cases hfirst : l.first with
    | none => simp [IteratedList.isEmpty, hfirst] at h
    | some a => exact ⟨a, rfl⟩
  simp only [IteratedList.insertElement_eq, IteratedList.getListLength, IteratedList.lengthFrom, ha,
    Function.update_self, Option.bind_eq_bind, Option.bind_some, Option.bind_eq_some_iff] at hlength
  obtain ⟨n, -, hlength⟩ := hlength
  have hle := le_lengthFrom hlength
  omega

omit [DecidableEq C] [DecidableEq T] in
theorem holdsOp_of_unbinds (h : activity.Unbinds p c) : activity.HoldsOp := by
  cases activity with
  | unbind stage id opposite i => trivial
  | idle | bind | unbindLock | unbindLoop | send | receive => exact h.elim

omit [DecidableEq C] [DecidableEq T] in
theorem holdsOp_of_pending (h : activity.Pending c) : activity.HoldsOp := by
  cases activity with
  | bind stage id1 id2 =>
    cases stage with
    | lockOp => exact h.elim
    | lockFirst | lockSecond | insertFirst | insertSecond | postFirst | postSecond | unlock => trivial
  | idle | unbind | unbindLock | unbindLoop | send | receive => exact h.elim

omit [DecidableEq C] [DecidableEq T] in
/-- Only one thread is in a binding or an unbinding. -/
theorem Inv.op_unique (h : Inv p s) {u : T} (ht : (s.thread t).HoldsOp)
    (hu : (s.thread u).HoldsOp) : u = t := by
  have hmutex := h.op t ht
  rw [h.op u hu] at hmutex
  exact Option.some.inj hmutex

omit [DecidableEq C] [DecidableEq T] in
/-- A token in its place has no owner. -/
theorem Inv.not_owns (h : Inv p s) (hsem : (s.channel c).connsSem = true) (u : T) :
    ¬ (s.thread u).Owns p c := by
  intro howns
  rw [(h.token c u howns).1] at hsem
  cases hsem

omit [DecidableEq C] in
/-- The threads behind a step. -/
theorem Moves.cases_thread (h : Moves p s s' t activity) (u : T) :
    (u = t ∧ s'.thread u = activity) ∨ (u ≠ t ∧ s'.thread u = s.thread u) := by
  rw [h.thread]
  by_cases hu : u = t
  · subst hu
    exact .inl ⟨rfl, Function.update_self ..⟩
  · exact .inr ⟨hu, Function.update_of_ne hu ..⟩

omit [DecidableEq C] in
/-- The other threads have the tokens that they had. -/
theorem Moves.owns_before (h : Moves p s s' t activity)
    (hself : activity.Owns p c → (s.thread t).Owns p c) (u : T) (hu : (s'.thread u).Owns p c) :
    (s.thread u).Owns p c := by
  rcases h.cases_thread u with ⟨rfl, heq⟩ | ⟨-, heq⟩
  · rw [heq] at hu
    exact hself hu
  · rwa [heq] at hu

omit [DecidableEq C] in
theorem Inv.op_step (h : Inv p s) (hmoves : Moves p s s' t activity) (u : T)
    (hu : (s'.thread u).HoldsOp) : s'.connOpMutex = some u := by
  rcases hmoves.cases_thread u with ⟨rfl, heq⟩ | ⟨hne, heq⟩
  · rw [heq] at hu
    rcases hmoves.op with ⟨hmutex, hop⟩ | ⟨-, hmutex⟩ | ⟨-, -, hnot⟩
    · rw [hmutex]
      exact h.op u (hop hu)
    · exact hmutex
    · exact absurd hu hnot
  · rw [heq] at hu
    have hmutex' := h.op u hu
    rcases hmoves.op with ⟨hmutex, -⟩ | ⟨hnone, -⟩ | ⟨hop, -, -⟩
    · rw [hmutex]
      exact hmutex'
    · rw [hnone] at hmutex'
      cases hmutex'
    · exact absurd (h.op_unique hop hu) hne

omit [DecidableEq C] [DecidableEq T] in
/-- Where nobody has got a token, tokens are where they were. -/
theorem Inv.token_of_owns (h : Inv p s) {c : C}
    (hsem : (s'.channel c).connsSem = (s.channel c).connsSem)
    (howns : ∀ u, (s'.thread u).Owns p c → (s.thread u).Owns p c) (u : T)
    (hu : (s'.thread u).Owns p c) :
    (s'.channel c).connsSem = false ∧ ∀ v, (s'.thread v).Owns p c → v = u := by
  obtain ⟨hfalse, hunique⟩ := h.token c u (howns u hu)
  exact ⟨hsem.trans hfalse, fun v hv => hunique v (howns v hv)⟩

omit [DecidableEq C] in
theorem Inv.token_step (h : Inv p s) (hmoves : Moves p s s' t activity) (c : C) (u : T)
    (hu : (s'.thread u).Owns p c) :
    (s'.channel c).connsSem = false ∧ ∀ v, (s'.thread v).Owns p c → v = u := by
  have hthread := hmoves.owns_before (c := c)
  cases hmoves.effect with
  | quiet hquiet howns _ _ => exact h.token_of_owns (hquiet c).sem (hthread (howns c)) u hu
  | take d hsem hsem' _ hquiet howns _ _ =>
    by_cases hc : c = d
    · subst hc
      -- the token was in its place, so only the acting thread has it now
      have hself : ∀ v, (s'.thread v).Owns p c → v = t := by
        intro v hv
        rcases hmoves.cases_thread v with ⟨rfl, -⟩ | ⟨-, heq⟩
        · rfl
        · rw [heq] at hv
          exact absurd hv (h.not_owns hsem v)
      exact ⟨hsem', fun v hv => (hself v hv).trans (hself u hu).symm⟩
    · exact h.token_of_owns (hquiet c hc).sem
        (hthread fun hown => (howns c hown).resolve_right hc) u hu
  | give d howner _ hsem' _ hquiet howns _ _ =>
    by_cases hc : c = d
    · subst hc
      rcases hmoves.cases_thread u with ⟨rfl, heq⟩ | ⟨hne, heq⟩
      · rw [heq] at hu
        exact absurd rfl (howns c hu).2
      · rw [heq] at hu
        exact absurd ((h.token c t howner).2 u hu) hne
    · exact h.token_of_owns (hquiet c hc).sem (hthread fun hown => (howns c hown).1) u hu
  | insert d _ _ _ hsem' _ hquiet howns _ =>
    have hold := hthread fun hown => absurd hown (howns c)
    by_cases hc : c = d
    · subst hc
      exact h.token_of_owns hsem' hold u hu
    · exact h.token_of_owns (hquiet c hc).sem hold u hu
  | post d hpend havailable _ hsem' _ hquiet howns _ =>
    have hold := hthread fun hown => absurd hown (howns c)
    by_cases hc : c = d
    · subst hc
      -- nobody had the token that is posted beside the connection
      have hnone : ¬ (s.thread u).Owns p c := by
        rcases havailable with hsem | hlength
        · exact h.not_owns hsem u
        · exact ((h.pending c t hpend).2 hlength).2 u
      exact absurd (hold u hu) hnone
    · exact h.token_of_owns (hquiet c hc).sem hold u hu
  | remove d _ _ hsem' hquiet howns _ _ =>
    have hold := hthread (howns c)
    by_cases hc : c = d
    · subst hc
      exact h.token_of_owns hsem' hold u hu
    · exact h.token_of_owns (hquiet c hc).sem hold u hu

omit [DecidableEq C] [DecidableEq T] in
theorem quiet_connected (h : Inv p s) {c : C} (hquiet : (s.channel c).Quiet (s'.channel c))
    (hsem : (s'.channel c).connsSem = true) : (s'.channel c).connections.isEmpty = false := by
  rw [sameNodes_isEmpty hquiet.nodes]
  exact h.connected c (hquiet.sem.symm.trans hsem)

omit [DecidableEq C] in
theorem Inv.connected_step (h : Inv p s) (hmoves : Moves p s s' t activity) (c : C)
    (hsem : (s'.channel c).connsSem = true) : (s'.channel c).connections.isEmpty = false := by
  cases hmoves.effect with
  | quiet hquiet _ _ _ => exact quiet_connected h (hquiet c) hsem
  | take d _ hsem' _ hquiet _ _ _ =>
    by_cases hc : c = d
    · subst hc
      exact absurd (hsem.symm.trans hsem') (by decide)
    · exact quiet_connected h (hquiet c hc) hsem
  | give d _ hnonempty _ hnodes hquiet _ _ _ =>
    by_cases hc : c = d
    · subst hc
      rw [sameNodes_isEmpty hnodes]
      rcases hnonempty with hsection | hnonempty
      · exact h.inSection c t hsection
      · exact hnonempty
    · exact quiet_connected h (hquiet c hc) hsem
  | insert d element _ _ _ hlist hquiet _ _ =>
    by_cases hc : c = d
    · subst hc
      rw [hlist]
      exact isEmpty_insertElement _ _
    · exact quiet_connected h (hquiet c hc) hsem
  | post d hpend _ _ _ hnodes hquiet _ _ =>
    by_cases hc : c = d
    · subst hc
      rw [sameNodes_isEmpty hnodes]
      exact (h.pending c t hpend).1
    · exact quiet_connected h (hquiet c hc) hsem
  | remove d _ howner hsem' hquiet _ _ _ =>
    by_cases hc : c = d
    · subst hc
      rw [hsem', (h.token c t howner).1] at hsem
      cases hsem
    · exact quiet_connected h (hquiet c hc) hsem

omit [DecidableEq C] in
theorem Inv.inSection_step (h : Inv p s) (hmoves : Moves p s s' t activity) (c : C) (u : T)
    (hu : (s'.thread u).InSection c) : (s'.channel c).connections.isEmpty = false := by
  have hold : (activity.InSection c → (s.channel c).connections.isEmpty = false) →
      (s.channel c).connections.isEmpty = false := by
    intro hself
    rcases hmoves.cases_thread u with ⟨rfl, heq⟩ | ⟨-, heq⟩
    · rw [heq] at hu
      exact hself hu
    · rw [heq] at hu
      exact h.inSection c u hu
  cases hmoves.effect with
  | quiet hquiet _ hsection _ =>
    rw [sameNodes_isEmpty (hquiet c).nodes]
    exact hold fun hc => h.inSection c t (hsection c hc)
  | take d hsem _ hnodes hquiet _ hsection _ =>
    by_cases hc : c = d
    · subst hc
      rw [sameNodes_isEmpty hnodes]
      exact h.connected c hsem
    · rw [sameNodes_isEmpty (hquiet c hc).nodes]
      exact hold fun hself => h.inSection c t ((hsection c hself).resolve_right hc)
  | give d _ _ _ hnodes hquiet _ hsection _ =>
    have hnonempty := hold fun hself => absurd hself (hsection c)
    by_cases hc : c = d
    · subst hc
      rwa [sameNodes_isEmpty hnodes]
    · rwa [sameNodes_isEmpty (hquiet c hc).nodes]
  | insert d element _ _ _ hlist hquiet howns _ =>
    by_cases hc : c = d
    · subst hc
      rw [hlist]
      exact isEmpty_insertElement _ _
    · rw [sameNodes_isEmpty (hquiet c hc).nodes]
      exact hold fun hself => absurd (.inl hself) (howns c)
  | post d _ _ _ _ hnodes hquiet howns _ =>
    have hnonempty := hold fun hself => absurd (.inl hself) (howns c)
    by_cases hc : c = d
    · subst hc
      rwa [sameNodes_isEmpty hnodes]
    · rwa [sameNodes_isEmpty (hquiet c hc).nodes]
  | remove d _ howner _ hquiet _ hsection _ =>
    by_cases hc : c = d
    · subst hc
      -- the thread that has the token is the only one
      rcases hmoves.cases_thread u with ⟨rfl, heq⟩ | ⟨hne, heq⟩
      · rw [heq] at hu
        exact absurd hu (hsection c)
      · rw [heq] at hu
        exact absurd ((h.token c t howner).2 u (.inl hu)) hne
    · rw [sameNodes_isEmpty (hquiet c hc).nodes]
      exact hold fun hself => absurd hself (hsection c)

omit [DecidableEq C] [DecidableEq T] in
theorem Pended.quiet {c : C} (h : Pended p s c) (hquiet : (s.channel c).Quiet (s'.channel c))
    (howns : ∀ u, (s'.thread u).Owns p c → (s.thread u).Owns p c) : Pended p s' c := by
  refine ⟨(sameNodes_isEmpty hquiet.nodes).trans h.1, fun hlength => ?_⟩
  rw [sameNodes_getListLength hquiet.nodes] at hlength
  obtain ⟨hsem, hnone⟩ := h.2 hlength
  exact ⟨hquiet.sem.trans hsem, fun u hu => hnone u (howns u hu)⟩

omit [DecidableEq C] in
theorem Inv.pending_step (h : Inv p s) (hmoves : Moves p s s' t activity) (c : C) (u : T)
    (hu : (s'.thread u).Pending c) : Pended p s' c := by
  have hthread := hmoves.owns_before (c := c)
  have hother : ¬ activity.Pending c → u ≠ t ∧ Pended p s c := by
    intro hnot
    rcases hmoves.cases_thread u with ⟨rfl, heq⟩ | ⟨hne, heq⟩
    · rw [heq] at hu
      exact absurd hu hnot
    · rw [heq] at hu
      exact ⟨hne, h.pending c u hu⟩
  -- a thread with a pending post is the one that holds `conn_op_mutex`
  have hactor : (s.thread t).HoldsOp → activity.Pending c ∧ s'.thread t = activity := by
    intro hop
    rcases hmoves.cases_thread u with ⟨rfl, heq⟩ | ⟨hne, heq⟩
    · exact ⟨heq ▸ hu, heq⟩
    · rw [heq] at hu
      exact absurd (h.op_unique hop (holdsOp_of_pending hu)) hne
  cases hmoves.effect with
  | quiet hquiet howns _ hpending =>
    have hold : Pended p s c := by
      rcases hmoves.cases_thread u with ⟨rfl, heq⟩ | ⟨-, heq⟩
      · rw [heq] at hu
        exact h.pending c u (hpending c hu)
      · rw [heq] at hu
        exact h.pending c u hu
    exact hold.quiet (hquiet c) (hthread (howns c))
  | take d hsem _ hnodes hquiet howns _ hpending =>
    obtain ⟨-, hold⟩ := hother (hpending c)
    by_cases hc : c = d
    · subst hc
      -- a token that was in its place is not that of a list with one element
      refine ⟨(sameNodes_isEmpty hnodes).trans hold.1, fun hlength => ?_⟩
      rw [sameNodes_getListLength hnodes] at hlength
      exact absurd (hsem.symm.trans (hold.2 hlength).1) (by decide)
    · exact hold.quiet (hquiet c hc) (hthread fun hown => (howns c hown).resolve_right hc)
  | give d howner _ _ hnodes hquiet howns _ hpending =>
    obtain ⟨-, hold⟩ := hother (hpending c)
    by_cases hc : c = d
    · subst hc
      refine ⟨(sameNodes_isEmpty hnodes).trans hold.1, fun hlength => ?_⟩
      rw [sameNodes_getListLength hnodes] at hlength
      exact absurd howner ((hold.2 hlength).2 t)
    · exact hold.quiet (hquiet c hc) (hthread fun hown => (howns c hown).1)
  | insert d element hop havailable hsem' hlist hquiet howns hpending =>
    have hown := hthread fun hown => absurd hown (howns c)
    have hself := hactor hop
    by_cases hc : c = d
    · subst hc
      refine ⟨by rw [hlist]; exact isEmpty_insertElement _ _, fun hlength => ?_⟩
      have hempty : (s.channel c).connections.isEmpty = true := by
        by_contra hnot
        rw [hlist] at hlength
        exact getListLength_insertElement (by simpa using hnot) hlength
      have hnonempty : (s.channel c).connections.isEmpty ≠ false := by
        rw [hempty]
        decide
      refine ⟨?_, fun v hv => ?_⟩
      · rw [hsem', Bool.eq_false_iff]
        exact fun hsem => hnonempty (h.connected c hsem)
      · rcases hown v hv with hsection | hunbinds
        · exact hnonempty (h.inSection c v hsection)
        · obtain rfl := h.op_unique hop (holdsOp_of_unbinds hunbinds)
          rw [hself.2] at hv
          exact howns c hv
    · exact (h.pending c t ((hpending c hself.1).resolve_right hc)).quiet (hquiet c hc) hown
  | post d hpend havailable hop hsem' hnodes hquiet howns hpending =>
    obtain ⟨hself, -⟩ := hactor hop
    obtain ⟨hpend', hc⟩ := hpending c hself
    exact (h.pending c t hpend').quiet (hquiet c hc) (hthread fun hown => absurd hown (howns c))
  | remove d hop howner hsem' hquiet howns _ hpending =>
    obtain ⟨hself, -⟩ := hactor hop
    exact absurd hself (hpending c)

/-- One event keeps the invariant. -/
theorem Inv.step {e : NetworkEvent C T Ptr} (h : Inv p s) (hok : BindsAvailable s e)
    (hstep : Network.step p s e = some s') : Inv p s' := by
  obtain ⟨activity, hmoves⟩ := step_moves hstep hok (h.apart _)
  refine ⟨h.op_step hmoves, h.token_step hmoves, h.connected_step hmoves, h.inSection_step hmoves,
    h.pending_step hmoves, fun u => ?_⟩
  rcases hmoves.cases_thread u with ⟨rfl, heq⟩ | ⟨-, heq⟩
  · rw [heq]
    exact hmoves.apart (fun c hc => (h.token c _ hc).1) (h.apart _)
  · rw [heq]
    exact h.apart u

/-- Where the invariant holds, a binding that finds the token in its place, and every other step,
leaves the lists of all scanning threads alone. -/
theorem Inv.undisturbed {e : NetworkEvent C T Ptr} (h : Inv p s) (hok : BindsAvailable s e) :
    Undisturbed p s e := by
  intro s' hstep c u hne hsection
  obtain ⟨activity, hmoves⟩ := step_moves hstep hok (h.apart _)
  cases hmoves.effect with
  | quiet hquiet _ _ _ => exact (hquiet c).nodes
  | take d _ _ hnodes hquiet _ _ _ =>
    by_cases hc : c = d
    · subst hc
      exact hnodes
    · exact (hquiet c hc).nodes
  | give d _ _ _ hnodes hquiet _ _ _ =>
    by_cases hc : c = d
    · subst hc
      exact hnodes
    · exact (hquiet c hc).nodes
  | insert d _ _ havailable _ _ hquiet _ _ =>
    by_cases hc : c = d
    · subst hc
      rcases havailable with hsem | hempty
      · exact absurd (.inl hsection) (h.not_owns hsem u)
      · exact absurd ((h.inSection c u hsection).symm.trans hempty) (by decide)
    · exact (hquiet c hc).nodes
  | post d _ _ _ _ hnodes hquiet _ _ =>
    by_cases hc : c = d
    · subst hc
      exact hnodes
    · exact (hquiet c hc).nodes
  | remove d _ howner _ hquiet _ _ _ =>
    by_cases hc : c = d
    · subst hc
      exact absurd ((h.token c _ howner).2 u (.inl hsection)) hne
    · exact (hquiet c hc).nodes

/-- **While a send or a receive has the token of a channel no other thread edits its list, in every
run in which each `channel_bind` finds the token in its place, or the list empty.** -/
theorem undisturbed_of_bindsAvailable {events : List (NetworkEvent C T Ptr)} (h : Initial s)
    (hok : Along (Network.step p) BindsAvailable s events) :
    Along (Network.step p) (Undisturbed p) s events := by
  intro pre e hpre u hu
  have hpre' : pre <+: events := (List.prefix_append pre [e]).trans hpre
  have hinv : Inv p u := run_invariant (Inv p) (fun _ _ _ hs hok hstep => hs.step hok hstep) h.inv
    (fun pre' e' hpre'' => hok pre' e' (hpre''.trans hpre')) hu
  exact hinv.undisturbed (hok pre e hpre u hu)

/-- One outgoing channel and two incoming ones. -/
def threePorts : Ports (Fin 3) where
  direction c := if c = 0 then .chanOut else .chanIn
  typesize _ := 4

/-- Channels that have just been created. -/
def created (C T Ptr : Type) : Network C T Ptr where
  channel _ := channelCreate
  connOpMutex := none
  thread _ := .idle
  bound _ := none

omit [DecidableEq C] [DecidableEq T] in
theorem initial_created : Initial (created C T Ptr) := ⟨fun _ => rfl, fun _ => rfl⟩

/-- A thread binds the channels 0 and 1, calls `channel_send` on 0 and takes its token. -/
def sendOnBound : List (NetworkEvent (Fin 3) (Fin 2) Unit) :=
  [.bind 0 0 1] ++ List.replicate 8 (.step 0) ++ [.send 0 0 (), .step 0]

/-- Then another thread binds the channels 0 and 2. -/
def bindBehindSend : List (NetworkEvent (Fin 3) (Fin 2) Unit) :=
  sendOnBound ++ [.bind 1 0 2] ++ List.replicate 3 (.step 1)

theorem undisturbed_of_bindsAvailable_sendOnBound :
    Along (Network.step threePorts) (Undisturbed threePorts) (created (Fin 3) (Fin 2) Unit)
      sendOnBound :=
  undisturbed_of_bindsAvailable initial_created (by decide +kernel)

theorem bind_disturbs_send :
    Initial (created (Fin 3) (Fin 2) Unit) ∧
      ¬ Along (Network.step threePorts) (Undisturbed threePorts) (created (Fin 3) (Fin 2) Unit)
        (bindBehindSend ++ [.step 1]) := by
  refine ⟨initial_created, fun h => ?_⟩
  have hbefore : (run (Network.step threePorts) (created (Fin 3) (Fin 2) Unit) bindBehindSend).map
      (fun u => ((u.channel 0).connections.getListLength, u.thread 0)) =
      some (some 1, .send .setReady 0 ()) := by decide +kernel
  have hafter : (run (Network.step threePorts) (created (Fin 3) (Fin 2) Unit)
      (bindBehindSend ++ [.step 1])).map
      (fun u => (u.channel 0).connections.getListLength) = some (some 2) := by decide +kernel
  obtain ⟨u, hu, hpair⟩ := Option.map_eq_some_iff.1 hbefore
  obtain ⟨hlength, hthread⟩ := Prod.mk.inj hpair
  obtain ⟨u', hu', hlength'⟩ := Option.map_eq_some_iff.1 hafter
  rw [run_concat, hu, Option.bind_some] at hu'
  have hsection : (u.thread 0).InSection 0 := by
    rw [hthread]
    exact ⟨rfl, rfl⟩
  have hsame := h bindBehindSend (.step 1) List.prefix_rfl u hu u' hu' 0 0 (by decide) hsection
  rw [sameNodes_getListLength hsame, hlength] at hlength'
  cases hlength'

end Network

end InsenseCVM
