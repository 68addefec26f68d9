import InsenseCVM.Channels.Wiring

/-!
# A binding between threads that wait

A send or a receive sets its `ready` flag, scans the connected channels and then waits on `blocked`.
`channel_bind` connects two channels without a look at their flags: when both threads wait already,
no scan will bring them together.
-/

namespace InsenseCVM

/-- The thread waits on `blocked` of the channel. -/
def Activity.WaitsOn {C Ptr : Type} : Activity C Ptr → C → Prop
  | .send .waitBlocked cout _, c => c = cout
  | .receive .waitBlocked cin, c => c = cin
  | _, _ => False

instance {C Ptr : Type} [DecidableEq C] : ∀ (a : Activity C Ptr) (c : C), Decidable (a.WaitsOn c)
  | .send .waitBlocked cout _, c => inferInstanceAs (Decidable (c = cout))
  | .receive .waitBlocked cin, c => inferInstanceAs (Decidable (c = cin))
  | .send .idle _ _, _ | .send .waitConns _ _, _ | .send .setReady _ _, _ | .send (.scan _ _) _ _, _
  | .send (.waitReceived _) _ _, _ | .send .postConns _ _, _ | .receive .idle _, _
  | .receive .waitConns _, _ | .receive .setReady _, _ | .receive (.scan _ _) _, _
  | .receive .postConns _, _ | .receive .copy _, _ | .receive .postReceived _, _
  | .idle, _ | .bind _ _ _, _ | .unbindLock _, _ | .unbindLoop _ _ _, _ | .unbind _ _ _ _, _ =>
    isFalse id

namespace Network

open Transition Activity

variable {C T Ptr : Type} [DecidableEq C] [DecidableEq T] {p : Ports C}
  {s s' u u' : Network C T Ptr} {t : T} {peers lists : C → List C} {id1 id2 a b c d : C} {stage : BindStage}

/-! ### Waiting partners -/

/-- The channel is ready and its owner waits on `blocked`. -/
def Parked (s : Network C T Ptr) (c : C) : Prop :=
  (s.channel c).ready = true ∧ ∃ u, (s.thread u).WaitsOn c

/-- The list of `c` has `d`. -/
def LinkedTo (s : Network C T Ptr) (c d : C) : Prop :=
  (s.channel c).connections.containsElement d = some true

/-- No two connected channels are both ready with both owners waiting. -/
def Matched (s : Network C T Ptr) : Prop :=
  ∀ c d, LinkedTo s c d → ¬ (Parked s c ∧ Parked s d)

instance [Fintype T] (s : Network C T Ptr) (c : C) : Decidable (Parked s c) :=
  inferInstanceAs (Decidable (_ ∧ _))

instance (s : Network C T Ptr) (c d : C) : Decidable (LinkedTo s c d) :=
  inferInstanceAs (Decidable (_ = _))

instance [Fintype C] [Fintype T] (s : Network C T Ptr) : Decidable (Matched s) :=
  inferInstanceAs (Decidable (∀ c d, LinkedTo s c d → ¬ (Parked s c ∧ Parked s d)))

/-! ### One step of a binding -/

omit [DecidableEq C] in
/-- No flag changes, and the thread that steps waits on no channel. -/
theorem parked_of_step {activity : Activity C Ptr} (hbefore : ∀ c, ¬ (s.thread t).WaitsOn c)
    (hthread : s'.thread = Function.update s.thread t activity) (hafter : ∀ c, ¬ activity.WaitsOn c)
    (hready : ∀ c, (s'.channel c).ready = (s.channel c).ready) (c : C) :
    Parked s' c ↔ Parked s c := by
  unfold Parked
  rw [hready c, hthread]
  refine and_congr Iff.rfl ⟨fun ⟨v, hv⟩ => ?_, fun ⟨v, hv⟩ => ?_⟩
  · by_cases hvt : v = t
    · subst hvt
      rw [Function.update_self] at hv
      exact absurd hv (hafter c)
    · rw [Function.update_of_ne hvt] at hv
      exact ⟨v, hv⟩
  · by_cases hvt : v = t
    · subst hvt
      exact absurd hv (hbefore c)
    · exact ⟨v, by rwa [Function.update_of_ne hvt]⟩

omit [DecidableEq T] in
/-- A field that the write of a channel leaves. -/
theorem field_update {β : Type} (f : Endpoint C T Ptr → β) {ch : Endpoint C T Ptr}
    (h : f ch = f (s.channel c)) (d : C) :
    f (Function.update s.channel c ch d) = f (s.channel d) := by
  by_cases hd : d = c
  · subst hd
    rwa [Function.update_self]
  · rw [Function.update_of_ne hd]

/-- Ready flag and list of a channel. -/
def flagAndList (ch : Endpoint C T Ptr) : Bool × IteratedList C := (ch.ready, ch.connections)

/-- A step of `channel_bind` other than the insertions goes on in the call or returns, and changes
neither flags nor lists. -/
theorem bind_goes (hstep : s.stepBind p t a b stage = some s') (hfirst : stage ≠ .insertFirst)
    (hsecond : stage ≠ .insertSecond) :
    ∃ activity, s'.thread = Function.update s.thread t activity ∧
      (∀ c, ¬ activity.WaitsOn c) ∧
      ∀ c, flagAndList (s'.channel c) = flagAndList (s.channel c) := by
  cases stage with
  | lockOp =>
    simp only [stepBind] at hstep
    split_ifs at hstep with hheld hdirection hsize
    · cases hstep
      exact ⟨.idle, rfl, fun c hc => hc, fun c => rfl⟩
    · cases hstep
      exact ⟨.idle, rfl, fun c hc => hc, fun c => rfl⟩
    · cases hstep
      exact ⟨.bind .lockFirst a b, rfl, fun c hc => hc, fun c => rfl⟩
  | lockFirst =>
    obtain ⟨-, rfl⟩ := lock_eq hstep
    exact ⟨.bind .lockSecond a b, rfl, fun c hc => hc, field_update flagAndList rfl⟩
  | lockSecond =>
    obtain ⟨-, rfl⟩ := lock_eq hstep
    exact ⟨.bind .insertFirst a b, rfl, fun c hc => hc, field_update flagAndList rfl⟩
  | insertFirst => exact absurd rfl hfirst
  | insertSecond => exact absurd rfl hsecond
  | postFirst =>
    cases hstep
    exact ⟨.bind .postSecond a b, rfl, fun c hc => hc, field_update flagAndList rfl⟩
  | postSecond =>
    cases hstep
    exact ⟨.bind .unlock a b, rfl, fun c hc => hc, field_update flagAndList rfl⟩
  | unlock =>
    cases hstep
    have hunlock : ∀ c, flagAndList ((s.unlock a).channel c) = flagAndList (s.channel c) :=
      field_update flagAndList rfl
    have hboth : ∀ c, flagAndList (((s.unlock a).unlock b).channel c) =
        flagAndList ((s.unlock a).channel c) := field_update flagAndList rfl
    exact ⟨.idle, rfl, fun c hc => hc, fun c => (hboth c).trans (hunlock c)⟩

omit [DecidableEq T] in
theorem Wired.linkedTo_iff (h : Wired p s peers lists) : LinkedTo s c d ↔ d ∈ lists c := by
  rw [LinkedTo, (h.standsFor c).containsElement_eq, Option.some.injEq, decide_eq_true_iff]

/-- The insertion of `b` into the list of `a`. -/
theorem inserts {activity : Activity C Ptr} (h : Wired p s peers lists)
    (hbefore : ∀ c, ¬ (s.thread t).WaitsOn c) (hafter : ∀ c, ¬ activity.WaitsOn c) :
    let s' := (s.modify a fun ch =>
      { ch with connections := ch.connections.insertElement (some b) }).go t activity
    (∀ c, Parked s' c ↔ Parked s c) ∧
      ∀ c d, LinkedTo s' c d ↔ LinkedTo s c d ∨ (c = a ∧ d = b) := by
  refine ⟨parked_of_step hbefore rfl hafter (field_update (·.ready) rfl), fun c d => ?_⟩
  rw [h.linkedTo_iff]
  by_cases hca : c = a
  · subst hca
    rw [LinkedTo, go_channel, modify_channel_self,
      ((h.standsFor c).insertElement b).containsElement_eq, Option.some.injEq, decide_eq_true_iff,
      List.mem_cons]
    simp [or_comm]
  · rw [LinkedTo, go_channel, modify_channel_of_ne _ _ hca, (h.standsFor c).containsElement_eq,
      Option.some.injEq, decide_eq_true_iff]
    simp [hca]

/-- The pair of channels that a step of `channel_bind` links. -/
def Links (s : Network C T Ptr) (a b : C) (stage : BindStage) (c d : C) : Prop :=
  (stage = .insertFirst ∧ (s.channel a).connections.containsElement b = some false ∧
      c = a ∧ d = b) ∨
    (stage = .insertSecond ∧ c = b ∧ d = a)

/-- A step of `channel_bind` changes no flag and no waiting thread, and links its pair only. -/
theorem bind_links (h : Wired p s peers lists) (hthread : s.thread t = .bind stage a b)
    (hstep : s.stepBind p t a b stage = some s') :
    (∀ c, Parked s' c ↔ Parked s c) ∧
      ∀ c d, LinkedTo s' c d ↔ LinkedTo s c d ∨ Links s a b stage c d := by
  have hbefore : ∀ c, ¬ (s.thread t).WaitsOn c := by
    rw [hthread]
    exact fun c hc => hc
  by_cases hfirst : stage = .insertFirst
  · subst hfirst
    simp only [stepBind, Option.bind_eq_bind, Option.bind_eq_some_iff] at hstep
    obtain ⟨contained, hcontains, hstep⟩ := hstep
    split_ifs at hstep with htrue
    · cases hstep
      have hidle : ∀ c, ¬ (Activity.idle : Activity C Ptr).WaitsOn c := fun c hc => hc
      refine ⟨parked_of_step hbefore rfl hidle fun c => rfl, fun c d => ?_⟩
      show LinkedTo s c d ↔ _
      simp [Links, hcontains, htrue]
    · cases hstep
      have hcontains' : (s.channel a).connections.containsElement b = some false := by
        rw [hcontains, Option.some.injEq]
        simpa using htrue
      have hafter : ∀ c, ¬ (Activity.bind .insertSecond a b : Activity C Ptr).WaitsOn c :=
        fun c hc => hc
      have hinsert := inserts (a := a) (b := b) h hbefore hafter
      refine ⟨hinsert.1, fun c d => (hinsert.2 c d).trans (or_congr Iff.rfl ?_)⟩
      simp [Links, hcontains']
  · by_cases hsecond : stage = .insertSecond
    · subst hsecond
      cases hstep
      have hafter : ∀ c, ¬ (Activity.bind .postFirst a b : Activity C Ptr).WaitsOn c :=
        fun c hc => hc
      have hinsert := inserts (a := b) (b := a) h hbefore hafter
      refine ⟨hinsert.1, fun c d => (hinsert.2 c d).trans (or_congr Iff.rfl ?_)⟩
      simp [Links]
    · obtain ⟨activity, hgo, hafter, hfields⟩ := bind_goes hstep hfirst hsecond
      refine ⟨parked_of_step hbefore hgo hafter fun c => (Prod.mk.inj (hfields c)).1, fun c d => ?_⟩
      rw [LinkedTo, (Prod.mk.inj (hfields c)).2]
      simp [LinkedTo, Links, hfirst, hsecond]

/-- The step links two channels with both owners waiting. -/
def LinksParked (s : Network C T Ptr) (a b : C) (stage : BindStage) : Prop :=
  stage = .insertFirst ∧ (s.channel a).connections.containsElement b = some false ∧
    Parked s a ∧ Parked s b

/-- **A step of `channel_bind` keeps waiting partners matched unless it is the first insertion for
two channels with both owners waiting.** -/
theorem matched_bind_iff (h : Wired p s peers lists) (hthread : s.thread t = .bind stage a b)
    (hstep : s.stepBind p t a b stage = some s') :
    Matched s' ↔ Matched s ∧ ¬ LinksParked s a b stage := by
  obtain ⟨hparked, hlinked⟩ := bind_links h hthread hstep
  constructor
  · refine fun hmatched => ⟨fun c d hcd hboth => ?_, fun ⟨hstage, hnew, ha, hb⟩ => ?_⟩
    · exact hmatched c d ((hlinked c d).2 (.inl hcd))
        ⟨(hparked c).2 hboth.1, (hparked d).2 hboth.2⟩
    · exact hmatched a b ((hlinked a b).2 (.inr (.inl ⟨hstage, hnew, rfl, rfl⟩)))
        ⟨(hparked a).2 ha, (hparked b).2 hb⟩
  · rintro ⟨hmatched, hnot⟩ c d hcd hboth
    rw [hparked, hparked] at hboth
    rcases (hlinked c d).1 hcd with hold | ⟨hstage, hnew, rfl, rfl⟩ | ⟨hstage, rfl, rfl⟩
    · exact hmatched c d hold hboth
    · exact hnot ⟨hstage, hnew, hboth⟩
    · -- the first insertion has linked the two the other way round
      subst hstage
      have hedits := h.edits t
      rw [hthread] at hedits
      obtain ⟨hpeers, hlists⟩ := hedits
      have hpeer : c ∈ peers d := h.graph.symm c d (by simp [hpeers])
      have hmem : c ∈ lists d := by rwa [hlists d (h.graph.ne hpeer)]
      exact hmatched d c (h.linkedTo_iff.2 hmem) hboth.symm

/-! ### A whole call -/

/-- The channels have been linked. -/
def inserted : BindStage → Bool
  | .lockOp | .lockFirst | .lockSecond | .insertFirst => false
  | .insertSecond | .postFirst | .postSecond | .unlock => true

/-- Where a step of `channel_bind` goes on. -/
theorem bind_next (hstep : s.stepBind p t a b stage = some s') :
    ∃ activity, s'.thread = Function.update s.thread t activity ∧
      ((activity = .idle ∧ s'.bound t = some (inserted stage)) ∨
        ∃ stage', activity = .bind stage' a b ∧
          ((stage ≠ .insertFirst ∧ inserted stage' = inserted stage) ∨
            (stage = .insertFirst ∧ (s.channel a).connections.containsElement b = some false ∧
              inserted stage' = true))) := by
  cases stage with
  | lockOp =>
    simp only [stepBind] at hstep
    split_ifs at hstep with hheld hdirection hsize
    · cases hstep
      exact ⟨.idle, rfl, .inl ⟨rfl, Function.update_self ..⟩⟩
    · cases hstep
      exact ⟨.idle, rfl, .inl ⟨rfl, Function.update_self ..⟩⟩
    · cases hstep
      exact ⟨_, rfl, .inr ⟨.lockFirst, rfl, .inl ⟨by decide, rfl⟩⟩⟩
  | lockFirst =>
    obtain ⟨-, rfl⟩ := lock_eq hstep
    exact ⟨_, rfl, .inr ⟨.lockSecond, rfl, .inl ⟨by decide, rfl⟩⟩⟩
  | lockSecond =>
    obtain ⟨-, rfl⟩ := lock_eq hstep
    exact ⟨_, rfl, .inr ⟨.insertFirst, rfl, .inl ⟨by decide, rfl⟩⟩⟩
  | insertFirst =>
    simp only [stepBind, Option.bind_eq_bind, Option.bind_eq_some_iff] at hstep
    obtain ⟨contained, hcontains, hstep⟩ := hstep
    split_ifs at hstep with htrue
    · cases hstep
      exact ⟨.idle, rfl, .inl ⟨rfl, Function.update_self ..⟩⟩
    · cases hstep
      rw [Bool.not_eq_true] at htrue
      exact ⟨_, rfl, .inr ⟨.insertSecond, rfl, .inr ⟨rfl, htrue ▸ hcontains, rfl⟩⟩⟩
  | insertSecond =>
    cases hstep
    exact ⟨_, rfl, .inr ⟨.postFirst, rfl, .inl ⟨by decide, rfl⟩⟩⟩
  | postFirst =>
    cases hstep
    exact ⟨_, rfl, .inr ⟨.postSecond, rfl, .inl ⟨by decide, rfl⟩⟩⟩
  | postSecond =>
    cases hstep
    exact ⟨_, rfl, .inr ⟨.unlock, rfl, .inl ⟨by decide, rfl⟩⟩⟩
  | unlock =>
    cases hstep
    exact ⟨.idle, rfl, .inl ⟨rfl, Function.update_self ..⟩⟩

/-- How the partners are in a call that began in `s`, with the thread at this place. -/
def InBind (s u : Network C T Ptr) (t : T) (id1 id2 : C) : Activity C Ptr → Prop
  | .bind stage a b => (a = id1 ∧ b = id2) ∧
      (Matched u ↔ ¬ (inserted stage = true ∧ Parked s id1 ∧ Parked s id2))
  | .idle => u.bound t = some true → (Matched u ↔ ¬ (Parked s id1 ∧ Parked s id2))
  | _ => False

/-- A step of the thread in its call. -/
theorem InBind.step (hwired : Wired p u peers lists) (hparked : ∀ c, Parked u c ↔ Parked s c)
    (h : InBind s u t id1 id2 (u.thread t)) (hne : u.thread t ≠ .idle)
    (hstep : Network.step p u (.step t) = some u') :
    (∀ c, Parked u' c ↔ Parked s c) ∧ InBind s u' t id1 id2 (u'.thread t) := by
  simp only [Network.step, stepThread] at hstep
  cases hthread : u.thread t with
  | idle => exact absurd hthread hne
  | unbindLock | unbindLoop | unbind | send | receive =>
    rw [hthread] at h
    exact h.elim
  | bind stage a b =>
    rw [hthread] at h hstep
    obtain ⟨⟨rfl, rfl⟩, hmatched⟩ := h
    have hparked' := (bind_links hwired hthread hstep).1
    have hmatched' := matched_bind_iff hwired hthread hstep
    refine ⟨fun c => (hparked' c).trans (hparked c), ?_⟩
    obtain ⟨activity, hgo, ⟨rfl, hbound⟩ | ⟨stage', rfl, hstage⟩⟩ := bind_next hstep
    · rw [hgo, Function.update_self]
      intro hsuccess
      rw [hbound, Option.some.injEq] at hsuccess
      have hnot : ¬ LinksParked u a b stage := by
        rintro ⟨rfl, -⟩
        cases hsuccess
      rw [hmatched', hmatched]
      simp [hnot, hsuccess]
    · rw [hgo, Function.update_self]
      refine ⟨⟨rfl, rfl⟩, ?_⟩
      rcases hstage with ⟨hother, heq⟩ | ⟨rfl, hnew, htrue⟩
      · have hnot : ¬ LinksParked u a b stage := fun hlinks => hother hlinks.1
        rw [hmatched', hmatched, heq]
        simp [hnot]
      · have hbefore : Matched u := hmatched.2 fun hall => by cases hall.1
        rw [hmatched', htrue]
        simp [LinksParked, hbefore, hnew, hparked]

/-- The thread alone goes on in its call. -/
theorem inBind_run {k : ℕ} {s₁ : Network C T Ptr} (hwired : Wired p s₁ peers lists)
    (hparked : ∀ c, Parked s₁ c ↔ Parked s c) (h : InBind s s₁ t id1 id2 (s₁.thread t))
    (hreturn : Completes p t s₁ (List.replicate k (.step t)) s') :
    InBind s s' t id1 id2 (s'.thread t) := by
  induction k generalizing s₁ peers lists with
  | zero =>
    obtain rfl : s₁ = s' := by simpa using hreturn.run
    exact h
  | succ k ih =>
    rw [List.replicate_succ] at hreturn
    have hne := (along_cons.1 hreturn.within).1
    obtain ⟨s₂, hstep, hrest⟩ := hreturn.first
    obtain ⟨-, peers', lists', -, hwired', -⟩ := hwired.step hstep
    obtain ⟨hparked', h'⟩ := h.step hwired hparked hne hstep
    exact ih hwired' hparked' h' hrest

/-- **A binding that succeeds keeps waiting partners matched exactly when not both of its channels
are ready with their owners waiting; and so does, in any interleaving, each of its steps, where only
the first insertion can fail to.** -/
theorem bind_keeps_matched_iff {events : List (NetworkEvent C T Ptr)}
    (hreach : run (Network.step p) (created C T Ptr) events = some s) (hmatched : Matched s) :
    (∀ t id1 id2 k s₁ s', Network.step p s (.bind t id1 id2) = some s₁ →
      Completes p t s₁ (List.replicate k (.step t)) s' → s'.bound t = some true →
        (Matched s' ↔ ¬ (Parked s id1 ∧ Parked s id2))) ∧
    ∀ t stage id1 id2 s', s.thread t = .bind stage id1 id2 →
      Network.step p s (.step t) = some s' → (Matched s' ↔ ¬ LinksParked s id1 id2 stage) := by
  obtain ⟨peers, lists, hwired⟩ := wired_run hreach
  refine ⟨fun t id1 id2 k s₁ s' hcall hreturn hsuccess => ?_,
    fun t stage id1 id2 s' hthread hstep => ?_⟩
  · obtain ⟨-, peers₁, lists₁, -, hwired₁, -⟩ := hwired.step hcall
    simp only [Network.step, call] at hcall
    cases hidle : s.thread t with
    | idle =>
      rw [hidle] at hcall
      cases hcall
      have hbefore : ∀ c, ¬ (s.thread t).WaitsOn c := by
        rw [hidle]
        exact fun c hc => hc
      have hparked : ∀ c, Parked (s.go t (.bind .lockOp id1 id2)) c ↔ Parked s c :=
        parked_of_step hbefore rfl (fun c hc => hc) fun c => rfl
      have hmatched₁ : Matched (s.go t (.bind .lockOp id1 id2)) := by
        intro c d hcd hboth
        rw [hparked, hparked] at hboth
        exact hmatched c d hcd hboth
      have hstart : InBind s (s.go t (.bind .lockOp id1 id2)) t id1 id2
          ((s.go t (.bind .lockOp id1 id2)).thread t) := by
        show InBind s _ t id1 id2 (Function.update s.thread t _ t)
        rw [Function.update_self]
        exact ⟨⟨rfl, rfl⟩, ⟨fun _ hall => absurd hall.1 (by decide), fun _ => hmatched₁⟩⟩
      have hend := inBind_run hwired₁ hparked hstart hreturn
      rw [hreturn.returned] at hend
      exact hend hsuccess
    | bind | unbindLock | unbindLoop | unbind | send | receive =>
      rw [hidle] at hcall
      cases hcall
  · simp only [Network.step, stepThread, hthread] at hstep
    rw [matched_bind_iff hwired hthread hstep]
    exact and_iff_right hmatched

/-! ### Two channels with other connections -/

/-- Two outgoing channels, 0 and 3, and two incoming ones. -/
def fourPorts : Ports (Fin 4) where
  direction c := if c = 0 ∨ c = 3 then .chanOut else .chanIn
  typesize _ := 4

/-- Each of the channels 0 and 1 is bound to a channel that nobody uses; then one thread sends on 0
and another receives on 1, until they wait. -/
def bothWaiting : List (NetworkEvent (Fin 4) (Fin 3) Unit) :=
  .bind 2 0 2 :: List.replicate 8 (.step 2) ++ .bind 2 3 1 :: List.replicate 8 (.step 2) ++
    .send 0 0 () :: List.replicate 4 (.step 0) ++ .receive 1 1 :: List.replicate 4 (.step 1)

/-- What a call of `channel_bind` by the third thread makes of it. -/
def bindsBehind (events : List (NetworkEvent (Fin 4) (Fin 3) Unit)) (id1 id2 : Fin 4)
    (matched : Bool) : Bool :=
  (run (Network.step fourPorts) (created (Fin 4) (Fin 3) Unit) events).any fun s =>
    Matched s ∧ (Network.step fourPorts s (.bind 2 id1 id2)).any fun s₁ =>
      Along (Network.step fourPorts) (fun s _ => s.thread 2 ≠ .idle) s₁
          (List.replicate 8 (.step 2)) ∧
        (run (Network.step fourPorts) s₁ (List.replicate 8 (.step 2))).any fun s' =>
          s'.thread 2 = .idle ∧ s'.bound 2 = some true ∧ decide (Matched s') = matched

theorem exists_bindsBehind {events : List (NetworkEvent (Fin 4) (Fin 3) Unit)} {id1 id2 : Fin 4}
    {matched : Bool} (h : bindsBehind events id1 id2 matched = true) :
    ∃ s s₁ s', run (Network.step fourPorts) (created (Fin 4) (Fin 3) Unit) events = some s ∧
      Matched s ∧ Network.step fourPorts s (.bind 2 id1 id2) = some s₁ ∧
      Completes fourPorts 2 s₁ (List.replicate 8 (.step 2)) s' ∧ s'.bound 2 = some true ∧
      decide (Matched s') = matched := by
  obtain ⟨s, hs, hall⟩ := (Option.any_eq_true ..).1 h
  obtain ⟨hmatched, hcall⟩ := of_decide_eq_true hall
  obtain ⟨s₁, hs₁, hcall⟩ := (Option.any_eq_true ..).1 hcall
  obtain ⟨hwithin, hreturned⟩ := of_decide_eq_true hcall
  obtain ⟨s', hs', hreturned⟩ := (Option.any_eq_true ..).1 hreturned
  obtain ⟨hidle, hbound, hafter⟩ := of_decide_eq_true hreturned
  exact ⟨s, s₁, s', hs, hmatched, hs₁, ⟨hs', hwithin, hidle⟩, hbound, hafter⟩

/-- The sender and the receiver are connected now, and both wait. -/
theorem bothWaiting_not_matched :
    ∃ s s₁ s', run (Network.step fourPorts) (created (Fin 4) (Fin 3) Unit) bothWaiting = some s ∧
      Matched s ∧ Network.step fourPorts s (.bind 2 0 1) = some s₁ ∧
      Completes fourPorts 2 s₁ (List.replicate 8 (.step 2)) s' ∧ s'.bound 2 = some true ∧
      ¬ Matched s' := by
  have hbinds : bindsBehind bothWaiting 0 1 false = true := by decide +kernel
  obtain ⟨s, s₁, s', hs, hmatched, hcall, hreturn, hbound, hafter⟩ := exists_bindsBehind hbinds
  exact ⟨s, s₁, s', hs, hmatched, hcall, hreturn, hbound, of_decide_eq_false hafter⟩

theorem bind_keeps_matched_iff_first :
    ∃ s s' : Network (Fin 4) (Fin 3) Unit, s'.bound 2 = some true ∧
      (Matched s' ↔ ¬ (Parked s 0 ∧ Parked s 1)) := by
  have hbinds : bindsBehind [] 0 1 true = true := by decide +kernel
  obtain ⟨s, s₁, s', hs, hmatched, hcall, hreturn, hbound, -⟩ := exists_bindsBehind hbinds
  exact ⟨s, s', hbound, (bind_keeps_matched_iff hs hmatched).1 2 0 1 8 s₁ s' hcall hreturn hbound⟩

end Network

end InsenseCVM
