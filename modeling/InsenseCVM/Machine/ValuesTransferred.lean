import InsenseCVM.Machine.ChannelTransfer

/-!
# Transferred values

In every run of `Transfer`, what a receive pushes is what the send matched with it has popped,
unless the type is that of strings. The invariant says of each value on its way where it is: in the
object that was popped, until it has been copied; from then on in the block of the receive, which
nobody else can name before it is pushed; and at last in the record.
-/

namespace InsenseCVM
open Execution ByteStream Transition

/-! ### Steps of the channels -/

namespace Channels

/-- The receive has copied and has not returned. -/
def Filled : ReceivePc → Prop
  | .postConns | .postReceived => True
  | _ => False

theorem Filled.ne_idle {pc : ReceivePc} (h : Filled pc) : pc ≠ .idle := by
  rintro rfl
  exact h

variable {I O Ptr : Type} [DecidableEq I] [DecidableEq O] {conn : I → O → Prop}
  {s s' : Channels I O Ptr} {i : I} {o : O}

/-- A step of a sender leaves the receivers and the copies alone, and matches nobody or a receiver
that was not matched. -/
theorem SendStep.effect (h : Inv conn s) (hstep : SendStep s o s') :
    s'.receiver = s.receiver ∧ s'.copied = s.copied ∧ s'.received = s.received ∧
      (s'.matched = s.matched ∨ ∃ i,
        s'.matched = s.matched ++ [(s.sendCall o, s.receiveCall i)] ∧
          ∀ a, (a, s.receiveCall i) ∉ s.matched) := by
  cases hstep with
  | taken j length receiver connections hpc hget hcin hcout =>
    have hfree := ((h.receiver receiver).of_ready hcin).2
    exact ⟨rfl, rfl, rfl, .inr ⟨receiver, rfl, hfree⟩⟩
  | waitConns | setReady | passed | scanned | acknowledged | returned | woken =>
    exact ⟨rfl, rfl, rfl, .inl rfl⟩

omit [DecidableEq I] [DecidableEq O] in
/-- A receive that has copied was matched. -/
theorem Inv.matched_of_filled (h : Inv conn s) (hpc : Filled (s.receiver i).pc) :
    ∃ a, (a, s.receiveCall i) ∈ s.matched := by
  have hok := h.receiver i
  cases hpc' : (s.receiver i).pc with
  | postConns | postReceived =>
    simp only [ReceiverOk, hpc'] at hok
    obtain ⟨-, -, a, ha, -⟩ := hok
    exact ⟨a, ha⟩
  | idle | waitConns | setReady | scan | waitBlocked | copy =>
    rw [hpc'] at hpc
    exact absurd hpc id

/-- What a step leaves alone that neither copies nor calls or returns in a receiver. -/
structure Quiet (s s' : Channels I O Ptr) : Prop where
  idle : ∀ i, (s'.receiver i).pc = .idle ↔ (s.receiver i).pc = .idle
  filled : ∀ i, Filled (s'.receiver i).pc → Filled (s.receiver i).pc
  call : ∀ i, s'.receiveCall i = s.receiveCall i
  copied : s'.copied = s.copied
  received : s'.received = s.received
  matched : ∀ a b, (a, b) ∈ s.matched → (a, b) ∈ s'.matched
  unmatched : ∀ a b, (a, b) ∈ s'.matched → (a, b) ∈ s.matched ∨ ∀ a', (a', b) ∉ s.matched

omit [DecidableEq I] [DecidableEq O] in
theorem Quiet.data_eq (h : Quiet s s') (i : I) : (s'.receiver i).data = (s.receiver i).data :=
  congrArg Call.data (h.call i)

theorem SendStep.quiet (h : Inv conn s) (hstep : SendStep s o s') : Quiet s s' := by
  obtain ⟨hreceiver, hcopied, hreceived, hmatched⟩ := hstep.effect h
  have hcall : ∀ i, s'.receiveCall i = s.receiveCall i := by
    intro i
    unfold receiveCall
    rw [hreceiver]
  refine ⟨fun i => by rw [hreceiver], fun i => by rw [hreceiver]; exact id, hcall, hcopied,
    hreceived, fun a b hab => ?_, fun a b hab => ?_⟩
  · rcases hmatched with hmatched | ⟨i, hmatched, -⟩
    · rwa [hmatched]
    · rw [hmatched]
      exact List.mem_append_left _ hab
  · rcases hmatched with hmatched | ⟨i, hmatched, hfree⟩
    · rw [hmatched] at hab
      exact .inl hab
    · rw [hmatched] at hab
      rcases List.mem_append.1 hab with hab | hab
      · exact .inl hab
      · cases List.mem_singleton.1 hab
        exact .inr hfree

/-- A step in which the receive on `i` copies from `data`. -/
structure Copies (s s' : Channels I O Ptr) (i : I) (data : Ptr) : Prop where
  idle : ∀ j, (s'.receiver j).pc = .idle ↔ (s.receiver j).pc = .idle
  filled : ∀ j, j ≠ i → Filled (s'.receiver j).pc → Filled (s.receiver j).pc
  call : ∀ j, s'.receiveCall j = s.receiveCall j
  copied : s'.copied = s.copied ++ [(s.receiveCall i, data)]
  received : s'.received = s.received
  matched : ∀ a b, (a, b) ∈ s.matched → (a, b) ∈ s'.matched
  unmatched : ∀ a b, (a, b) ∈ s'.matched → (a, b) ∈ s.matched ∨ b = s.receiveCall i

/-- A step in which the receive on `i` returns. -/
structure Finishes (s s' : Channels I O Ptr) (i : I) : Prop where
  filled : Filled (s.receiver i).pc
  idle : (s'.receiver i).pc = .idle
  others : ∀ j, j ≠ i → s'.receiver j = s.receiver j
  call : ∀ j, s'.receiveCall j = s.receiveCall j
  copied : s'.copied = s.copied
  received : s'.received = s.received ++ [s.receiveCall i]
  matched : s'.matched = s.matched

omit [DecidableEq O] in
theorem idle_update {pc : ReceivePc}
    (h : s'.receiver = Function.update s.receiver i { s.receiver i with pc := pc })
    (hpc : pc ≠ .idle) (hidle : (s.receiver i).pc ≠ .idle) (j : I) :
    (s'.receiver j).pc = .idle ↔ (s.receiver j).pc = .idle := by
  rw [h]
  by_cases hj : j = i
  · subst hj
    rw [Function.update_self]
    exact iff_of_false hpc hidle
  · rw [Function.update_of_ne hj]

omit [DecidableEq O] in
theorem filled_update {pc : ReceivePc}
    (h : s'.receiver = Function.update s.receiver i { s.receiver i with pc := pc }) (j : I)
    (hj : j ≠ i ∨ ¬ Filled pc) (hfilled : Filled (s'.receiver j).pc) :
    Filled (s.receiver j).pc := by
  rw [h] at hfilled
  by_cases hji : j = i
  · subst hji
    rw [Function.update_self] at hfilled
    rcases hj with hj | hpc
    · exact absurd rfl hj
    · exact absurd hfilled hpc
  · rwa [Function.update_of_ne hji] at hfilled

/-- A step of a receiver is quiet, copies or returns. -/
theorem ReceiveStep.effect (hstep : ReceiveStep s i s') :
    (s.receiver i).pc ≠ .idle ∧
      (Quiet s s' ∨ (∃ data, Copies s s' i data) ∨ Finishes s s' i) := by
  have hidle : (s.receiver i).pc ≠ .idle := by
    intro hidle
    cases hstep <;> simp_all
  refine ⟨hidle, ?_⟩
  cases hstep with
  | taken j length sender connections data hpc hget hcout hcin hdata =>
    refine .inr (.inl ⟨data, idle_update rfl nofun hidle, fun j hj => filled_update rfl j (.inl hj),
      receiveCall_update rfl, rfl, rfl, fun a b => List.mem_append_left _, fun a b hab => ?_⟩)
    rcases List.mem_append.1 hab with hab | hab
    · exact .inl hab
    · cases List.mem_singleton.1 hab
      exact .inr rfl
  | copied data hpc hdata =>
    exact .inr (.inl ⟨data, idle_update rfl nofun hidle, fun j hj => filled_update rfl j (.inl hj),
      receiveCall_update rfl, rfl, rfl, fun a b => id, fun a b => .inl⟩)
  | returned hpc | posted hpc =>
    refine .inr (.inr ⟨by rw [hpc]; trivial, ?_, fun j hj => Function.update_of_ne hj ..,
      receiveCall_update rfl, rfl, rfl, rfl⟩)
    simp [setReceiver]
  | waitConns | setReady | woken | passed | scanned =>
    exact .inl ⟨idle_update rfl nofun hidle, fun j => filled_update rfl j (.inr id),
      receiveCall_update rfl, rfl, rfl, fun a b => id, fun a b => .inl⟩

section copies

omit [DecidableEq I] [DecidableEq O]

variable {a : Call O Ptr} {b : Call I Ptr} {data : Ptr}

theorem Copies.data_eq (h : Copies s s' i data) (j : I) :
    (s'.receiver j).data = (s.receiver j).data :=
  congrArg Call.data (h.call j)

/-- A receive copies once. -/
theorem Copies.first (h : Copies s s' i data) (hs' : Inv conn s') (p : Ptr) :
    (s.receiveCall i, p) ∉ s.copied := by
  intro hp
  have honce := hs'.record.copiesOnce
  rw [h.copied, List.map_append, List.nodup_append] at honce
  exact honce.2.2 _ (List.mem_map_of_mem hp) _ (List.mem_singleton_self _) rfl

/-- A receive copies from the send it is matched with, and nobody has copied from it before. -/
theorem Copies.source (h : Copies s s' i data) (hs' : Inv conn s')
    (ha : (a, s.receiveCall i) ∈ s'.matched) :
    a.data = data ∧ ∀ b, (a, b) ∈ s.matched → (b, data) ∉ s.copied := by
  obtain ⟨a', ha', hdata⟩ := hs'.record.copied (s.receiveCall i, data)
    (by rw [h.copied]; exact List.mem_append_right _ (List.mem_singleton_self _))
  obtain rfl : a = a' := congrArg Prod.fst
    (List.inj_on_of_nodup_map hs'.record.receiversOnce ha ha' rfl)
  refine ⟨hdata.symm, fun b hb => ?_⟩
  obtain rfl : b = s.receiveCall i := congrArg Prod.snd
    (List.inj_on_of_nodup_map hs'.record.sendersOnce (h.matched _ _ hb) ha rfl)
  exact h.first hs' data

/-- A receive that has returned is matched with nobody else. -/
theorem Copies.matched_of_received (h : Copies s s' i data) (hs : Inv conn s) (hs' : Inv conn s')
    (hb : b ∈ s.received) (hab : (a, b) ∈ s'.matched) : (a, b) ∈ s.matched := by
  rcases h.unmatched a b hab with hold | rfl
  · exact hold
  · obtain ⟨a', -, hcopied⟩ := hs.record.received _ hb
    exact absurd hcopied (h.first hs' _)

end copies

end Channels

/-! ### The invariant -/

/-- The object at an address, or where it is a typed object, the object of that. -/
def World.Names (w : World) (address p : ℕ) : Prop :=
  p = address ∨ ∃ type, w.cell address = some (.typed type (some p))

namespace Transfer
open Channels

/-- The typed object or the block of a call of `component_receive` that has not returned. -/
def Part (t : Transfer) (c p : ℕ) : Prop :=
  (t.channels.receiver c).pc ≠ .idle ∧
    (p = (t.reception c).wrapper ∨ p = (t.channels.receiver c).data)

/-- Nobody has copied yet what the call sends. -/
def Uncopied (channels : Channels ℕ ℕ ℕ) (a : Call ℕ ℕ) : Prop :=
  ∀ b, (a, b) ∈ channels.matched → (b, a.data) ∉ channels.copied

def InTransit (t : Transfer) (p : ℕ) : Prop :=
  (∃ c, t.Part c p) ∨ ∃ s ∈ t.popped, s.call.data = p ∧ Uncopied t.channels s.call

/-- The data stacks name objects that are there and that no receive is about to push. -/
def Apart (t : Transfer) (w : World) : Prop :=
  ∀ owner, ∃ xs, (w.component owner).dataStack.Holds xs ∧
    ∀ i, some i ∈ xs → ∀ p, w.Names i p → p < w.fresh ∧ ∀ c, ¬ t.Part c p

/-- What the components execute otherwise does not write to objects in transit, and does not name
those that no receive has pushed yet. -/
def Undisturbed (t : Transfer) : TransferEvent → Prop
  | .other w => t.world.fresh ≤ w.fresh ∧ (∀ p, t.InTransit p → w.cell p = t.world.cell p) ∧
      t.Apart w
  | _ => True

structure Inv (conn : ℕ → ℕ → Prop) (wires : Wires) (t : Transfer) : Prop where
  channels : Channels.Inv conn t.channels
  called : ∀ c, (t.channels.receiver c).pc ≠ .idle →
    (t.reception c).wrapper ≠ (t.channels.receiver c).data ∧
      (t.reception c).channel.channel = c ∧ Wires.Sized wires.created (t.reception c).channel ∧
      t.world.cell (t.reception c).wrapper =
        some (.typed (t.reception c).channel.type (some (t.channels.receiver c).data))
  disjoint : ∀ c c' p, t.Part c p → t.Part c' p → c = c'
  below : ∀ p, t.InTransit p → p < t.world.fresh
  popped : ∀ s ∈ t.popped, Uncopied t.channels s.call →
    (∀ c, ¬ t.Part c s.call.data) ∧ t.world.cell s.call.data = some s.value
  filled : ∀ c, Filled (t.channels.receiver c).pc → ∀ s ∈ t.popped,
    (s.call, t.channels.receiveCall c) ∈ t.channels.matched →
      ∃ d, s.value.memncpy (getSize sizeofListMap (t.reception c).channel.type) = some d ∧
        t.world.cell (t.channels.receiver c).data = some d
  apart : t.Apart t.world
  pushed : ∀ q ∈ t.pushed, q.call ∈ t.channels.received ∧ q.type = q.reception.channel.type ∧
    ∀ s ∈ t.popped, (s.call, q.call) ∈ t.channels.matched →
      s.value.memncpy (getSize sizeofListMap q.reception.channel.type) = some q.value

variable {conn : ℕ → ℕ → Prop} {wires : Wires} {t t' : Transfer} {w : World} {c p : ℕ}
  {channels : Channels ℕ ℕ ℕ}

theorem Part.inTransit (h : t.Part c p) : t.InTransit p := .inl ⟨c, h⟩

/-- What else the components execute keeps the invariant. -/
theorem Inv.other (h : Inv conn wires t) (hw : t.Undisturbed (.other w)) :
    Inv conn wires { t with world := w } := by
  obtain ⟨hfresh, hcell, hstacks⟩ := hw
  refine ⟨h.channels, fun c hc => ?_, h.disjoint, fun p hp => (h.below p hp).trans_le hfresh,
    fun s hs hcopied => ?_, fun c hc s hs hmatched => ?_, hstacks, h.pushed⟩
  · obtain ⟨hne, hchannel, hsized, htyped⟩ := h.called c hc
    exact ⟨hne, hchannel, hsized, (hcell _ (Part.inTransit ⟨hc, .inl rfl⟩)).trans htyped⟩
  · obtain ⟨hpart, hvalue⟩ := h.popped s hs hcopied
    exact ⟨hpart, (hcell _ (.inr ⟨s, hs, rfl, hcopied⟩)).trans hvalue⟩
  · obtain ⟨d, hd, hblock⟩ := h.filled c hc s hs hmatched
    exact ⟨d, hd, (hcell _ (Part.inTransit ⟨hc.ne_idle, .inr rfl⟩)).trans hblock⟩

/-- A receive that has returned was matched before. -/
theorem Inv.returned (h : Inv conn wires t) {b : Call ℕ ℕ} (hb : b ∈ t.channels.received) :
    ∃ a, (a, b) ∈ t.channels.matched ∧ (b, a.data) ∈ t.channels.copied :=
  h.channels.record.received b hb

/-- Steps of the channels that neither copy nor return keep the invariant. -/
theorem Inv.quiet (h : Inv conn wires t) (hchannels : Channels.Inv conn channels)
    (hquiet : Quiet t.channels channels) : Inv conn wires { t with channels := channels } := by
  have hpart : ∀ c p, Part { t with channels := channels } c p ↔ t.Part c p := by
    intro c p
    unfold Part
    rw [hquiet.data_eq c]
    simp only [Ne, hquiet.idle c]
  have huncopied : ∀ a, Uncopied channels a → Uncopied t.channels a := by
    intro a ha b hab
    rw [← hquiet.copied]
    exact ha b (hquiet.matched a b hab)
  refine ⟨hchannels, fun c hc => ?_, fun c c' p hc hc' => ?_, fun p hp => ?_,
    fun s hs hcopied => ?_, fun c hc s hs hmatched => ?_, fun owner => ?_, fun q hq => ?_⟩
  · have hc' : (t.channels.receiver c).pc ≠ .idle := fun hidle => hc ((hquiet.idle c).2 hidle)
    show _ ≠ (channels.receiver c).data ∧ _ ∧ _ ∧
      t.world.cell _ = some (.typed _ (some (channels.receiver c).data))
    rw [hquiet.data_eq c]
    exact h.called c hc'
  · exact h.disjoint c c' p ((hpart c p).1 hc) ((hpart c' p).1 hc')
  · rcases hp with ⟨c, hc⟩ | ⟨s, hs, rfl, hcopied⟩
    · exact h.below p ((hpart c p).1 hc).inTransit
    · exact h.below _ (.inr ⟨s, hs, rfl, huncopied _ hcopied⟩)
  · obtain ⟨hparts, hvalue⟩ := h.popped s hs (huncopied _ hcopied)
    exact ⟨fun c hc => hparts c ((hpart c _).1 hc), hvalue⟩
  · have hc' := hquiet.filled c hc
    have hold : (s.call, t.channels.receiveCall c) ∈ t.channels.matched := by
      rw [hquiet.call c] at hmatched
      rcases hquiet.unmatched _ _ hmatched with hold | hnone
      · exact hold
      · obtain ⟨a, ha⟩ := h.channels.matched_of_filled hc'
        exact absurd ha (hnone a)
    obtain ⟨d, hd, hblock⟩ := h.filled c hc' s hs hold
    refine ⟨d, hd, ?_⟩
    show t.world.cell (channels.receiver c).data = some d
    rw [hquiet.data_eq c]
    exact hblock
  · obtain ⟨xs, hxs, hnames⟩ := h.apart owner
    refine ⟨xs, hxs, fun i hi p hp => ?_⟩
    obtain ⟨hlt, hparts⟩ := hnames i hi p hp
    exact ⟨hlt, fun c hc => hparts c ((hpart c p).1 hc)⟩
  · obtain ⟨hreceived, htype, hvalue⟩ := h.pushed q hq
    refine ⟨by show q.call ∈ channels.received; rwa [hquiet.received], htype,
      fun s hs hmatched => ?_⟩
    rcases hquiet.unmatched _ _ hmatched with hold | hnone
    · exact hvalue s hs hold
    · obtain ⟨a, ha, -⟩ := h.returned hreceived
      exact absurd ha (hnone a)

/-! ### Sending -/

/-- A send of an object that is no part of a call of `component_receive`. -/
theorem Inv.popped_concat (h : Inv conn wires t) {s : Sent}
    (hcall : ∀ b, (s.call, b) ∉ t.channels.matched) (hlt : s.call.data < t.world.fresh)
    (hpart : ∀ c, ¬ t.Part c s.call.data) (hcell : t.world.cell s.call.data = some s.value) :
    Inv conn wires { t with popped := t.popped ++ [s] } := by
  refine ⟨h.channels, h.called, h.disjoint, fun p hp => ?_, fun s' hs' hcopied => ?_,
    fun c hc s' hs' hmatched => ?_, h.apart, fun q hq => ?_⟩
  · rcases hp with hp | ⟨s', hs', rfl, hcopied⟩
    · exact h.below p (.inl hp)
    · rcases List.mem_append.1 hs' with hs' | hs'
      · exact h.below _ (.inr ⟨s', hs', rfl, hcopied⟩)
      · obtain rfl := List.mem_singleton.1 hs'
        exact hlt
  · rcases List.mem_append.1 hs' with hs' | hs'
    · exact h.popped s' hs' hcopied
    · obtain rfl := List.mem_singleton.1 hs'
      exact ⟨hpart, hcell⟩
  · rcases List.mem_append.1 hs' with hs' | hs'
    · exact h.filled c hc s' hs' hmatched
    · obtain rfl := List.mem_singleton.1 hs'
      exact absurd hmatched (hcall _)
  · obtain ⟨hreceived, htype, hvalue⟩ := h.pushed q hq
    refine ⟨hreceived, htype, fun s' hs' hmatched => ?_⟩
    rcases List.mem_append.1 hs' with hs' | hs'
    · exact hvalue s' hs' hmatched
    · obtain rfl := List.mem_singleton.1 hs'
      exact absurd hmatched (hcall _)

/-- A state of the machine that differs in the stack of a component, which has lost its first item,
and in the file the component reads. -/
theorem Apart.pop {this : ℕ} {f : File} {item : Option ℕ} {s : Stack ℕ} (h : t.Apart w)
    (hpop : (w.component this).dataStack.pop = some (item, s)) :
    t.Apart ((w.setSource this f).setComponent this
      { w.component this with dataStack := s }) := by
  intro owner
  obtain ⟨xs, hxs, hnames⟩ := h owner
  by_cases howner : owner = this
  · subst howner
    rw [World.setComponent_component]
    cases xs with
    | nil =>
      rw [hxs.pop_nil] at hpop
      cases hpop
      exact ⟨[], hxs, hnames⟩
    | cons x xs =>
      obtain ⟨s', hpop', hs'⟩ := hxs.pop_cons
      rw [hpop'] at hpop
      cases hpop
      exact ⟨xs, hs', fun i hi => hnames i (List.mem_cons_of_mem _ hi)⟩
  · refine ⟨xs, ?_, hnames⟩
    show (Function.update w.component this _ owner).dataStack.Holds xs
    rw [Function.update_of_ne howner]
    exact hxs

theorem Inv.send {this : ℕ} (h : Inv conn wires t)
    (hstep : t.step wires (.send this) = some t') : Inv conn wires t' := by
  unfold step at hstep
  simp only at hstep
  split at hstep
  · rename_i channel type object world hrun
    simp only [Option.bind_eq_bind, Option.bind_eq_some_iff] at hstep
    obtain ⟨channels, hcall, value, hvalue, hstep⟩ := hstep
    cases hstep
    obtain ⟨f, s, p, hpop, htyped, rfl⟩ := Component.returns_send hrun
    obtain ⟨hidle, rfl⟩ := Channels.called_of_send hcall
    -- what is popped was on the stack
    obtain ⟨xs, hxs, hnames⟩ := h.apart this
    have hmem : some p ∈ xs := by
      cases xs with
      | nil =>
        rw [hxs.pop_nil] at hpop
        cases hpop
      | cons x xs =>
        obtain ⟨s', hpop', -⟩ := hxs.pop_cons
        rw [hpop'] at hpop
        cases hpop
        exact List.mem_cons_self
    obtain ⟨hlt, hparts⟩ := hnames p hmem object (.inr ⟨type, htyped⟩)
    have hundisturbed : t.Undisturbed (.other ((t.world.setSource this f).setComponent this
        { t.world.component this with dataStack := s })) :=
      ⟨le_rfl, fun _ _ => rfl, h.apart.pop hpop⟩
    have hworld := h.other hundisturbed
    have hcalled := hworld.quiet (hworld.channels.call_send object hidle)
      ⟨fun _ => Iff.rfl, fun _ => id, fun _ => rfl, rfl, rfl, fun _ _ => id, fun _ _ => .inl⟩
    refine hcalled.popped_concat (fun b hb => ?_) ?_ ?_ ?_
    · have hle := h.channels.record.sendNumbers _ hb
      simp only [sendCall, Function.update_self] at hle
      exact absurd hle (Nat.not_succ_le_self _)
    all_goals simp only [sendCall, Function.update_self]
    · exact hlt
    · exact hparts
    · exact hvalue
  · cases hstep

/-! ### Receiving -/

/-- Where a call begins on a channel, the parts are the two new objects of that call, and the old ones
on the other channels. -/
theorem Part.of_call {c₀ number this : ℕ} {channel : ChannelWrapper}
    (h : Part { t with
      channels := { t.channels with
        receiver := Function.update t.channels.receiver c₀ ⟨.waitConns, number, t.world.fresh⟩ }
      reception := Function.update t.reception c₀ ⟨this, channel, t.world.fresh + 1⟩ } c p) :
    (c = c₀ ∧ t.world.fresh ≤ p ∧ p < t.world.fresh + 2) ∨ t.Part c p := by
  obtain ⟨hpc, hp⟩ := h
  by_cases hc : c = c₀
  · subst hc
    simp only [Function.update_self] at hp
    exact .inl ⟨rfl, by omega⟩
  · simp only [Function.update_of_ne hc] at hpc hp
    exact .inr ⟨hpc, hp⟩

/-- A call of `component_receive` makes two objects that nobody names. -/
theorem Inv.receive {this : ℕ} (hwires : wires.Consistent) (h : Inv conn wires t)
    (hstep : t.step wires (.receive this) = some t') : Inv conn wires t' := by
  unfold step at hstep
  simp only at hstep
  split at hstep
  · rename_i channel wrapper block world hrun
    simp only [Option.bind_eq_bind, Option.bind_eq_some_iff] at hstep
    obtain ⟨channels, hcall, hstep⟩ := hstep
    cases hstep
    obtain ⟨f, ⟨name, m, hget⟩, rfl, rfl, rfl⟩ := Component.returns_beginReceive hrun
    obtain ⟨hidle, rfl⟩ := Channels.called_of_receive hcall
    have hsized : Wires.Sized wires.created channel := (hwires this).get hget
    -- the wrapper and the block are new cells, so no other reception has a part in them
    have hnew : ∀ c p, t.Part c p → p < t.world.fresh := fun c p hp => h.below p hp.inTransit
    refine ⟨h.channels.call_receive _ hidle, fun c hc => ?_, fun c c' p hc hc' => ?_, fun p hp => ?_,
      fun s hs hcopied => ?_, fun c hc s hs hmatched => ?_, fun owner => ?_, h.pushed⟩
    · by_cases hc' : c = channel.channel
      · subst hc'
        simp only [Function.update_self]
        exact ⟨Nat.succ_ne_self _, trivial, hsized, World.boxed_typed⟩
      · simp only [Function.update_of_ne hc'] at hc ⊢
        obtain ⟨hne, hchannel, hsized', htyped⟩ := h.called c hc
        refine ⟨hne, hchannel, hsized', (World.boxed_old ?_).trans htyped⟩
        exact hnew c _ ⟨hc, .inl rfl⟩
    -- two receptions with a cell in common are the same
    · rcases Part.of_call hc with ⟨rfl, hp⟩ | hold
      · rcases Part.of_call hc' with ⟨rfl, -⟩ | hold'
        · rfl
        · have := hnew _ _ hold'
          omega
      · rcases Part.of_call hc' with ⟨rfl, hp⟩ | hold'
        · have := hnew _ _ hold
          omega
        · exact h.disjoint c c' p hold hold'
    · show p < t.world.fresh + 2
      rcases hp with ⟨c, hc⟩ | hs
      · rcases Part.of_call hc with ⟨-, hp⟩ | hold
        · omega
        · have := hnew _ _ hold
          omega
      · have := h.below p (.inr hs)
        omega
    · obtain ⟨hparts, hvalue⟩ := h.popped s hs hcopied
      have hlt : s.call.data < t.world.fresh := h.below _ (.inr ⟨s, hs, rfl, hcopied⟩)
      refine ⟨fun c hc => ?_, (World.boxed_old hlt).trans hvalue⟩
      rcases Part.of_call hc with ⟨-, hp⟩ | hold
      · omega
      · exact hparts c hold
    · by_cases hc' : c = channel.channel
      · subst hc'
        simp only [Function.update_self] at hc
        exact absurd hc id
      · simp only [receiveCall, Function.update_of_ne hc'] at hc hmatched ⊢
        obtain ⟨d, hd, hblock⟩ := h.filled c hc s hs hmatched
        refine ⟨d, hd, (World.boxed_old ?_).trans hblock⟩
        exact hnew c _ ⟨hc.ne_idle, .inr rfl⟩
    -- nothing on a data stack names a cell of a reception
    · obtain ⟨xs, hxs, hnames⟩ := h.apart owner
      refine ⟨xs, hxs, fun i hi p hp => ?_⟩
      have hi' : i < t.world.fresh := (hnames i hi i (.inl rfl)).1
      have hp' : t.world.Names i p := by
        rcases hp with rfl | ⟨type, hp⟩
        · exact .inl rfl
        · exact .inr ⟨type, (World.boxed_old hi').symm.trans hp⟩
      obtain ⟨hlt, hparts⟩ := hnames i hi p hp'
      refine ⟨Nat.lt_add_right 2 hlt, fun c hc => ?_⟩
      rcases Part.of_call hc with ⟨-, hp⟩ | hold
      · omega
      · exact hparts c hold
  · cases hstep

/-- A step that copies fills the block with what the send has popped. -/
theorem Inv.copies (h : Inv conn wires t) (hchannels : Channels.Inv conn channels) {data : ℕ}
    (hcopies : Copies t.channels channels c data) (hidle : (t.channels.receiver c).pc ≠ .idle)
    (hcopy : copy wires t.world (t.channels.receiveCall c, data) = some w) :
    Inv conn wires { t with world := w, channels := channels } := by
  obtain ⟨hne, hchannel, ⟨direction, hsized⟩, -⟩ := h.called c hidle
  rw [hchannel] at hsized
  simp only [copy, receiveCall, hsized, Option.bind_eq_bind, Option.bind_some,
    Option.bind_eq_some_iff] at hcopy
  obtain ⟨v, hv, d, hd, hw⟩ := hcopy
  obtain rfl := Option.some.inj hw
  have hpart : ∀ c' p, Part { t with channels := channels } c' p ↔ t.Part c' p := by
    intro c' p
    unfold Part
    rw [hcopies.data_eq c']
    simp only [Ne, hcopies.idle c']
  have hblock : t.Part c (t.channels.receiver c).data := ⟨hidle, .inr rfl⟩
  have huncopied : ∀ a, Uncopied channels a → Uncopied t.channels a := by
    intro a ha b hab hb
    refine ha b (hcopies.matched a b hab) ?_
    rw [hcopies.copied]
    exact List.mem_append_left _ hb
  -- the other objects are as they were
  have hcell : ∀ p, p ≠ (t.channels.receiver c).data → Function.update t.world.cell
      (t.channels.receiver c).data (some d) p = t.world.cell p := fun p hp =>
    Function.update_of_ne hp ..
  refine ⟨hchannels, fun c' hc' => ?_, fun c₁ c₂ p hc₁ hc₂ => ?_, fun p hp => ?_,
    fun s hs hs' => ?_, fun c' hc' s hs hab => ?_, fun owner => ?_, fun q hq => ?_⟩
  · have hc'' : (t.channels.receiver c').pc ≠ .idle := fun hold => hc' ((hcopies.idle c').2 hold)
    obtain ⟨hne', hchannel', hsized', htyped'⟩ := h.called c' hc''
    have hapart : (t.reception c').wrapper ≠ (t.channels.receiver c).data := by
      intro heq
      obtain rfl : c' = c := h.disjoint c' c _ ⟨hc'', .inl rfl⟩ (heq ▸ hblock)
      exact hne heq
    show _ ≠ (channels.receiver c').data ∧ _ ∧ _ ∧
      Function.update t.world.cell _ _ _ = some (.typed _ (some (channels.receiver c').data))
    rw [hcopies.data_eq c', hcell _ hapart]
    exact ⟨hne', hchannel', hsized', htyped'⟩
  · exact h.disjoint c₁ c₂ p ((hpart c₁ p).1 hc₁) ((hpart c₂ p).1 hc₂)
  · rcases hp with ⟨c', hc'⟩ | ⟨s, hs, rfl, hs'⟩
    · exact h.below p ((hpart c' p).1 hc').inTransit
    · exact h.below _ (.inr ⟨s, hs, rfl, huncopied _ hs'⟩)
  · obtain ⟨hparts, hvalue⟩ := h.popped s hs (huncopied _ hs')
    refine ⟨fun c' hc' => hparts c' ((hpart c' _).1 hc'), (hcell _ ?_).trans hvalue⟩
    exact fun heq => hparts c (heq ▸ hblock)
  · show ∃ d', _ ∧ Function.update t.world.cell _ _ (channels.receiver c').data = some d'
    rw [hcopies.call c'] at hab
    rw [hcopies.data_eq c']
    by_cases hc : c' = c
    · subst hc
      obtain ⟨rfl, hfirst⟩ := hcopies.source hchannels hab
      obtain ⟨-, hvalue⟩ := h.popped s hs hfirst
      obtain rfl : v = s.value := Option.some.inj (hv.symm.trans hvalue)
      exact ⟨d, hd, Function.update_self ..⟩
    · have hold : (s.call, t.channels.receiveCall c') ∈ t.channels.matched := by
        rcases hcopies.unmatched _ _ hab with hold | heq
        · exact hold
        · exact absurd (congrArg Call.channel heq) hc
      have hc'' := hcopies.filled c' hc hc'
      obtain ⟨d', hd', hvalue⟩ := h.filled c' hc'' s hs hold
      refine ⟨d', hd', (hcell _ fun heq => hc ?_).trans hvalue⟩
      exact h.disjoint c' c _ ⟨hc''.ne_idle, .inr rfl⟩ (heq ▸ hblock)
  · obtain ⟨xs, hxs, hnames⟩ := h.apart owner
    refine ⟨xs, hxs, fun i hi p hp => ?_⟩
    have hi' : i ≠ (t.channels.receiver c).data := by
      rintro rfl
      exact (hnames _ hi _ (.inl rfl)).2 c hblock
    have hp' : t.world.Names i p := by
      rcases hp with rfl | ⟨type, hp⟩
      · exact .inl rfl
      · exact .inr ⟨type, (hcell i hi').symm.trans hp⟩
    obtain ⟨hlt, hparts⟩ := hnames i hi p hp'
    exact ⟨hlt, fun c' hc' => hparts c' ((hpart c' p).1 hc')⟩
  · obtain ⟨hreceived, htype, hvalue⟩ := h.pushed q hq
    refine ⟨by show q.call ∈ channels.received; rwa [hcopies.received], htype, fun s hs hab => ?_⟩
    exact hvalue s hs (hcopies.matched_of_received h.channels hchannels hreceived hab)

/-- A step that returns pushes the typed object with the block. -/
theorem Inv.finishes (h : Inv conn wires t) (hchannels : Channels.Inv conn channels)
    (hfinishes : Finishes t.channels channels c) {type : UInt8} {value : Cell}
    (hbox : t.world.boxAt (t.reception c).wrapper = some (type, value)) :
    Inv conn wires { t with
      world := push t.world (t.reception c)
      channels := channels
      pushed := t.pushed ++ [⟨channels.receiveCall c, t.reception c, type, value⟩] } := by
  have hidle : (t.channels.receiver c).pc ≠ .idle := hfinishes.filled.ne_idle
  obtain ⟨-, -, -, htyped⟩ := h.called c hidle
  simp only [World.boxAt, htyped, Option.bind_eq_bind, Option.bind_some,
    Option.bind_eq_some_iff] at hbox
  obtain ⟨value', hvalue, hbox⟩ := hbox
  cases hbox
  have hpart : ∀ c' p, Part { t with channels := channels } c' p → c' ≠ c ∧ t.Part c' p := by
    rintro c' p ⟨hc', hp⟩
    have hne : c' ≠ c := by
      rintro rfl
      exact hc' hfinishes.idle
    rw [show channels.receiver c' = t.channels.receiver c' from hfinishes.others c' hne] at hc' hp
    exact ⟨hne, hc', hp⟩
  have huncopied : ∀ a, Uncopied channels a → Uncopied t.channels a := by
    intro a ha
    unfold Uncopied at ha ⊢
    rwa [hfinishes.matched, hfinishes.copied] at ha
  refine ⟨hchannels, fun c' hc' => ?_, fun c₁ c₂ p hc₁ hc₂ => ?_, fun p hp => ?_,
    fun s hs hs' => ?_, fun c' hc' s hs hab => ?_, fun owner => ?_, fun q hq => ?_⟩
  · obtain ⟨hne, hc'', -⟩ := hpart c' _ ⟨hc', .inl rfl⟩
    show _ ≠ (channels.receiver c').data ∧ _ ∧ _ ∧
      t.world.cell _ = some (.typed _ (some (channels.receiver c').data))
    rw [hfinishes.others c' hne]
    exact h.called c' hc''
  · exact h.disjoint c₁ c₂ p (hpart c₁ p hc₁).2 (hpart c₂ p hc₂).2
  · rcases hp with ⟨c', hc'⟩ | ⟨s, hs, rfl, hs'⟩
    · exact h.below p (hpart c' p hc').2.inTransit
    · exact h.below _ (.inr ⟨s, hs, rfl, huncopied _ hs'⟩)
  · obtain ⟨hparts, hcell⟩ := h.popped s hs (huncopied _ hs')
    exact ⟨fun c' hc' => hparts c' (hpart c' _ hc').2, hcell⟩
  · obtain ⟨hne, -⟩ := hpart c' _ ⟨hc'.ne_idle, .inl rfl⟩
    have hab' : (s.call, t.channels.receiveCall c') ∈ t.channels.matched := by
      rwa [← hfinishes.matched, ← hfinishes.call c']
    rw [hfinishes.others c' hne] at hc' ⊢
    exact h.filled c' hc' s hs hab'
  · obtain ⟨xs, hxs, hnames⟩ := h.apart owner
    have hold : ∀ i, some i ∈ xs → ∀ p, t.world.Names i p → p < t.world.fresh ∧
        ∀ c', ¬ Part { t with channels := channels } c' p := by
      intro i hi p hp
      obtain ⟨hlt, hparts⟩ := hnames i hi p hp
      exact ⟨hlt, fun c' hc' => hparts c' (hpart c' p hc').2⟩
    -- the wrapper goes onto the stack of its own component, and is no longer in transit
    by_cases howner : owner = (t.reception c).component
    · subst howner
      refine ⟨some (t.reception c).wrapper :: xs, ?_, fun i hi p hp => ?_⟩
      · show (Function.update t.world.component _ _ _).dataStack.Holds _
        rw [Function.update_self]
        exact hxs.push _
      · rcases List.mem_cons.1 hi with heq | hi
        · obtain rfl := Option.some.inj heq
          have hp' : t.Part c p := by
            refine ⟨hidle, ?_⟩
            rcases hp with rfl | ⟨type, hp⟩
            · exact .inl rfl
            · have htyped' := htyped.symm.trans hp
              cases htyped'
              exact .inr rfl
          refine ⟨h.below p hp'.inTransit, fun c' hc' => ?_⟩
          obtain ⟨hne, hpart'⟩ := hpart c' p hc'
          -- a cell of another reception would belong to both
          exact hne (h.disjoint c' c p hpart' hp')
        · exact hold i hi p hp
    · refine ⟨xs, ?_, hold⟩
      show (Function.update t.world.component _ _ owner).dataStack.Holds _
      rw [Function.update_of_ne howner]
      exact hxs
  · rcases List.mem_append.1 hq with hq | hq
    · obtain ⟨hreceived, htype, hvalues⟩ := h.pushed q hq
      refine ⟨?_, htype, fun s hs hab => hvalues s hs (hfinishes.matched ▸ hab)⟩
      show q.call ∈ channels.received
      rw [hfinishes.received]
      exact List.mem_append_left _ hreceived
    · obtain rfl := List.mem_singleton.1 hq
      refine ⟨?_, rfl, fun s hs hab => ?_⟩
      · show channels.receiveCall c ∈ channels.received
        rw [hfinishes.received, hfinishes.call]
        exact List.mem_append_right _ (List.mem_singleton_self _)
      · have hab' : (s.call, t.channels.receiveCall c) ∈ t.channels.matched := by
          rwa [← hfinishes.matched, ← hfinishes.call c]
        -- what is pushed is what the copy filled the block with
        obtain ⟨d, hd, hblock⟩ := h.filled c hfinishes.filled s hs hab'
        obtain rfl : d = value := Option.some.inj (hblock.symm.trans hvalue)
        exact hd

theorem Inv.stepReceive (h : Inv conn wires t)
    (hstep : t.step wires (.stepReceive c) = some t') : Inv conn wires t' := by
  unfold step at hstep
  simp only [Option.bind_eq_bind, Option.bind_eq_some_iff] at hstep
  obtain ⟨channels, hchannels, world, hworld, hstep⟩ := hstep
  have hinv : Channels.Inv conn channels := h.channels.step hchannels
  obtain ⟨hidle, heffect⟩ := (receiveStep_of_stepReceive hchannels).effect
  rcases heffect with hquiet | ⟨data, hcopies⟩ | hfinishes
  · rw [hquiet.copied, List.drop_length, List.foldlM_nil] at hworld
    obtain rfl : t.world = world := Option.some.inj hworld
    rw [if_neg fun hc => hidle ((hquiet.idle c).1 hc)] at hstep
    obtain rfl := Option.some.inj hstep
    exact h.quiet hinv hquiet
  · rw [hcopies.copied, List.drop_left, List.foldlM_cons, Option.bind_eq_bind,
      Option.bind_eq_some_iff] at hworld
    obtain ⟨w, hcopy, hworld⟩ := hworld
    obtain rfl : w = world := Option.some.inj hworld
    rw [if_neg fun hc => hidle ((hcopies.idle c).1 hc)] at hstep
    obtain rfl := Option.some.inj hstep
    exact h.copies hinv hcopies hidle hcopy
  · rw [hfinishes.copied, List.drop_length, List.foldlM_nil] at hworld
    obtain rfl : t.world = world := Option.some.inj hworld
    rw [if_pos hfinishes.idle, Option.bind_eq_some_iff] at hstep
    obtain ⟨⟨type, value⟩, hbox, hstep⟩ := hstep
    obtain rfl := Option.some.inj hstep
    exact h.finishes hinv hfinishes hbox

/-! ### Runs -/

/-- One event keeps the invariant. -/
theorem Inv.step {e : TransferEvent} (hwires : wires.Consistent) (h : Inv conn wires t)
    (he : t.Undisturbed e) (hstep : t.step wires e = some t') : Inv conn wires t' := by
  cases e with
  | send this => exact h.send hstep
  | receive this => exact h.receive hwires hstep
  | stepSend channel =>
    simp only [Transfer.step, Option.bind_eq_bind, Option.bind_eq_some_iff] at hstep
    obtain ⟨channels, hchannels, hstep⟩ := hstep
    obtain rfl := Option.some.inj hstep
    have hquiet := (sendStep_of_stepSend hchannels).quiet h.channels
    exact h.quiet (h.channels.step hchannels) hquiet
  | stepReceive channel => exact h.stepReceive hstep
  | other world =>
    obtain rfl := Option.some.inj hstep
    exact h.other he

/-- No channel is in use and nothing has been popped; the data stacks name objects that are there. -/
structure Initial (conn : ℕ → ℕ → Prop) (t : Transfer) : Prop where
  channels : Channels.Initial conn t.channels
  dataStacks : ∀ owner, ∃ xs, (t.world.component owner).dataStack.Holds xs ∧
    ∀ i, some i ∈ xs → ∀ p, t.world.Names i p → p < t.world.fresh
  popped : t.popped = []
  pushed : t.pushed = []

theorem Initial.inv (h : Initial conn t) : Inv conn wires t := by
  have hpart : ∀ c p, ¬ t.Part c p := fun c p hc => hc.1 (h.channels.receiver c)
  refine ⟨h.channels.inv, fun c hc => absurd (h.channels.receiver c) hc,
    fun c c' p hc => absurd hc (hpart c p), fun p hp => ?_, fun s hs => ?_, fun c hc => ?_,
    fun owner => ?_, fun q hq => ?_⟩
  · rcases hp with ⟨c, hc⟩ | ⟨s, hs, -⟩
    · exact absurd hc (hpart c p)
    · rw [h.popped] at hs
      cases hs
  · rw [h.popped] at hs
    cases hs
  · exact absurd (h.channels.receiver c) hc.ne_idle
  · obtain ⟨xs, hxs, hnames⟩ := h.dataStacks owner
    exact ⟨xs, hxs, fun i hi p hp => ⟨hnames i hi p hp, fun c => hpart c p⟩⟩
  · rw [h.pushed] at hq
    cases hq

theorem Initial.inv_run {events : List TransferEvent} (hwires : DeclaredWires wires)
    (h : Initial conn t) (hevents : Along (Transfer.step wires) Undisturbed t events)
    (hrun : run (Transfer.step wires) t events = some t') : Inv conn wires t' :=
  run_invariant _ (fun _ _ _ hinv he hstep => hinv.step hwires.consistent he hstep) h.inv hevents hrun

/-- The operands of a `COMPONENT` with one channel. -/
def declaration (direction type : UInt8) : List UInt8 :=
  [typeString, 65, 0, 1, 1, direction, type, typeString, 99, 0]

def inFrontOfDeclaration (direction type : UInt8) : World :=
  World.atCode (declaration direction type) none Stack.constructor []

/-- The two components in front of the name of their channels, each with a value on its stack. -/
def pair (type : UInt8) (value : Cell) : Transfer where
  world := World.atCode [typeString, 99, 0, typeString, 99, 0] none
    (Stack.constructor.push (some 1)) [value, .typed type (some 0)]
  channels := Channels.bound (fun _ => [0]) (fun _ => [1]) 0
  reception := fun _ => ⟨0, ⟨0, 0⟩, 0⟩
  popped := []
  pushed := []

instance decidableHasType (type : UInt8) : ∀ c : Cell, Decidable (c.HasType type)
  | .bytes value => inferInstanceAs
      (Decidable (isFixedType type = true ∧ value.length = getSize sizeofListMap type))
  | .string _ => inferInstanceAs (Decidable (type = typeString))
  | .map _ => inferInstanceAs (Decidable (type = typeStruct))
  | .typed .. => inferInstanceAs (Decidable (type = typeAny))
  | .long _ | .file _ | .component _ => inferInstanceAs (Decidable False)

end Transfer

end InsenseCVM
