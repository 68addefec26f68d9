import InsenseCVM.Channels.Rendezvous
import Mathlib.Data.Fintype.Basic
import Mathlib.Data.Finset.Card

/-!
# Acknowledgement

A send that found its receiver waits for a token on the receiver's `actually_received`, which the
receive posts after its copy. The semaphore counts, and any sender of the receiver may take the
token. A receive that was taken and has not posted yet is `Pending`; the sends that wait outnumber
the tokens by one exactly then, and only the send taken last can be the one whose data has not
been copied. A run in which that send never takes a token posted for another one acknowledges
every send in time: `acknowledged_of_inTurn`.
-/

namespace InsenseCVM

namespace Channels

open Transition

variable {I O Ptr : Type}

/-- The receive on `c` was taken by a send and has not posted `actually_received` yet. -/
def Pending (c : Channel O Ptr) (t : Thread ReceivePc Ptr) : Prop :=
  match t.pc with
  | .scan _ _ | .waitBlocked => c.ready = false
  | .copy | .postReceived => True
  | .idle | .waitConns | .setReady | .postConns => False

instance (c : Channel O Ptr) (t : Thread ReceivePc Ptr) : Decidable (Pending c t) := by
  unfold Pending
  split <;> infer_instance

/-- Every send that returned was matched with receives that have finished copying its data. -/
def Acknowledged (s : Channels I O Ptr) : Prop :=
  ∀ a ∈ s.sent, ∀ b, (a, b) ∈ s.matched → (b, a.data) ∈ s.copied

variable [DecidableEq I] [DecidableEq O] [Fintype O]

/-- The senders that wait on the `actually_received` of a receiver. -/
def waiting (s : Channels I O Ptr) (i : I) : Finset O :=
  Finset.univ.filter fun o => (s.sender o).pc = .waitReceived i

/-- A send takes a token from `actually_received` only when there is one for each send that waits
there, or when a send that was matched with a later receive waits there too. -/
def InTurn (s : Channels I O Ptr) : Event I O Ptr → Prop
  | .stepSend o => ∀ i, (s.sender o).pc = .waitReceived i →
      (s.waiting i).card ≤ (s.cin i).actuallyReceived ∨
        ∃ o' ∈ s.waiting i, ∃ b b', (s.sendCall o, b) ∈ s.matched ∧
          (s.sendCall o', b') ∈ s.matched ∧ b.number < b'.number
  | _ => True

/-- The tokens fall short of the waiting sends by the receive that is pending, and a matched send
whose data has not been copied waits for that receive. -/
structure Settled (s : Channels I O Ptr) : Prop where
  tokens : ∀ i, (s.waiting i).card =
    (s.cin i).actuallyReceived + if Pending (s.cin i) (s.receiver i) then 1 else 0
  matched : ∀ a b, (a, b) ∈ s.matched → (b, a.data) ∈ s.copied ∨
    ∃ o i, a = s.sendCall o ∧ (s.sender o).pc = .waitReceived i ∧ b = s.receiveCall i ∧
      Pending (s.cin i) (s.receiver i)

variable {conn : I → O → Prop} {s s' : Channels I O Ptr}

omit [DecidableEq O] in
theorem mem_waiting {i : I} {o : O} : o ∈ s.waiting i ↔ (s.sender o).pc = .waitReceived i := by
  simp [waiting]

/-- A step of one sender between other places leaves the waiting senders. -/
theorem waiting_update {o : O} {pc : SendPc I} {i : I}
    (hsender : s'.sender = Function.update s.sender o { s.sender o with pc := pc })
    (hold : (s.sender o).pc ≠ .waitReceived i) (hnew : pc ≠ .waitReceived i) :
    s'.waiting i = s.waiting i := by
  ext o'
  rw [mem_waiting, mem_waiting, hsender]
  by_cases ho : o' = o
  · subst ho
    rw [Function.update_self]
    exact iff_of_false hnew hold
  · rw [Function.update_of_ne ho]

/-- A step of a sender that neither starts nor ends to wait. -/
theorem Settled.of_send (h : Settled s) {o : O} {pc : SendPc I}
    (hsender : s'.sender = Function.update s.sender o { s.sender o with pc := pc })
    (hold : ∀ i, (s.sender o).pc ≠ .waitReceived i) (hnew : ∀ i, pc ≠ .waitReceived i)
    (hcin : s'.cin = s.cin) (hreceiver : s'.receiver = s.receiver)
    (hmatched : s'.matched = s.matched) (hcopied : s'.copied = s.copied) : Settled s' where
  tokens := fun i => by
    rw [waiting_update hsender (hold i) (hnew i), hcin, hreceiver]
    exact h.tokens i
  matched := fun a b hab => by
    rw [hmatched] at hab
    rw [hcopied]
    rcases h.matched a b hab with hcopy | ⟨o', i, rfl, hpc, rfl, hpend⟩
    · exact Or.inl hcopy
    · have ho : o' ≠ o := by
        rintro rfl
        exact hold i hpc
      refine Or.inr ⟨o', i, (sendCall_update hsender o').symm, ?_, ?_, ?_⟩
      · rw [hsender, Function.update_of_ne ho, hpc]
      · unfold receiveCall
        rw [hreceiver]
      · rwa [hcin, hreceiver]

omit [DecidableEq O] in
/-- A step of a receiver that is pending after it when it was before, and posts nothing; a match
it makes is copied at once. -/
theorem Settled.of_receive (h : Settled s) {i : I} {c : Channel O Ptr} {pc : ReceivePc}
    (hcin : s'.cin = Function.update s.cin i c)
    (hreceiver : s'.receiver = Function.update s.receiver i { s.receiver i with pc := pc })
    (hsender : s'.sender = s.sender)
    (hmatched : ∀ a b, (a, b) ∈ s'.matched → (a, b) ∈ s.matched ∨ (b, a.data) ∈ s'.copied)
    (hcopied : s.copied ⊆ s'.copied)
    (htokens : c.actuallyReceived = (s.cin i).actuallyReceived)
    (hpend : Pending c { s.receiver i with pc := pc } ↔ Pending (s.cin i) (s.receiver i)) :
    Settled s' := by
  have hpend' : ∀ i', Pending (s'.cin i') (s'.receiver i') ↔ Pending (s.cin i') (s.receiver i') := by
    intro i'
    rw [hcin, hreceiver]
    by_cases hi : i' = i
    · subst hi
      rw [Function.update_self, Function.update_self]
      exact hpend
    · rw [Function.update_of_ne hi, Function.update_of_ne hi]
  refine ⟨fun i' => ?_, fun a b hab => ?_⟩
  · have hwait : s'.waiting i' = s.waiting i' := by
      unfold waiting
      rw [hsender]
    have hsame : (s'.cin i').actuallyReceived = (s.cin i').actuallyReceived := by
      rw [hcin]
      by_cases hi : i' = i
      · subst hi
        rw [Function.update_self, htokens]
      · rw [Function.update_of_ne hi]
    rw [hwait, hsame, h.tokens i']
    simp only [hpend' i']
  · rcases hmatched a b hab with hab | hcopy
    · rcases h.matched a b hab with hcopy | ⟨o, i', rfl, hpc, rfl, hp⟩
      · exact Or.inl (hcopied hcopy)
      · refine Or.inr ⟨o, i', ?_, by rw [hsender, hpc], (receiveCall_update hreceiver i').symm,
          (hpend' i').2 hp⟩
        unfold sendCall
        rw [hsender]
    · exact Or.inl hcopy

omit [DecidableEq I] [DecidableEq O] [Fintype O] in
theorem ReceiverOk.not_pending {c : Channel O Ptr} {t : Thread ReceivePc Ptr}
    {gives : Call O Ptr → Prop} {copies : Ptr → Prop} (h : ReceiverOk c t gives copies)
    (hready : c.ready = true) : ¬ Pending c t := by
  unfold ReceiverOk at h
  unfold Pending
  cases hpc : t.pc with
  | scan j length | waitBlocked => simp [hready]
  | idle | waitConns | setReady | copy | postConns | postReceived =>
    simp only [hpc, hready, Bool.true_eq_false, false_and] at h

omit [DecidableEq I] [DecidableEq O] [Fintype O] in
/-- A receive that is taken becomes pending. -/
theorem ReceiverOk.pending_of_ready {c c' : Channel O Ptr} {t : Thread ReceivePc Ptr}
    {gives : Call O Ptr → Prop} {copies : Ptr → Prop} (h : ReceiverOk c t gives copies)
    (hready : c.ready = true) (hc' : c'.ready = false) : Pending c' t := by
  unfold ReceiverOk at h
  unfold Pending
  cases hpc : t.pc with
  | scan j length | waitBlocked => exact hc'
  | idle | waitConns | setReady | copy | postConns | postReceived =>
    simp only [hpc, hready, Bool.true_eq_false, false_and] at h

omit [DecidableEq O] in
/-- A matched send that does not wait has had its data copied. -/
theorem Settled.copied (h : Settled s) {o : O} {b : Call I Ptr}
    (hpc : ∀ i, (s.sender o).pc ≠ .waitReceived i) (hb : (s.sendCall o, b) ∈ s.matched) :
    (b, (s.sendCall o).data) ∈ s.copied := by
  rcases h.matched _ _ hb with hcopy | ⟨o', i, heq, hwait, -⟩
  · exact hcopy
  · obtain rfl : o = o' := congrArg Call.channel heq
    exact absurd hwait (hpc i)

omit [DecidableEq O] in
/-- The data of a send whose turn it is has been copied. -/
theorem Settled.copied_of_inTurn (h : Settled s) (hinv : Inv conn s) {o : O} {i : I}
    (hturn : InTurn s (.stepSend o)) (hpc : (s.sender o).pc = .waitReceived i) {b : Call I Ptr}
    (hb : (s.sendCall o, b) ∈ s.matched) : (b, (s.sendCall o).data) ∈ s.copied := by
  rcases h.matched _ _ hb with hcopy | ⟨o', i', heq, hwait, rfl, hpend⟩
  · exact hcopy
  · obtain rfl : o = o' := congrArg Call.channel heq
    obtain rfl : i = i' := by
      rw [hpc] at hwait
      exact SendPc.waitReceived.inj hwait
    rcases hturn i hpc with hle | ⟨o₂, ho₂, b₁, b₂, hb₁, hb₂, hlt⟩
    · -- there is a token for each, so nothing is pending
      have htokens := h.tokens i
      rw [if_pos hpend] at htokens
      omega
    · -- no receive on `i` has a later number than the pending one
      have hsame : b₁ = s.receiveCall i := congrArg Prod.snd
        (List.inj_on_of_nodup_map hinv.record.sendersOnce hb₁ hb rfl)
      subst hsame
      have hok := hinv.sender o₂
      simp only [SenderOk, mem_waiting.1 ho₂] at hok
      obtain ⟨-, -, b, hb', rfl⟩ := hok
      obtain rfl : b₂ = b := congrArg Prod.snd
        (List.inj_on_of_nodup_map hinv.record.sendersOnce hb₂ hb' rfl)
      have hnumber : b₂.number ≤ (s.receiver b₂.channel).number :=
        hinv.record.receiveNumbers _ hb₂
      exact absurd hlt (Nat.not_lt.2 hnumber)

/-! ### The steps that start and end to wait -/

theorem waiting_of_ne {i : I} {o : O} {pc : SendPc I}
    (hsender : s'.sender = Function.update s.sender o { s.sender o with pc := pc }) :
    (s'.waiting i).erase o = (s.waiting i).erase o := by
  ext o'
  rw [Finset.mem_erase, Finset.mem_erase, mem_waiting, mem_waiting, hsender]
  by_cases ho : o' = o
  · simp [ho]
  · rw [Function.update_of_ne ho]

/-- A sender starts to wait for a receive that becomes pending. -/
theorem Settled.taken (h : Settled s) {o : O} {i : I} {cin : Channel O Ptr}
    (hsender : s'.sender = Function.update s.sender o { s.sender o with pc := .waitReceived i })
    (hcin : s'.cin = Function.update s.cin i cin) (hreceiver : s'.receiver = s.receiver)
    (hmatched : s'.matched = s.matched ++ [(s.sendCall o, s.receiveCall i)])
    (hcopied : s'.copied = s.copied) (hold : ∀ i, (s.sender o).pc ≠ .waitReceived i)
    (htokens : cin.actuallyReceived = (s.cin i).actuallyReceived)
    (hbefore : ¬ Pending (s.cin i) (s.receiver i)) (hafter : Pending cin (s.receiver i)) :
    Settled s' := by
  have hrcall : ∀ i', s'.receiveCall i' = s.receiveCall i' := by
    intro i'
    unfold receiveCall
    rw [hreceiver]
  refine ⟨fun i' => ?_, fun a b hab => ?_⟩
  · have htok := h.tokens i'
    by_cases hi : i' = i
    · subst hi
      -- one sender more waits, and the receive has become pending
      have hmem : o ∈ s'.waiting i' := by rw [mem_waiting, hsender, Function.update_self]
      have hnot : o ∉ s.waiting i' := by rw [mem_waiting]; exact hold i'
      have hcard : (s'.waiting i').card = (s.waiting i').card + 1 := by
        rw [← Finset.card_erase_add_one hmem, waiting_of_ne hsender,
          Finset.erase_eq_of_notMem hnot]
      rw [if_neg hbefore] at htok
      rw [hcard, hcin, hreceiver, Function.update_self, if_pos hafter, htokens, htok]
    · have hne : SendPc.waitReceived i ≠ .waitReceived i' := fun heq => hi
        (SendPc.waitReceived.inj heq).symm
      rw [waiting_update hsender (hold i') hne, hcin, hreceiver, Function.update_of_ne hi]
      exact htok
  · rw [hmatched, List.mem_append, List.mem_singleton] at hab
    rw [hcopied]
    rcases hab with hab | hab
    · rcases h.matched a b hab with hcopy | ⟨o', i', rfl, hpc, rfl, hpend⟩
      · exact Or.inl hcopy
      · have ho : o' ≠ o := by
          rintro rfl
          exact hold i' hpc
        have hi : i' ≠ i := by
          rintro rfl
          exact hbefore hpend
        refine Or.inr ⟨o', i', (sendCall_update hsender o').symm, ?_, (hrcall i').symm, ?_⟩
        · rw [hsender, Function.update_of_ne ho, hpc]
        · rwa [hcin, hreceiver, Function.update_of_ne hi]
    · obtain ⟨rfl, rfl⟩ := Prod.mk.inj hab
      refine Or.inr ⟨o, i, (sendCall_update hsender o).symm, ?_, (hrcall i).symm, ?_⟩
      · rw [hsender, Function.update_self]
      · rwa [hcin, hreceiver, Function.update_self]

/-- A sender whose data has been copied takes a token. -/
theorem Settled.acknowledged (h : Settled s) {o : O} {i : I}
    (hsender : s'.sender = Function.update s.sender o { s.sender o with pc := .postConns })
    (hcin : s'.cin = Function.update s.cin i { s.cin i with
      actuallyReceived := (s.cin i).actuallyReceived - 1 })
    (hreceiver : s'.receiver = s.receiver) (hmatched : s'.matched = s.matched)
    (hcopied : s'.copied = s.copied) (hpc : (s.sender o).pc = .waitReceived i)
    (htoken : 0 < (s.cin i).actuallyReceived)
    (hdone : ∀ b, (s.sendCall o, b) ∈ s.matched → (b, (s.sendCall o).data) ∈ s.copied) :
    Settled s' := by
  have hpend : ∀ i', Pending (s'.cin i') (s'.receiver i') ↔ Pending (s.cin i') (s.receiver i') := by
    intro i'
    rw [hcin, hreceiver]
    by_cases hi : i' = i
    · subst hi
      rw [Function.update_self]
      rfl
    · rw [Function.update_of_ne hi]
  refine ⟨fun i' => ?_, fun a b hab => ?_⟩
  · have htok := h.tokens i'
    simp only [hpend i']
    by_cases hi : i' = i
    · subst hi
      -- one sender fewer waits, and one token fewer is there
      have hmem : o ∈ s.waiting i' := mem_waiting.2 hpc
      have hnot : o ∉ s'.waiting i' := by simp [mem_waiting, hsender]
      have hcard : (s.waiting i').card = (s'.waiting i').card + 1 := by
        rw [← Finset.card_erase_add_one hmem, ← waiting_of_ne hsender,
          Finset.erase_eq_of_notMem hnot]
      rw [hcin, Function.update_self]
      simp only []
      omega
    · have hne : (s.sender o).pc ≠ .waitReceived i' := by
        rw [hpc]
        exact fun heq => hi (SendPc.waitReceived.inj heq).symm
      rw [waiting_update hsender hne (by simp), hcin, Function.update_of_ne hi]
      exact htok
  · rw [hmatched] at hab
    rw [hcopied]
    rcases h.matched a b hab with hcopy | ⟨o', i', rfl, hwait, rfl, hp⟩
    · exact Or.inl hcopy
    · by_cases ho : o' = o
      · subst ho
        exact Or.inl (hdone _ hab)
      · refine Or.inr ⟨o', i', (sendCall_update hsender o').symm, ?_, ?_, (hpend i').2 hp⟩
        · rw [hsender, Function.update_of_ne ho, hwait]
        · unfold receiveCall
          rw [hreceiver]

omit [DecidableEq O] in
/-- A receiver posts its token after the copy. -/
theorem Settled.posted (h : Settled s) {i : I}
    (hcin : s'.cin = Function.update s.cin i { s.cin i with
      actuallyReceived := (s.cin i).actuallyReceived + 1 })
    (hreceiver : s'.receiver = Function.update s.receiver i { s.receiver i with pc := .idle })
    (hsender : s'.sender = s.sender) (hmatched : s'.matched = s.matched)
    (hcopied : s'.copied = s.copied) (hpc : (s.receiver i).pc = .postReceived)
    (hdone : ∀ a, (a, s.receiveCall i) ∈ s.matched → (s.receiveCall i, a.data) ∈ s.copied) :
    Settled s' := by
  refine ⟨fun i' => ?_, fun a b hab => ?_⟩
  · have htok := h.tokens i'
    have hwait : s'.waiting i' = s.waiting i' := by
      unfold waiting
      rw [hsender]
    rw [hwait, hcin, hreceiver, htok]
    by_cases hi : i' = i
    · subst hi
      rw [Function.update_self, Function.update_self]
      simp [Pending, hpc]
    · rw [Function.update_of_ne hi, Function.update_of_ne hi]
  · rw [hmatched] at hab
    rw [hcopied]
    rcases h.matched a b hab with hcopy | ⟨o, i', rfl, hwait, rfl, hp⟩
    · exact Or.inl hcopy
    · by_cases hi : i' = i
      · subst hi
        exact Or.inl (hdone _ hab)
      · refine Or.inr ⟨o, i', ?_, by rw [hsender, hwait],
          (receiveCall_update hreceiver i').symm, ?_⟩
        · unfold sendCall
          rw [hsender]
        · rwa [hcin, hreceiver, Function.update_of_ne hi, Function.update_of_ne hi]

/-! ### Runs -/

/-- The invariant of a run in which each send takes its token in turn. -/
structure AckInv (conn : I → O → Prop) (s : Channels I O Ptr) : Prop where
  inv : Inv conn s
  settled : Settled s
  acknowledged : Acknowledged s

omit [DecidableEq I] [DecidableEq O] [Fintype O] in
/-- Calls that returned stay acknowledged when nothing returns and new matches are of calls that
have not returned. -/
theorem Acknowledged.frame (h : Acknowledged s) (hsent : s'.sent = s.sent)
    (hmatched : ∀ a ∈ s.sent, ∀ b, (a, b) ∈ s'.matched → (a, b) ∈ s.matched)
    (hcopied : s.copied ⊆ s'.copied) : Acknowledged s' := by
  intro a ha b hab
  rw [hsent] at ha
  exact hcopied (h a ha b (hmatched a ha b hab))

omit [DecidableEq I] [DecidableEq O] [Fintype O] in
/-- A send whose data has been copied returns. -/
theorem Acknowledged.return (h : Acknowledged s) {a : Call O Ptr} (hsent : s'.sent = s.sent ++ [a])
    (hmatched : s'.matched = s.matched) (hcopied : s'.copied = s.copied)
    (ha : ∀ b, (a, b) ∈ s.matched → (b, a.data) ∈ s.copied) : Acknowledged s' := by
  intro c hc b hcb
  rw [hmatched] at hcb
  rw [hcopied]
  rw [hsent, List.mem_append, List.mem_singleton] at hc
  rcases hc with hc | rfl
  · exact h c hc b hcb
  · exact ha b hcb

omit [DecidableEq I] [DecidableEq O] [Fintype O] in
/-- A match of a send that is not in the record yet concerns no send that returned. -/
theorem RecordOk.matched_of_sent (h : RecordOk conn s) {a : Call O Ptr} {b : Call I Ptr}
    (ha : ∀ b, (a, b) ∉ s.matched) :
    ∀ c ∈ s.sent, ∀ d, (c, d) ∈ s.matched ++ [(a, b)] → (c, d) ∈ s.matched := by
  intro c hc d hd
  rw [List.mem_append, List.mem_singleton] at hd
  rcases hd with hd | hd
  · exact hd
  · obtain ⟨rfl, -⟩ := Prod.mk.inj hd
    obtain ⟨e, he⟩ := h.sent c hc
    exact absurd he (ha e)

/-- A step in `channel_send` that is in turn. -/
theorem AckInv.send_step {o : O} (h : AckInv conn s) (hturn : InTurn s (.stepSend o))
    (hstep : SendStep s o s') : AckInv conn s' := by
  refine ⟨h.inv.send_step hstep, ?_, ?_⟩
  · cases hstep with
    | waitConns hpc | setReady _ hpc | passed _ _ _ _ hpc | scanned _ _ hpc | returned hpc
    | woken hpc =>
      exact h.settled.of_send rfl (by simp [hpc]) (by simp) rfl rfl rfl rfl
    | taken i length receiver connections hpc hget hcin hcout =>
      have hrec := h.inv.receiver receiver
      exact h.settled.taken rfl rfl rfl rfl rfl (by simp [hpc]) rfl (hrec.not_pending hcin)
        (hrec.pending_of_ready hcin rfl)
    | acknowledged receiver hpc htoken =>
      exact h.settled.acknowledged rfl rfl rfl rfl rfl hpc htoken fun b hb =>
        h.settled.copied_of_inTurn h.inv hturn hpc hb
  · cases hstep with
    | waitConns | setReady | passed | scanned | acknowledged =>
      exact h.acknowledged.frame rfl (fun _ _ _ => id) (List.Subset.refl _)
    | taken i length receiver connections hpc hget hcin hcout =>
      have hnone := ((h.inv.sender o).of_ready hcout).2.2
      exact h.acknowledged.frame rfl (h.inv.record.matched_of_sent hnone) (List.Subset.refl _)
    | returned hpc | woken hpc =>
      exact h.acknowledged.return rfl rfl rfl fun b hb => h.settled.copied (by simp [hpc]) hb

/-- A step in `channel_receive`. -/
theorem AckInv.receive_step {i : I} (h : AckInv conn s) (hstep : ReceiveStep s i s') :
    AckInv conn s' := by
  have hok := h.inv.receiver i
  refine ⟨h.inv.receive_step hstep, ?_, ?_⟩
  · cases hstep with
    | waitConns hpc | setReady _ hpc | scanned _ _ hpc | passed _ _ _ _ hpc | returned hpc =>
      refine h.settled.of_receive rfl rfl rfl (fun _ _ => Or.inl) (List.Subset.refl _) rfl ?_
      simp [Pending, hpc]
    | woken hpc htoken =>
      refine h.settled.of_receive rfl rfl rfl (fun _ _ => Or.inl) (List.Subset.refl _) rfl ?_
      simp only [ReceiverOk, hpc] at hok
      rcases hok with ⟨-, hzero, -⟩ | ⟨hready, -⟩
      · omega
      · simp [Pending, hpc, hready]
    | copied data hpc hdata =>
      refine h.settled.of_receive rfl rfl rfl (fun _ _ => Or.inl) (List.subset_append_left _ _)
        rfl ?_
      simp [Pending, hpc]
    | taken j length sender connections data hpc hget hcout hcin hdata =>
      obtain ⟨-, hbuffer, -⟩ := (h.inv.sender sender).of_ready hcout
      obtain rfl : (s.sender sender).data = data := by
        rw [hbuffer] at hdata
        exact Option.some.inj hdata
      refine h.settled.of_receive rfl rfl rfl (fun a b hab => ?_) (List.subset_append_left _ _)
        rfl ?_
      · rw [List.mem_append, List.mem_singleton] at hab
        rcases hab with hab | hab
        · exact Or.inl hab
        · obtain ⟨rfl, rfl⟩ := Prod.mk.inj hab
          exact Or.inr (List.mem_append_right _ (List.mem_singleton.2 rfl))
      · simp [Pending, hpc, hcin]
    | posted hpc =>
      simp only [ReceiverOk, hpc] at hok
      obtain ⟨-, -, a, ha, hcopied⟩ := hok
      refine h.settled.posted rfl rfl rfl rfl rfl hpc fun a' ha' => ?_
      obtain rfl : a' = a := congrArg Prod.fst
        (List.inj_on_of_nodup_map h.inv.record.receiversOnce ha' ha rfl)
      exact hcopied
  · cases hstep with
    | waitConns | setReady | passed | scanned | returned | woken | posted =>
      exact h.acknowledged.frame rfl (fun _ _ _ => id) (List.Subset.refl _)
    | copied => exact h.acknowledged.frame rfl (fun _ _ _ => id) (List.subset_append_left _ _)
    | taken j length sender connections data hpc hget hcout hcin hdata =>
      have hnone := ((h.inv.sender sender).of_ready hcout).2.2
      exact h.acknowledged.frame rfl (h.inv.record.matched_of_sent hnone)
        (List.subset_append_left _ _)

/-- A call of `channel_send`. -/
theorem AckInv.call_send (h : AckInv conn s) {o : O} (data : Ptr)
    (hpc : (s.sender o).pc = .idle) :
    AckInv conn { s with
      sender := Function.update s.sender o ⟨.waitConns, (s.sender o).number + 1, data⟩ } := by
  refine ⟨h.inv.call_send data hpc, ⟨fun i => ?_, fun a b hab => ?_⟩, h.acknowledged⟩
  · rw [← h.settled.tokens i]
    congr 1
    ext o'
    rw [mem_waiting, mem_waiting]
    by_cases ho : o' = o
    · subst ho
      simp [hpc]
    · simp only [Function.update_of_ne ho]
  · rcases h.settled.matched a b hab with hcopy | ⟨o', i, rfl, hwait, rfl, hp⟩
    · exact Or.inl hcopy
    · have ho : o' ≠ o := by
        rintro rfl
        rw [hpc] at hwait
        cases hwait
      refine Or.inr ⟨o', i, ?_, ?_, rfl, hp⟩
      · simp only [sendCall, Function.update_of_ne ho]
      · simp only [Function.update_of_ne ho, hwait]

omit [DecidableEq O] in
/-- A call of `channel_receive`. -/
theorem AckInv.call_receive (h : AckInv conn s) {i : I} (data : Ptr)
    (hpc : (s.receiver i).pc = .idle) :
    AckInv conn { s with
      receiver := Function.update s.receiver i ⟨.waitConns, (s.receiver i).number + 1, data⟩ } := by
  refine ⟨h.inv.call_receive data hpc, ⟨fun i' => ?_, fun a b hab => ?_⟩, h.acknowledged⟩
  · refine (h.settled.tokens i').trans ?_
    by_cases hi : i' = i
    · subst hi
      simp only [Function.update_self, Pending, hpc]
    · simp only [Function.update_of_ne hi]
  · rcases h.settled.matched a b hab with hcopy | ⟨o, i', rfl, hwait, rfl, hp⟩
    · exact Or.inl hcopy
    · have hi : i' ≠ i := by
        rintro rfl
        simp only [Pending, hpc] at hp
      refine Or.inr ⟨o, i', rfl, hwait, ?_, ?_⟩
      · simp only [receiveCall, Function.update_of_ne hi]
      · simpa only [Function.update_of_ne hi] using hp

/-- One event that is in turn keeps the invariant. -/
theorem AckInv.step {e : Event I O Ptr} (h : AckInv conn s) (hturn : InTurn s e)
    (hstep : s.step e = some s') : AckInv conn s' := by
  cases e with
  | send o data =>
    obtain ⟨hpc, rfl⟩ := called_of_send hstep
    exact h.call_send data hpc
  | receive i data =>
    obtain ⟨hpc, rfl⟩ := called_of_receive hstep
    exact h.call_receive data hpc
  | stepSend o => exact h.send_step hturn (sendStep_of_stepSend hstep)
  | stepReceive i => exact h.receive_step (receiveStep_of_stepReceive hstep)

omit [DecidableEq O] in
theorem Initial.ackInv (h : Initial conn s) : AckInv conn s where
  inv := h.inv
  settled := by
    refine ⟨fun i => ?_, fun a b hab => ?_⟩
    · have hnone : s.waiting i = ∅ := by
        ext o
        simp [mem_waiting, h.sender o]
      simp [hnone, (h.cin i).2.2, Pending, h.receiver i]
    · rw [h.matched] at hab
      cases hab
  acknowledged := fun a ha => by
    rw [h.sent] at ha
    cases ha

/-- **In a run in which no send takes a token of `actually_received` out of turn, every send that
has returned was matched with a receive that had finished copying its data.** -/
theorem acknowledged_of_inTurn {t : Channels I O Ptr} {events : List (Event I O Ptr)}
    (h : Initial conn s) (hturn : Along Channels.step InTurn s events)
    (hrun : run Channels.step s events = some t) : Acknowledged t :=
  (run_invariant _ (fun _ _ _ hinv hok hstep => AckInv.step hinv hok hstep) h.ackInv hturn
    hrun).acknowledged

/-- Two senders bound to one receiver. -/
def twoSenders : Channels Unit Bool ℕ := bound (fun _ => [true, false]) (fun _ => [()]) 0

theorem twoSenders_initial : Initial (fun _ _ => True) twoSenders :=
  bound_initial (fun _ _ _ => trivial) fun _ _ _ => trivial

/-- A receive that blocks, the send that takes it, the copy, and the token for the send. -/
def tokenPosted : List (Event Unit Bool ℕ) :=
  [.receive () 100] ++ List.replicate 5 (.stepReceive ()) ++ [.send true 7] ++
    List.replicate 3 (.stepSend true) ++ List.replicate 3 (.stepReceive ())

/-- There is a token for each waiting send whenever one takes its token. -/
def HasTokens (s : Channels I O Ptr) : Event I O Ptr → Prop
  | .stepSend o =>
    match (s.sender o).pc with
    | .waitReceived i => (s.waiting i).card ≤ (s.cin i).actuallyReceived
    | _ => True
  | _ => True

instance (s : Channels I O Ptr) (e : Event I O Ptr) : Decidable (HasTokens s e) := by
  unfold HasTokens
  split
  · split <;> infer_instance
  all_goals infer_instance

omit [DecidableEq O] in
theorem HasTokens.inTurn {e : Event I O Ptr} (h : HasTokens s e) : InTurn s e := by
  cases e with
  | stepSend o =>
    intro i hpc
    simp only [HasTokens, hpc] at h
    exact Or.inl h
  | send o data | receive i data | stepReceive i => trivial

/-- The send takes its own token and returns after the copy. -/
theorem acknowledged_of_inTurn_one : ∃ t : Channels Unit Bool ℕ,
    run Channels.step twoSenders (tokenPosted ++ List.replicate 2 (.stepSend true)) = some t ∧
      t.sent = [⟨true, 1, 7⟩] ∧ t.copied = [(⟨(), 1, 100⟩, 7)] ∧ Acknowledged t := by
  have hrun : (run Channels.step twoSenders
      (tokenPosted ++ List.replicate 2 (.stepSend true))).isSome := by decide
  obtain ⟨t, ht⟩ := Option.isSome_iff_exists.1 hrun
  have hsent : (run Channels.step twoSenders
      (tokenPosted ++ List.replicate 2 (.stepSend true))).map sent = some [⟨true, 1, 7⟩] := by
    decide
  have hcopied : (run Channels.step twoSenders
      (tokenPosted ++ List.replicate 2 (.stepSend true))).map copied =
        some [(⟨(), 1, 100⟩, 7)] := by decide
  rw [ht, Option.map_some, Option.some.injEq] at hsent hcopied
  have htokens : Along Channels.step HasTokens twoSenders
      (tokenPosted ++ List.replicate 2 (.stepSend true)) := by decide
  exact ⟨t, ht, hsent, hcopied, acknowledged_of_inTurn twoSenders_initial
    (htokens.mono fun _ _ => HasTokens.inTurn) ht⟩

/-- A second receive that blocks and a second send that takes it, before the first send has taken
its token; the second send takes it. -/
def tokenTaken : List (Event Unit Bool ℕ) :=
  tokenPosted ++ [.receive () 200] ++ List.replicate 5 (.stepReceive ()) ++ [.send false 8] ++
    List.replicate 5 (.stepSend false)

/-- The second send returns with nothing of its data copied. -/
theorem token_out_of_turn : ¬ ∀ (events : List (Event Unit Bool ℕ)) (t : Channels Unit Bool ℕ),
    run Channels.step twoSenders events = some t → Acknowledged t := by
  intro hall
  have hrun : (run Channels.step twoSenders tokenTaken).isSome := by decide
  obtain ⟨t, ht⟩ := Option.isSome_iff_exists.1 hrun
  have hsent : (run Channels.step twoSenders tokenTaken).map sent = some [⟨false, 1, 8⟩] := by
    decide
  have hmatched : (run Channels.step twoSenders tokenTaken).map matched =
      some [(⟨true, 1, 7⟩, ⟨(), 1, 100⟩), (⟨false, 1, 8⟩, ⟨(), 2, 200⟩)] := by decide
  have hcopied : (run Channels.step twoSenders tokenTaken).map copied =
      some [(⟨(), 1, 100⟩, 7)] := by decide
  rw [ht, Option.map_some, Option.some.injEq] at hsent hmatched hcopied
  have hack := hall _ t ht ⟨false, 1, 8⟩ (by simp [hsent]) ⟨(), 2, 200⟩ (by simp [hmatched])
  simp [hcopied] at hack

end Channels

end InsenseCVM
