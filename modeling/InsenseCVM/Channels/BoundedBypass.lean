import InsenseCVM.Channels.Acknowledge
import InsenseCVM.Channels.MissedRendezvous

/-!
# Bounded bypass

The cursor of a connection list stays where a scan has left it. A scan without a match goes all the
way round and brings it back to where it was; a scan that takes the data of a sender leaves it behind
that sender. So a sender that is ready whenever a scan comes to it moves up by one place at least with
each scan that takes the data of another, and it is not passed over more often than there are
connections.
-/

namespace InsenseCVM

namespace Channels

open Transition

variable {I O Ptr : Type}

/-- The channel that the next step of the scan of `i` examines. -/
def examined (s : Channels I O Ptr) (i : I) : Option O :=
  match (s.receiver i).pc with
  | .scan j length =>
    if j < length then (s.cin i).connections.getNextElement.bind Prod.fst else none
  | _ => none

/-- When the scan of `i` examines `o`, it finds it ready, or the receive has been served already. -/
def ReadyWhenExamined (i : I) (o : O) (s : Channels I O Ptr) : Event I O Ptr → Prop
  | .stepReceive i' =>
    i' = i → s.examined i = some o → (s.cin i).ready = true → (s.cout o).ready = true
  | _ => True

/-- The receive took the data of a send on `o`. -/
def TookFrom (s : Channels I O Ptr) (o : O) (b : Call I Ptr) : Prop :=
  ∃ a, a.channel = o ∧ (a, b) ∈ s.matched ∧ (b, a.data) ∈ s.copied

/-- The next `left` of the `n` connections have `o` among them. -/
def Within (l : IteratedList O) (n left : ℕ) (o : O) : Prop :=
  ∃ os, l.Round os ∧ os.length = n ∧ o ∈ os.take left

/-- A scan of `n` connections: `done` has been passed, and `o` was among the next `left` when it
began. As long as the receive is not served, `o` has not been passed. -/
structure Scanning (c : Channel O Ptr) (n left : ℕ) (o : O) (done rest : List O) : Prop where
  round : c.connections.Round (rest ++ done)
  length : done.length + rest.length = n
  within : o ∈ (done ++ rest).take left
  unpassed : c.ready = true → o ∉ done

/-- The turn of `o` when `count` receives on `i` have returned from scans that took the data of
other senders. -/
def Upcoming (s : Channels I O Ptr) (i : I) (o : O) (n count : ℕ) : Prop :=
  match (s.receiver i).pc with
  | .scan j length =>
    length = n ∧ ∃ done rest, done.length = j ∧ Scanning (s.cin i) n (n - count) o done rest
  | .postConns =>
    (TookFrom s o (s.receiveCall i) ∧ count < n) ∨
      Within (s.cin i).connections n (n - (count + 1)) o
  | _ => Within (s.cin i).connections n (n - count) o

variable {conn : I → O → Prop} {s s' : Channels I O Ptr} {i : I} {o : O} {n left count : ℕ}

/-! ### The ring -/

/-- Behind an element that is not `k`, `k` is one place nearer. -/
theorem mem_take_behind {κ : Type} {done rest : List κ} {k x : κ}
    (h : k ∈ (done ++ x :: rest).take left) (hdone : k ∉ done) (hx : k ≠ x) :
    k ∈ (rest ++ (done ++ [x])).take (left - 1) := by
  rw [List.take_append] at h
  have hrest : k ∈ (x :: rest).take (left - done.length) := by
    rcases List.mem_append.1 h with hk | hk
    · exact absurd (List.mem_of_mem_take hk) hdone
    · exact hk
  cases hleft : left - done.length with
  | zero => simp [hleft] at hrest
  | succ m =>
    rw [hleft, List.take_succ_cons] at hrest
    have hmem : k ∈ rest.take m := (List.mem_cons.1 hrest).resolve_left hx
    have hle : m ≤ left - 1 := by omega
    rw [List.take_append]
    exact List.mem_append_left _ ((List.take_prefix_take_left hle).subset hmem)

theorem Within.pos {l : IteratedList O} (h : Within l n left o) : 0 < left := by
  obtain ⟨os, -, -, ho⟩ := h
  cases left with
  | zero => simp at ho
  | succ left => exact Nat.succ_pos _

theorem Scanning.pos {c : Channel O Ptr} {done rest : List O} (h : Scanning c n left o done rest) :
    0 < left := by
  cases left with
  | zero => simpa using h.within
  | succ left => exact Nat.succ_pos _

/-- A scan begins at the cursor. -/
theorem Within.scanning {c : Channel O Ptr} (h : Within c.connections n left o) :
    ∃ os, Scanning { c with ready := true } n left o [] os := by
  obtain ⟨os, hround, hlength, ho⟩ := h
  refine ⟨os, ?_, ?_, ho, fun _ => List.not_mem_nil⟩
  · rw [List.append_nil]
    exact hround
  · simpa using hlength

/-- A scan that has gone all the way round ends where it began. -/
theorem Scanning.all_round {c : Channel O Ptr} {done rest : List O}
    (h : Scanning c n left o done rest) (hn : n ≤ done.length) :
    Within c.connections n left o := by
  have hrest : rest = [] := by
    have hlength := h.length
    exact List.eq_nil_of_length_eq_zero (by omega)
  subst hrest
  have hlength : done.length = n := h.length
  have hround := h.round
  have hwithin := h.within
  rw [List.nil_append] at hround
  rw [List.append_nil] at hwithin
  exact ⟨done, hround, hlength, hwithin⟩

/-- The element that a scan examines is the first of the rest. -/
theorem Scanning.next {c : Channel O Ptr} {done rest : List O} {x : O} {l : IteratedList O}
    (h : Scanning c n left o done rest) (hlt : done.length < n)
    (hget : c.connections.getNextElement = some (some x, l)) :
    ∃ rest', rest = x :: rest' ∧ l.Round (rest' ++ (done ++ [x])) := by
  cases rest with
  | nil =>
    have hlength := h.length
    simp only [List.length_nil] at hlength
    omega
  | cons y rest =>
    obtain ⟨ys, heq, hround⟩ := h.round.next hget
    obtain ⟨rfl, rfl⟩ := List.cons.inj heq
    exact ⟨rest, rfl, by simpa using hround⟩

/-- The scan passes an element. -/
theorem Scanning.passed {c : Channel O Ptr} {done rest : List O} {x : O} {l : IteratedList O}
    (h : Scanning c n left o done (x :: rest)) (hround : l.Round (rest ++ (done ++ [x])))
    (hx : c.ready = true → o ≠ x) :
    Scanning { c with connections := l } n left o (done ++ [x]) rest where
  round := hround
  length := by
    have hlength := h.length
    simp only [List.length_cons] at hlength
    simp only [List.length_append, List.length_singleton]
    omega
  within := by
    have hwithin := h.within
    rwa [List.append_cons] at hwithin
  unpassed := fun hready => by
    rw [List.mem_append, List.mem_singleton, not_or]
    exact ⟨h.unpassed hready, hx hready⟩

/-- The scan takes the data of another sender and stops behind it. -/
theorem Scanning.taken {c : Channel O Ptr} {done rest : List O} {x : O} {l : IteratedList O}
    (h : Scanning c n left o done (x :: rest)) (hround : l.Round (rest ++ (done ++ [x])))
    (hready : c.ready = true) (hx : o ≠ x) : Within l n (left - 1) o := by
  refine ⟨_, hround, ?_, mem_take_behind h.within (h.unpassed hready) hx⟩
  have hlength := h.length
  simp only [List.length_cons] at hlength
  simp only [List.length_append, List.length_singleton]
  omega

/-! ### Steps -/

variable [DecidableEq I] [DecidableEq O]

/-- The receive on `i` that returns in a step, if it was its own scan that found a sender. -/
def ownReturn (i : I) (s : Channels I O Ptr) : Event I O Ptr → List (Call I Ptr)
  | .stepReceive i' =>
    if i' = i ∧ (s.receiver i).pc = .postConns then [s.receiveCall i] else []
  | _ => []

/-- The receives on `i` that return in a run out of their own scans, in order. -/
def ownReturns (i : I) : Channels I O Ptr → List (Event I O Ptr) → List (Call I Ptr) :=
  outputs Channels.step (ownReturn i)

/-- The record only grows. -/
theorem record_grows {e : Event I O Ptr} (hstep : s.step e = some s') :
    s.matched ⊆ s'.matched ∧ s.copied ⊆ s'.copied := by
  cases e with
  | send o data =>
    obtain ⟨-, rfl⟩ := called_of_send hstep
    exact ⟨List.Subset.refl _, List.Subset.refl _⟩
  | receive i data =>
    obtain ⟨-, rfl⟩ := called_of_receive hstep
    exact ⟨List.Subset.refl _, List.Subset.refl _⟩
  | stepSend o =>
    cases sendStep_of_stepSend hstep with
    | taken => exact ⟨List.subset_append_left _ _, List.Subset.refl _⟩
    | _ => exact ⟨List.Subset.refl _, List.Subset.refl _⟩
  | stepReceive i =>
    cases receiveStep_of_stepReceive hstep with
    | taken => exact ⟨List.subset_append_left _ _, List.subset_append_left _ _⟩
    | copied => exact ⟨List.Subset.refl _, List.subset_append_left _ _⟩
    | _ => exact ⟨List.Subset.refl _, List.Subset.refl _⟩

theorem TookFrom.step {e : Event I O Ptr} {b : Call I Ptr} (h : TookFrom s o b)
    (hstep : s.step e = some s') : TookFrom s' o b := by
  obtain ⟨a, ha, hmatched, hcopied⟩ := h
  obtain ⟨hm, hc⟩ := record_grows hstep
  exact ⟨a, ha, hm hmatched, hc hcopied⟩

/-- What the others do to an incoming channel: they move no cursor of it and do not make it ready. -/
theorem cin_of_stepSend {o : O} (hstep : s.stepSend o = some s') (i : I) :
    (s'.cin i).connections = (s.cin i).connections ∧
      ((s'.cin i).ready = true → (s.cin i).ready = true) ∧ s'.receiver = s.receiver := by
  cases sendStep_of_stepSend hstep with
  | taken j length receiver connections hpc hget hcin hcout =>
    by_cases hi : i = receiver
    · subst hi
      simp [setSender, hcin]
    · simp [setSender, Function.update_of_ne hi]
  | acknowledged receiver hpc htoken =>
    by_cases hi : i = receiver
    · subst hi
      simp [setSender]
    · simp [setSender, Function.update_of_ne hi]
  | _ => exact ⟨rfl, id, rfl⟩

theorem cin_of_stepReceive {i' : I} (hstep : s.stepReceive i' = some s') (hi : i ≠ i') :
    s'.cin i = s.cin i ∧ s'.receiver i = s.receiver i := by
  cases receiveStep_of_stepReceive hstep <;>
    simp only [setReceiver, Function.update_of_ne hi, and_self]

omit [DecidableEq I] [DecidableEq O] in
/-- A step of another thread. -/
theorem Upcoming.frame (h : Upcoming s i o n count)
    (hconnections : (s'.cin i).connections = (s.cin i).connections)
    (hready : (s'.cin i).ready = true → (s.cin i).ready = true)
    (hreceiver : s'.receiver i = s.receiver i)
    (htook : TookFrom s o (s.receiveCall i) → TookFrom s' o (s.receiveCall i)) :
    Upcoming s' i o n count := by
  have hcall : s'.receiveCall i = s.receiveCall i := by
    unfold receiveCall
    rw [hreceiver]
  unfold Upcoming at h ⊢
  rw [hreceiver, hconnections, hcall]
  cases hpc : (s.receiver i).pc with
  | scan j length =>
    simp only [hpc] at h ⊢
    obtain ⟨hlength, done, rest, hdone, hscan⟩ := h
    refine ⟨hlength, done, rest, hdone, ?_, hscan.length, hscan.within, fun hr => ?_⟩
    · rw [hconnections]
      exact hscan.round
    · exact hscan.unpassed (hready hr)
  | postConns =>
    simp only [hpc] at h ⊢
    exact h.imp_left fun hcase => ⟨htook hcase.1, hcase.2⟩
  | idle | waitConns | setReady | waitBlocked | copy | postReceived =>
    simp only [hpc] at h ⊢
    exact h

/-- The steps of the receiver: either a receive returns that took the data of `o`, or the turn of
`o` is still to come, one place nearer if another receive returned. -/
theorem Upcoming.receive_step (h : Upcoming s i o n count) (hinv : Inv conn s)
    (hok : ReadyWhenExamined i o s (.stepReceive i)) (hstep : s.stepReceive i = some s') :
    (∃ b, ownReturn i s (.stepReceive i) = [b] ∧ count < n ∧ TookFrom s' o b) ∨
      Upcoming s' i o n (count + (ownReturn i s (.stepReceive i)).length) := by
  have hown : (s.receiver i).pc ≠ .postConns → ownReturn i s (.stepReceive i) = [] :=
    fun hne => if_neg fun hboth => hne hboth.2
  cases receiveStep_of_stepReceive hstep with
  | waitConns hpc hsem =>
    rw [hown (by simp [hpc]), List.length_nil, Nat.add_zero]
    simp only [Upcoming, hpc] at h
    simp only [Upcoming, setReceiver, Function.update_self]
    exact .inr h
  | setReady length hpc =>
    rw [hown (by simp [hpc]), List.length_nil, Nat.add_zero]
    simp only [Upcoming, hpc] at h
    obtain ⟨os, hround, hn, -⟩ := id h
    have hlength : (s.cin i).connections.getListLength = some length :=
      getListLength_of_stepReceive hstep hpc (by simp [setReceiver])
    rw [hround.getListLength_eq, hn] at hlength
    obtain ⟨os, hscan⟩ := h.scanning
    simp only [Upcoming, setReceiver, Function.update_self]
    exact .inr ⟨(Option.some.inj hlength).symm, [], os, rfl, hscan⟩
  | taken j length sender connections data hpc hget hcout hcin hdata =>
    rw [hown (by simp [hpc]), List.length_nil, Nat.add_zero]
    simp only [Upcoming, hpc] at h
    obtain ⟨rfl, done, rest, rfl, hscan⟩ := h
    obtain ⟨hlt, -⟩ := (scan_of_stepReceive hstep hpc).resolve_left (by simp [setReceiver])
    obtain ⟨rest, rfl, hround⟩ := hscan.next hlt hget
    simp only [Upcoming, setReceiver, Function.update_self]
    by_cases ho : o = sender
    · subst ho
      obtain ⟨-, hbuffer, -⟩ := (hinv.sender o).of_ready hcout
      obtain rfl : (s.sender o).data = data := by
        rw [hbuffer] at hdata
        exact Option.some.inj hdata
      have hpos := hscan.pos
      refine .inr (.inl ⟨⟨s.sendCall o, rfl, ?_, ?_⟩, by omega⟩)
      · simp [receiveCall]
      · simp [receiveCall, sendCall]
    · exact .inr (.inr (hscan.taken hround hcin ho))
  | passed j length sender connections hpc hget =>
    rw [hown (by simp [hpc]), List.length_nil, Nat.add_zero]
    simp only [Upcoming, hpc] at h
    obtain ⟨rfl, done, rest, rfl, hscan⟩ := h
    obtain ⟨hlt, -, hnot⟩ := (scan_of_stepReceive hstep hpc).resolve_left (by simp [setReceiver])
    obtain ⟨rest, rfl, hround⟩ := hscan.next hlt hget
    -- were it `o` while the receive is unserved, there would have been a match
    have hne : (s.cin i).ready = true → o ≠ sender := by
      rintro hready rfl
      have hexamined : s.examined i = some o := by
        simp [examined, hpc, hlt, hget]
      have hcout : (s.cout o).ready = true := hok rfl hexamined hready
      exact hnot o connections hget (by simp [setReceiver]) ⟨hready, hcout⟩
    simp only [Upcoming, setReceiver, Function.update_self]
    exact .inr ⟨trivial, done ++ [sender], rest, by simp, hscan.passed hround hne⟩
  | scanned j length hpc =>
    rw [hown (by simp [hpc]), List.length_nil, Nat.add_zero]
    simp only [Upcoming, hpc] at h
    obtain ⟨rfl, done, rest, rfl, hscan⟩ := h
    obtain ⟨hle, -⟩ := (scan_of_stepReceive hstep hpc).resolve_right fun hcase =>
      hcase.2.1 (by simp [setReceiver])
    simp only [Upcoming, setReceiver, Function.update_self]
    exact .inr (hscan.all_round hle)
  | returned hpc =>
    have hreturn : ownReturn i s (.stepReceive i) = [s.receiveCall i] := if_pos ⟨rfl, hpc⟩
    rw [hreturn]
    simp only [Upcoming, hpc] at h
    rcases h with ⟨htook, hlt⟩ | hwithin
    · exact .inl ⟨s.receiveCall i, rfl, hlt, htook⟩
    · simp only [Upcoming, setReceiver, Function.update_self]
      exact .inr hwithin
  | woken hpc htoken =>
    rw [hown (by simp [hpc]), List.length_nil, Nat.add_zero]
    simp only [Upcoming, hpc] at h
    simp only [Upcoming, setReceiver, Function.update_self]
    exact .inr h
  | copied data hpc hdata =>
    rw [hown (by simp [hpc]), List.length_nil, Nat.add_zero]
    simp only [Upcoming, hpc] at h
    simp only [Upcoming, setReceiver, Function.update_self]
    exact .inr h
  | posted hpc =>
    rw [hown (by simp [hpc]), List.length_nil, Nat.add_zero]
    simp only [Upcoming, hpc] at h
    simp only [Upcoming, setReceiver, Function.update_self]
    exact .inr h

theorem Upcoming.step {e : Event I O Ptr} (h : Upcoming s i o n count) (hinv : Inv conn s)
    (hok : ReadyWhenExamined i o s e) (hstep : s.step e = some s') :
    (∃ b, ownReturn i s e = [b] ∧ count < n ∧ TookFrom s' o b) ∨
      Upcoming s' i o n (count + (ownReturn i s e).length) := by
  have htook : TookFrom s o (s.receiveCall i) → TookFrom s' o (s.receiveCall i) :=
    fun ht => ht.step hstep
  cases e with
  | send o' data =>
    obtain ⟨-, rfl⟩ := called_of_send hstep
    exact .inr (h.frame rfl id rfl htook)
  | receive i' data =>
    obtain ⟨hpc, rfl⟩ := called_of_receive hstep
    by_cases hi : i = i'
    · subst hi
      simp only [Upcoming, hpc] at h
      simp only [Upcoming, Function.update_self]
      exact .inr h
    · exact .inr (h.frame rfl id (Function.update_of_ne hi ..) htook)
  | stepSend o' =>
    obtain ⟨hconnections, hready, hreceiver⟩ := cin_of_stepSend hstep i
    exact .inr (h.frame hconnections hready (congrFun hreceiver i) htook)
  | stepReceive i' =>
    by_cases hi : i = i'
    · subst hi
      exact h.receive_step hinv hok hstep
    · obtain ⟨hcin, hreceiver⟩ := cin_of_stepReceive hstep hi
      have hnone : ownReturn i s (.stepReceive i') = [] :=
        if_neg fun hboth => hi hboth.1.symm
      rw [hnone]
      exact .inr (h.frame (by rw [hcin]) (by rw [hcin]; exact id) hreceiver htook)

omit [DecidableEq I] [DecidableEq O] in
theorem Upcoming.lt (h : Upcoming s i o n count) : count < n := by
  unfold Upcoming at h
  cases hpc : (s.receiver i).pc with
  | scan j length =>
    simp only [hpc] at h
    obtain ⟨-, done, rest, -, hscan⟩ := h
    have hpos := hscan.pos
    omega
  | postConns =>
    simp only [hpc] at h
    rcases h with ⟨-, hlt⟩ | hwithin
    · exact hlt
    · have hpos := hwithin.pos
      omega
  | idle | waitConns | setReady | waitBlocked | copy | postReceived =>
    simp only [hpc] at h
    have hpos := h.pos
    omega

/-! ### Runs -/

/-- One of the first `n` of the receives that returned took the data of `o`, or the turn of `o` is
still to come. -/
def ServedInTime (i : I) (o : O) (n : ℕ) (returned : List (Call I Ptr)) (s : Channels I O Ptr) :
    Prop :=
  (∃ b ∈ returned.take n, TookFrom s o b) ∨ Upcoming s i o n returned.length

theorem ServedInTime.step {e : Event I O Ptr} {returned : List (Call I Ptr)}
    (h : ServedInTime i o n returned s) (hinv : Inv conn s) (hok : ReadyWhenExamined i o s e)
    (hstep : s.step e = some s') : ServedInTime i o n (returned ++ ownReturn i s e) s' := by
  rcases h with ⟨b, hb, htook⟩ | hup
  · refine .inl ⟨b, ?_, htook.step hstep⟩
    rw [List.take_append]
    exact List.mem_append_left _ hb
  · rcases hup.step hinv hok hstep with ⟨b, hb, hlt, htook⟩ | hup'
    · refine .inl ⟨b, ?_, htook⟩
      obtain ⟨m, hm⟩ : ∃ m, n - returned.length = m + 1 := ⟨n - returned.length - 1, by omega⟩
      rw [hb, List.take_append, hm]
      exact List.mem_append_right _ List.mem_cons_self
    · refine .inr ?_
      rw [List.length_append]
      exact hup'

/-- **Among the first `n` receives that return out of their own scans, one takes the data of a
connected sender that is ready whenever a scan comes to it.** -/
theorem bounded_bypass {t u : Channels I O Ptr} {before events : List (Event I O Ptr)}
    {os : List O} (h : Initial conn s) (hbefore : run Channels.step s before = some t)
    (hidle : (t.receiver i).pc = .idle) (hround : (t.cin i).connections.Round os) (ho : o ∈ os)
    (hok : Along Channels.step (ReadyWhenExamined i o) t events)
    (hrun : run Channels.step t events = some u)
    (hreturns : os.length ≤ (ownReturns i t events).length) :
    ∃ b ∈ (ownReturns i t events).take os.length, TookFrom u o b := by
  have hinit : Upcoming t i o os.length 0 := by
    simp only [Upcoming, hidle]
    exact ⟨os, hround, rfl, by simpa using ho⟩
  have hkeep : Inv conn u ∧ ServedInTime i o os.length (ownReturns i t events) u := by
    refine run_history (fun events u => Inv conn u ∧
      ServedInTime i o os.length (ownReturns i t events) u)
      ⟨h.inv_run hbefore, .inr hinit⟩ ?_ hok hrun
    rintro events u e u' hrun ⟨hinv, hserved⟩ hok hstep
    have hconcat : ownReturns i t (events ++ [e]) = ownReturns i t events ++ ownReturn i u e :=
      outputs_concat hrun
    rw [hconcat]
    exact ⟨hinv.step hstep, hserved.step hinv hok hstep⟩
  exact hkeep.2.resolve_right fun hup => Nat.not_lt.2 hreturns hup.lt

instance (i : I) (o : O) (s : Channels I O Ptr) (e : Event I O Ptr) :
    Decidable (ReadyWhenExamined i o s e) :=
  match e with
  | .stepReceive i' => inferInstanceAs (Decidable (i' = i → s.examined i = some o →
      (s.cin i).ready = true → (s.cout o).ready = true))
  | .send .. | .receive .. | .stepSend _ => isTrue trivial

/-- Two senders wait; the one that is taken first sends again before the second receive. -/
def sendsAgain : List (Event Unit Bool ℕ) :=
  [.send true 7] ++ List.replicate 4 (.stepSend true) ++
    [.send false 8] ++ List.replicate 4 (.stepSend false) ++
    [.receive () 100] ++ List.replicate 4 (.stepReceive ()) ++
    [.stepSend true, .send true 9] ++ List.replicate 4 (.stepSend true) ++
    [.receive () 200] ++ List.replicate 4 (.stepReceive ())

/-- The second receive takes the data of the other sender. -/
theorem bounded_bypass_two : ∃ u : Channels Unit Bool ℕ,
    run Channels.step twoSenders sendsAgain = some u ∧
      ∃ b ∈ (ownReturns () twoSenders sendsAgain).take 2, TookFrom u false b := by
  have hrun : (run Channels.step twoSenders sendsAgain).isSome := by decide
  obtain ⟨u, hu⟩ := Option.isSome_iff_exists.1 hrun
  obtain ⟨os, hround, hmem⟩ :=
    foldl_insertElement_holdsAll [true, false] IteratedList.constructList_round
  have hlength : os.length = 2 := by
    refine Option.some.inj ?_
    rw [← hround.getListLength_eq]
    decide
  have hok : Along Channels.step (ReadyWhenExamined () false) twoSenders sendsAgain := by decide
  have hreturns : (ownReturns () twoSenders sendsAgain).length = 2 := by decide
  have hbypass := bounded_bypass twoSenders_initial run_nil rfl hround
    (hmem false (by simp)) hok hu (by rw [hlength, hreturns])
  rw [hlength] at hbypass
  exact ⟨u, hu, hbypass⟩

end Channels

end InsenseCVM
