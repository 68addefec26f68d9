import InsenseCVM.Lib.ForkJoin
import InsenseCVM.Machine.ThreadExit

/-!
# The threads of a program

Each component that is started runs in a thread of its own: `component_run`, and behind it
`component_cleanUpAndStop`, which takes the components that it has called from `waitComponents` and
waits for each of their threads. `main` waits for the thread of the main component and returns,
which ends the process. As long as no thread comes to a `CALL` without a file the threads are those
of `ForkJoin`, in any interleaving (`Run.stands`): the main thread ends last, each other one is
joined once and by the thread of the component that called it, and threads that clean up never
wait for each other in a circle.
-/

namespace InsenseCVM
open Execution Transition ForkJoin

/-- Where a thread is: in the loop of `component_run`, in that of `component_cleanUpAndStop`, there
in `Component_waitForExit`, or behind `Component_exit`. -/
inductive Doing
  | running
  | cleaning
  | joining (child : ℕ)
  | ended
  deriving DecidableEq

/-- The state of the components, and their threads: none where a component has not been started. -/
structure Threads where
  world : World
  doing : ℕ → Option Doing

/-- What a thread does next. -/
inductive Move
  | round (this : ℕ)
  | call (this child : ℕ)
  | leave (this : ℕ)
  /-- It ends in `component_newComponent`, which has not found the file. -/
  | abandon (this : ℕ)
  | take (this : ℕ)
  | join (this child : ℕ)
  | exit (this : ℕ)
  deriving DecidableEq

/-- What a move is for the threads alone. -/
def Move.event : Move → Option (Event ℕ)
  | .round _ | .abandon _ => none
  | .call this child => some (.start this child)
  | .leave this => some (.leave this)
  | .take this => some (.take this)
  | .join this child => some (.join this child)
  | .exit this => some (.finish this)

/-! ### What a component still waits for -/

section

variable {this child : ℕ} {children : List ℕ} {w : World}

theorem Waiting.nil_of_empty (h : Waiting this children w)
    (hempty : ∀ s ∈ (w.component this).waitComponents, s.size = 0) : children = [] := by
  obtain ⟨items, hholds, hrefers⟩ := h.items
  have hsize : items.length = 0 := by
    rw [← List.length_map (f := some), ← hholds.size_eq]
    cases hwaits : (w.component this).waitComponents with
    | none => rfl
    | some s => exact hempty s hwaits
  obtain rfl := List.length_eq_zero_iff.1 hsize
  exact List.forall₂_nil_left_iff.1 hrefers

theorem Waiting.empty_of_nil (h : Waiting this [] w) :
    ∀ s ∈ (w.component this).waitComponents, s.size = 0 := by
  intro s hs
  obtain ⟨items, hholds, hrefers⟩ := h.items
  rw [Option.mem_def.1 hs, Option.getD_some] at hholds
  rw [hholds.size_eq, List.forall₂_nil_right_iff.1 hrefers]
  rfl

/-- The next component can be taken from those that it waits for. -/
theorem Waiting.takes (h : Waiting this (child :: children) w) :
    ∃ s, (w.component this).waitComponents = some s ∧ s.size ≠ 0 ∧
      ∃ u, Returns (Component.waitForOne this) w child u := by
  obtain ⟨items, hholds, hrefers⟩ := h.items
  cases hrefers with
  | @cons item _ items _ href hrefers =>
    cases hwaits : (w.component this).waitComponents with
    | none =>
      rw [hwaits] at hholds
      cases hholds.size_eq
    | some s =>
      rw [hwaits, Option.getD_some] at hholds
      obtain ⟨s', hpop, -⟩ := hholds.pop_cons
      obtain ⟨type, p, hitem, hp⟩ := href
      obtain ⟨u, hu⟩ : ∃ u, u = w.setComponent this
        { w.component this with waitComponents := some s' } := ⟨_, rfl⟩
      have htyped : Returns (typedObject (some item)) u (type, some p) u :=
        returns_typedObject.2 ⟨⟨item, rfl, hu ▸ hitem⟩, rfl⟩
      have hlast : Returns (Component.componentAt (some p)) u child u :=
        Component.returns_componentAt.2 ⟨⟨p, rfl, hu ▸ hp⟩, rfl⟩
      refine ⟨s, rfl, ?_, u, ?_⟩
      · rw [hholds.size_eq]
        exact Nat.succ_ne_zero _
      · unfold Component.waitForOne
        refine returns_self.bind ?_
        rw [hwaits]
        refine (returns_follow.2 ⟨rfl, rfl⟩).bind ((returns_follow.2 ⟨hpop, rfl⟩).bind ?_)
        refine returns_modifySelf.bind ?_
        rw [← hu]
        exact htyped.bind hlast

end

namespace Threads

variable {D : Type} (doubles : Doubles D)

/-- What `main` has when it has created the thread of the main component. -/
def init (main : ℕ) (w : World) : Threads :=
  ⟨w, fun t => if t = main then some .running else none⟩

def setDoing (s : Threads) (w : World) (this : ℕ) (d : Doing) : Threads :=
  ⟨w, Function.update s.doing this (some d)⟩

/-- One of the threads makes a move. -/
inductive Step (s : Threads) : Move → Threads → Prop
  | round {this : ℕ} {u : World} (wires : Wires) (received : Cell)
      (hdoing : s.doing this = some .running) (hop : s.world.opcodeAt this ≠ some .call)
      (h : Returns (runOne doubles (channelHandler wires received) this) s.world true u) :
      Step s (.round this) ⟨u, s.doing⟩
  | call {this child : ℕ} {u : World} (hdoing : s.doing this = some .running)
      (hstop : (s.world.component this).stop = false)
      (hop : s.world.opcodeAt this = some .call)
      (h : Returns (Component.call this)
        (s.world.setSource this ((s.world.source this).advance 1)) child u) :
      Step s (.call this child) (s.setDoing u child .running)
  | ended {this : ℕ} {u : World} (wires : Wires) (received : Cell)
      (hdoing : s.doing this = some .running)
      (h : Returns (runOne doubles (channelHandler wires received) this) s.world false u) :
      Step s (.leave this) (s.setDoing u this .cleaning)
  | fatal {this : ℕ} {u : World} {message : String} (wires : Wires) (received : Cell)
      (hdoing : s.doing this = some .running)
      (h : Throws (runOne doubles (channelHandler wires received) this) s.world (.fatal message) u)
      (hopens : ∀ name, ¬ OpensNoSource this s.world name) :
      Step s (.leave this) (s.setDoing u this .cleaning)
  | noSource {this : ℕ} {u : World} {message : String} {name : CString} (wires : Wires)
      (received : Cell) (hdoing : s.doing this = some .running)
      (h : Throws (runOne doubles (channelHandler wires received) this) s.world (.fatal message) u)
      (hopens : OpensNoSource this s.world name) :
      Step s (.abandon this) (s.setDoing (u.constructing name) this .ended)
  | take {this child : ℕ} {u : World} {waitComponents : Stack ℕ}
      (hdoing : s.doing this = some .cleaning)
      (hsome : (s.world.component this).waitComponents = some waitComponents)
      (hsize : waitComponents.size ≠ 0)
      (h : Returns (Component.waitForOne this) s.world child u) :
      Step s (.take this) (s.setDoing u this (.joining child))
  | join {this child : ℕ} (hdoing : s.doing this = some (.joining child))
      (hended : s.doing child = some .ended) :
      Step s (.join this child) (s.setDoing s.world this .cleaning)
  | exit {this : ℕ} (hdoing : s.doing this = some .cleaning)
      (h : ∀ waitComponents ∈ (s.world.component this).waitComponents, waitComponents.size = 0) :
      Step s (.exit this) (s.setDoing s.world this .ended)

/-- The threads take turns in any way. -/
inductive Run : Threads → List Move → Threads → Prop
  | refl (s : Threads) : Run s [] s
  | step {s u s' : Threads} {move : Move} {moves : List Move} (first : Step doubles s move u)
      (rest : Run u moves s') : Run s (move :: moves) s'

/-- No component runs its program. -/
def AllLeft (s : Threads) : Prop := ∀ t, s.doing t ≠ some .running

/-- No thread comes to a `CALL` of a component without a file. -/
def FindsSources (moves : List Move) : Prop := ∀ t, .abandon t ∉ moves

variable {doubles} {s s' : Threads} {move : Move} {moves : List Move} {w w' u : World}
  {main t c this child : ℕ} {a : State ℕ} {d : Doing} {p : Phase ℕ} {children : List ℕ}

/-! ### The threads alone -/

/-- What is pending at a thread is what its component waits for. -/
inductive Agrees (w : World) (t : ℕ) : Doing → Phase ℕ → Prop
  | running {children : List ℕ} (h : Waiting t children w) : Agrees w t .running (.running children)
  | cleaning {children : List ℕ} (h : Waiting t children w) :
      Agrees w t .cleaning (.leaving children)
  | joining {child : ℕ} {children : List ℕ} (h : Waiting t children w) :
      Agrees w t (.joining child) (.joining child children)
  | ended : Agrees w t .ended .ended

structure Stands (s : Threads) (a : State ℕ) : Prop where
  started : ∀ t, t ∈ a.started ↔ s.doing t ≠ none
  tracked : ∀ t, s.doing t ≠ none → Tracked t s.world
  agrees : ∀ t d, s.doing t = some d → Agrees s.world t d (a.phase t)

theorem Agrees.kept (h : Agrees w t d p) (hkeeps : KeepsWaits t w w') : Agrees w' t d p := by
  cases h with
  | running h => exact .running (h.kept hkeeps)
  | cleaning h => exact .cleaning (h.kept hkeeps)
  | joining h => exact .joining (h.kept hkeeps)
  | ended => exact .ended

theorem Stands.mem (h : Stands s a) (ht : s.doing t = some d) : t ∈ a.started :=
  (h.started t).2 (by simp [ht])

theorem Stands.running (h : Stands s a) (ht : s.doing t = some .running) :
    ∃ children, a.phase t = .running children ∧ Waiting t children s.world := by
  have hagrees := h.agrees t _ ht
  generalize a.phase t = p at hagrees ⊢
  cases hagrees with
  | running hwaiting => exact ⟨_, rfl, hwaiting⟩

theorem Stands.cleaning (h : Stands s a) (ht : s.doing t = some .cleaning) :
    ∃ children, a.phase t = .leaving children ∧ Waiting t children s.world := by
  have hagrees := h.agrees t _ ht
  generalize a.phase t = p at hagrees ⊢
  cases hagrees with
  | cleaning hwaiting => exact ⟨_, rfl, hwaiting⟩

theorem Stands.joining (h : Stands s a) (ht : s.doing t = some (.joining child)) :
    ∃ children, a.phase t = .joining child children ∧ Waiting t children s.world := by
  have hagrees := h.agrees t _ ht
  generalize a.phase t = p at hagrees ⊢
  cases hagrees with
  | joining hwaiting => exact ⟨_, rfl, hwaiting⟩

theorem Stands.ended (h : Stands s a) (ht : s.doing t = some .ended) : a.phase t = .ended := by
  have hagrees := h.agrees t _ ht
  generalize a.phase t = p at hagrees ⊢
  cases hagrees with
  | ended => rfl

/-- The step of one thread that leaves the others waiting for what they wait for. -/
theorem Stands.set (h : Stands s a) (ht : s.doing t ≠ none) (htracked : Tracked t u)
    (hkeeps : ∀ t', t' ≠ t → KeepsWaits t' s.world u) (hagrees : Agrees u t d p) :
    Stands (s.setDoing u t d) (a.set t p) := by
  refine ⟨fun t' => ?_, fun t' ht' => ?_, fun t' d' ht' => ?_⟩
  · refine (h.started t').trans ?_
    by_cases heq : t' = t
    · subst heq
      simp [setDoing, ht]
    · simp [setDoing, Function.update_of_ne heq]
  · by_cases heq : t' = t
    · subst heq
      exact htracked
    · simp only [setDoing, Function.update_of_ne heq] at ht'
      exact (hkeeps t' heq (h.tracked t' ht')).tracked
  · by_cases heq : t' = t
    · subst heq
      simp only [setDoing, Function.update_self, Option.some.injEq] at ht'
      subst ht'
      rw [State.set_phase_self]
      exact hagrees
    · simp only [setDoing, Function.update_of_ne heq] at ht'
      rw [State.set_phase_ne heq]
      exact (h.agrees t' d' ht').kept (hkeeps t' heq)

/-! ### The moves -/

/-- A round of another component, a call included, leaves what this one waits for. -/
theorem round_keepsWaits {wires : Wires} {received : Cell} (hne : t ≠ this)
    (h : Ends (runOne doubles (channelHandler wires received) this) w w') : KeepsWaits t w w' :=
  (OtherStep.round wires received hne.symm hne.symm h : OtherStep doubles t t w w').keepsWaits

/-- The component that has been called waits for none. -/
theorem created_call (hw : Tracked this w) (h : Returns (Component.call this) w child w') :
    Created child w' ∧ w.components ≤ child := by
  rw [Component.call_eq] at h
  obtain ⟨⟨name, path, params⟩, u, hcalled, hrest⟩ := returns_bind.1 h
  obtain ⟨component, v, hnew, hstart⟩ := returns_bind.1 hrest
  obtain ⟨rfl, rfl⟩ := hstart.unique returns_startComponent
  have hu := calledComponent_keepsWaits _ _ (.inl ⟨_, hcalled⟩) hw
  have hv := fullFootprint_keepsWaits.newComponent _ _ (.inl ⟨_, hnew⟩) hu.tracked
  obtain ⟨hle, hlt⟩ := newComponent_number hnew
  have hne : child ≠ this := Nat.ne_of_gt (Nat.lt_of_lt_of_le hu.tracked.component hle)
  have hkeeps : KeepsWaits this v (v.boxed typeComponent (.component child)) := keepsWaits_boxed
  refine ⟨⟨⟨hlt, (hkeeps hv.tracked).tracked.cells⟩, ?_⟩, hu.components.trans hle⟩
  show (Function.update v.component this _ child).waitComponents = none
  rw [Function.update_of_ne hne]
  obtain ⟨opened, v', hopen, hmade⟩ := returns_bind.1 hnew
  cases opened with
  | none => exact absurd hmade returns_fatal
  | some sourceFile =>
    cases hmade
    show (Function.update v'.component v'.components _ v'.components).waitComponents = none
    rw [Function.update_self]

/-- A call starts a thread, which is pending at that of the component that calls. -/
theorem Stands.call (h : Stands s a) (ha : Joinable main a) (hthis : s.doing this = some .running)
    (hcall : Returns (Component.call this)
      (s.world.setSource this ((s.world.source this).advance 1)) child u) :
    ∃ a', ForkJoin.Step a (.start this child) a' ∧ Stands (s.setDoing u child .running) a' := by
  obtain ⟨children, hphase, hwaiting⟩ := h.running hthis
  have hsource : ∀ t, KeepsWaits t s.world
      (s.world.setSource this ((s.world.source this).advance 1)) := fun t =>
    fullFootprint_keepsWaits.source this _ _
  obtain ⟨hcreated, hle⟩ := created_call (hwaiting.kept (hsource this)).tracked hcall
  have hnew : ∀ t ∈ a.started, t < child := fun t ht =>
    Nat.lt_of_lt_of_le (h.tracked t ((h.started t).1 ht)).component hle
  have hchild : child ∉ a.started := fun hmem => lt_irrefl child (hnew child hmem)
  have hthere : ∀ t, s.doing t ≠ none → t ≠ child := fun t ht heq =>
    hchild (heq ▸ (h.started t).2 ht)
  have hkeeps : ∀ t, t ≠ this → KeepsWaits t s.world u := fun t ht =>
    trans_of (KeepsWaits t) (hsource t) (call_keepsWaits ht _ _ (.inl ⟨_, hcall⟩))
  have hcalled : Waiting this (child :: children) u := (hwaiting.kept (hsource this)).call hcall
  have hne : this ≠ child := hthere this (by simp [hthis])
  refine ⟨_, .start (h.mem hthis) hphase hnew, fun t => ?_, fun t ht => ?_, fun t d ht => ?_⟩
  · refine Finset.mem_insert.trans ?_
    by_cases heq : t = child
    · subst heq
      simp [setDoing]
    · simp [setDoing, heq, h.started t]
  · by_cases heq : t = child
    · exact heq ▸ hcreated.tracked
    · simp only [setDoing, Function.update_of_ne heq] at ht
      by_cases hcaller : t = this
      · exact hcaller ▸ hcalled.tracked
      · exact (hkeeps t hcaller (h.tracked t ht)).tracked
  · by_cases heq : t = child
    · subst heq
      simp only [setDoing, Function.update_self, Option.some.injEq] at ht
      subst ht
      rw [State.set_phase_ne hne.symm]
      show Agrees u t .running (a.phase t)
      rw [ha.fresh t hchild]
      exact .running hcreated.waiting
    · simp only [setDoing, Function.update_of_ne heq] at ht
      by_cases hcaller : t = this
      · subst hcaller
        obtain rfl := Option.some.inj (hthis.symm.trans ht)
        rw [State.set_phase_self]
        exact .running hcalled
      · rw [State.set_phase_ne hcaller]
        exact (h.agrees t d ht).kept (hkeeps t hcaller)

/-- **Each move but that into a missing file is a step of the threads alone.** -/
theorem Stands.step (h : Stands s a) (ha : Joinable main a) (hstep : Step doubles s move s')
    (hfinds : ∀ t, move ≠ .abandon t) :
    ∃ a', run ForkJoin.step a move.event.toList = some a' ∧ Stands s' a' := by
  have hone : ∀ {e : Event ℕ} {a' : State ℕ}, ForkJoin.Step a e a' →
      run ForkJoin.step a [e] = some a' := by
    intro e a' he
    rw [run_cons, step_iff.2 he]
    rfl
  cases hstep with
  | @round this u wires received hdoing hop hround =>
    have hkeeps : ∀ t, KeepsWaits t s.world u := fun t =>
      fullFootprint_keepsWaits.round (fun hcall => absurd hcall hop) (.inl ⟨true, hround⟩)
    exact ⟨a, rfl, h.started, fun t ht => (hkeeps t (h.tracked t ht)).tracked,
      fun t d ht => (h.agrees t d ht).kept (hkeeps t)⟩
  | call hdoing _ _ hcall =>
    obtain ⟨a', hstart, hstands⟩ := h.call ha hdoing hcall
    exact ⟨a', hone hstart, hstands⟩
  | @ended this u wires received hdoing hround =>
    obtain ⟨children, hphase, hwaiting⟩ := h.running hdoing
    obtain ⟨-, rfl⟩ := runOne_false hround
    exact ⟨_, hone (.leave (h.mem hdoing) hphase), h.set (by simp [hdoing]) hwaiting.tracked
      (fun t _ => refl_of (KeepsWaits t) _) (.cleaning hwaiting)⟩
  | @fatal this u message wires received hdoing hround _ =>
    obtain ⟨children, hphase, hwaiting⟩ := h.running hdoing
    have hthrown := hwaiting.throws hround
    exact ⟨_, hone (.leave (h.mem hdoing) hphase), h.set (by simp [hdoing]) hthrown.tracked
      (fun t ht => round_keepsWaits ht (.inr ⟨_, hround⟩)) (.cleaning hthrown)⟩
  | noSource => exact absurd rfl (hfinds _)
  | @take this child u waitComponents hdoing hsome hsize hwait =>
    obtain ⟨children, hphase, hwaiting⟩ := h.cleaning hdoing
    obtain ⟨rest, rfl, hrest⟩ := hwaiting.waitForOne hsome hsize hwait
    exact ⟨_, hone (.take hphase), h.set (by simp [hdoing]) hrest.tracked
      (fun t ht => waitForOne_keepsWaits ht _ _ (.inl ⟨_, hwait⟩)) (.joining hrest)⟩
  | @join this child hdoing hended =>
    obtain ⟨children, hphase, hwaiting⟩ := h.joining hdoing
    exact ⟨_, hone (.join hphase (h.ended hended)), h.set (by simp [hdoing]) hwaiting.tracked
      (fun t _ => refl_of (KeepsWaits t) _) (.cleaning hwaiting)⟩
  | @exit this hdoing hempty =>
    obtain ⟨children, hphase, hwaiting⟩ := h.cleaning hdoing
    obtain rfl : children = [] := hwaiting.nil_of_empty hempty
    exact ⟨_, hone (.finish hphase), h.set (by simp [hdoing]) hwaiting.tracked
      (fun t _ => refl_of (KeepsWaits t) _) .ended⟩

/-- **Any run of the threads in which they find their files is one of the threads alone.** -/
theorem Run.stands (hrun : Run doubles s moves s') (hfinds : FindsSources moves) (h : Stands s a)
    (ha : Joinable main a) : ∃ a', run ForkJoin.step a (moves.filterMap Move.event) = some a' ∧
      Stands s' a' := by
  induction hrun generalizing a with
  | refl s => exact ⟨a, rfl, h⟩
  | @step s u s' move moves first rest ih =>
    obtain ⟨b, hb, hu⟩ := h.step ha first fun t heq => hfinds t (heq ▸ List.mem_cons_self)
    have hjoinable : Joinable main b :=
      run_keeps (Joinable main) (fun _ _ _ h hstep => h.step (step_iff.1 hstep)) ha hb
    obtain ⟨a', ha', hs'⟩ := ih (fun t hmem => hfinds t (List.mem_cons_of_mem _ hmem)) hu hjoinable
    refine ⟨a', ?_, hs'⟩
    have hsplit : (move :: moves).filterMap Move.event =
        move.event.toList ++ moves.filterMap Move.event := by
      rw [List.filterMap_cons]
      cases move.event <;> rfl
    rw [hsplit, run_append, hb, Option.bind_some, ha']

theorem stands_init (hw : Created main w) : Stands (init main w) (ForkJoin.init main) where
  started t := by simp [init, ForkJoin.init]
  tracked t ht := by
    by_cases heq : t = main
    · exact heq ▸ hw.tracked
    · simp [init, heq] at ht
  agrees t d ht := by
    by_cases heq : t = main
    · subst heq
      simp only [init, if_pos, Option.some.injEq] at ht
      subst ht
      exact .running hw.waiting
    · simp [init, heq] at ht

/-- The threads alone that a run from the start comes to. -/
theorem Run.fromInit (hw : Created main w) (hrun : Run doubles (init main w) moves s)
    (hfinds : FindsSources moves) :
    ∃ a, run ForkJoin.step (ForkJoin.init main) (moves.filterMap Move.event) = some a ∧
      Stands s a ∧ Joinable main a := by
  obtain ⟨a, ha, hs⟩ := hrun.stands hfinds (stands_init hw) (joinable_init main)
  exact ⟨a, ha, hs, joinable_run ha⟩

/-! ### A main component that calls another -/

/-- A main component that calls `B` and comes to the end of its file, as that one does. -/
def ofB : Threads := init 0 (World.withSourceOfB (callBytes 66))

/-- When both have run: `B` has ended. -/
def leftOfB : Threads :=
  ((((ofB.setDoing (afterCallOfB (callBytes 66)) 1 .running).setDoing
    (afterCallOfB (callBytes 66)) 1 .cleaning).setDoing
    (afterCallOfB (callBytes 66)) 1 .ended).setDoing (afterCallOfB (callBytes 66)) 0 .cleaning)

def callMoves : List Move := [.call 0 1, .leave 1, .exit 1, .leave 0]

theorem Run.append {v : Threads} {moves' : List Move} (h : Run doubles s moves s')
    (h' : Run doubles s' moves' v) : Run doubles s (moves ++ moves') v := by
  induction h with
  | refl => exact h'
  | step first _ ih => exact .step first (ih h')

theorem run_leftOfB : Run binary64 ofB callMoves leftOfB := by
  refine .step (.call rfl rfl rfl rfl) (.step (.ended noWires (.long 0) rfl ?_)
    (.step (.exit rfl ?_) (.step (.ended noWires (.long 0) rfl ?_) (.refl _))))
  · exact runOne_end rfl rfl
  · intro waitComponents h
    cases h
  · exact runOne_end rfl rfl

theorem allLeft_leftOfB : AllLeft leftOfB := by
  intro t
  by_cases h0 : t = 0
  · subst h0
    decide
  · by_cases h1 : t = 1
    · subst h1
      decide
    · simp [leftOfB, ofB, setDoing, init, h0, h1]

def endMoves : List Move := callMoves ++ [.take 0, .join 0 1, .exit 0]

theorem findsSources_endMoves : FindsSources endMoves := by
  intro t
  simp [endMoves, callMoves]

theorem run_endMoves : ∃ s, Run binary64 ofB endMoves s ∧ s.doing 0 = some .ended ∧
    s.doing 1 ≠ none := by
  have hwait : Returns (Component.waitForOne 0) (afterCallOfB (callBytes 66)) 1
      (endOf (Component.waitForOne 0) (afterCallOfB (callBytes 66))) := rfl
  obtain ⟨waitComponents, hsome, hsize⟩ : ∃ waitComponents,
      ((afterCallOfB (callBytes 66)).component 0).waitComponents = some waitComponents ∧
        waitComponents.size = 1 := ⟨_, rfl, rfl⟩
  have hdone : ∀ waitComponents ∈ ((endOf (Component.waitForOne 0)
      (afterCallOfB (callBytes 66))).component 0).waitComponents, waitComponents.size = 0 := by
    intro waitComponents h
    cases h
    rfl
  refine ⟨_, run_leftOfB.append (.step (.take rfl hsome (by rw [hsize]; exact Nat.one_ne_zero) hwait)
    (.step (.join rfl rfl) (.step (.exit rfl hdone) (.refl _)))), rfl, ?_⟩
  intro h
  cases h

/-! ### The order in which threads end -/

theorem Stands.doing_ended (h : Stands s a) (ha : Joinable main a) (ht : a.phase t = .ended) :
    s.doing t = some .ended := by
  have hmem := (h.started t).1 (ha.started_of_phase ht (by simp))
  obtain ⟨d, hd⟩ := Option.ne_none_iff_exists'.1 hmem
  have hagrees := h.agrees t d hd
  rw [ht] at hagrees
  cases hagrees with
  | ended => exact hd

theorem start_mem_iff {moves : List Move} :
    Event.start t c ∈ moves.filterMap Move.event ↔ .call t c ∈ moves := by
  rw [List.mem_filterMap]
  constructor
  · rintro ⟨move, hmem, hmove⟩
    cases move with
    | call => cases hmove; exact hmem
    | round | leave | abandon | take | join | exit => cases hmove
  · exact fun h => ⟨_, h, rfl⟩

theorem count_join (moves : List Move) (t c : ℕ) :
    (moves.filterMap Move.event).count (.join t c) = moves.count (.join t c) := by
  rw [List.count, List.countP_filterMap, List.count]
  refine List.countP_congr fun move _ => ?_
  cases move <;> simp [Move.event]

/-- **A thread ends behind all those that its component has called, and that these have; the main
thread, and with it the process, ends last.** -/
theorem ends_behind_called (hw : Created main w) (hrun : Run doubles (init main w) moves s)
    (hfinds : FindsSources moves) :
    (∀ t c, Relation.ReflTransGen (fun t c => .call t c ∈ moves) t c →
      s.doing t = some .ended → s.doing c = some .ended) ∧
    (s.doing main = some .ended → ∀ t, s.doing t ≠ none → s.doing t = some .ended) := by
  obtain ⟨a, ha, hs, hjoinable⟩ := hrun.fromInit hw hfinds
  refine ⟨fun t c hcalls ht => ?_, fun hmain t ht => ?_⟩
  · refine hs.doing_ended hjoinable (ended_of_started ha ?_ (hs.ended ht))
    exact Relation.ReflTransGen.mono (fun _ _ h => start_mem_iff.2 h) _ _ hcalls
  · have hstarted := starts_root ha ((hs.started t).2 ht)
    exact hs.doing_ended hjoinable (ended_of_started ha hstarted (hs.ended hmain))

/-- Both threads have ended. -/
theorem ends_behind_called_ofB : ∃ s, Run binary64 ofB endMoves s ∧ s.doing 0 = some .ended ∧
    s.doing 1 = some .ended := by
  obtain ⟨s, hrun, hmain, hcalled⟩ := run_endMoves
  refine ⟨s, hrun, hmain, ?_⟩
  exact (ends_behind_called (created_withSourceOfB _) hrun findsSources_endMoves).2 hmain 1 hcalled

/-- **When the main thread has ended each other one has been waited for once: by the thread of the
component that called it.** -/
theorem waited_for_once (hw : Created main w) (hrun : Run doubles (init main w) moves s)
    (hfinds : FindsSources moves) (hmain : s.doing main = some .ended) (hc : s.doing c ≠ none)
    (hne : c ≠ main) :
    ∃ t, .call t c ∈ moves ∧ ∀ u, moves.count (.join u c) = if u = t then 1 else 0 := by
  obtain ⟨a, ha, hs, -⟩ := hrun.fromInit hw hfinds
  obtain ⟨t, hstart, hcount⟩ := joined_once ha (hs.ended hmain) ((hs.started c).2 hc) hne
  refine ⟨t, start_mem_iff.1 hstart, fun u => ?_⟩
  rw [← hcount u, count_join]

theorem waited_for_once_ofB : ∃ s, Run binary64 ofB endMoves s ∧ ∃ t, .call t 1 ∈ endMoves ∧
    ∀ u, endMoves.count (.join u 1) = if u = t then 1 else 0 := by
  obtain ⟨s, hrun, hmain, hcalled⟩ := run_endMoves
  refine ⟨s, hrun, ?_⟩
  exact waited_for_once (created_withSourceOfB _) hrun findsSources_endMoves hmain hcalled
    Nat.one_ne_zero

/-! ### The threads that clean up -/

theorem AllLeft.step (h : AllLeft s) (hstep : Step doubles s move s') :
    AllLeft s' ∧ (∀ t, move ≠ .abandon t) ∧ ∃ e, move.event = some e ∧ Event.IsLast e := by
  have hset : ∀ {u : World} {t : ℕ} {d : Doing}, d ≠ .running → AllLeft (s.setDoing u t d) := by
    intro u t d hd t' ht'
    by_cases heq : t' = t
    · subst heq
      simp only [setDoing, Function.update_self, Option.some.injEq] at ht'
      exact hd ht'
    · simp only [setDoing, Function.update_of_ne heq] at ht'
      exact h t' ht'
  cases hstep with
  | round _ _ hdoing => exact absurd hdoing (h _)
  | call hdoing => exact absurd hdoing (h _)
  | ended _ _ hdoing => exact absurd hdoing (h _)
  | fatal _ _ hdoing => exact absurd hdoing (h _)
  | noSource _ _ hdoing => exact absurd hdoing (h _)
  | take => exact ⟨hset (by simp), by simp, _, rfl, trivial⟩
  | join => exact ⟨hset (by simp), by simp, _, rfl, trivial⟩
  | exit => exact ⟨hset (by simp), by simp, _, rfl, trivial⟩

/-- A thread that cleans up can go on, unless all have ended. -/
theorem Stands.exists_move (h : Stands s a) (ha : Joinable main a) (hleft : AllLeft s)
    (hended : ∃ t, s.doing t ≠ none ∧ s.doing t ≠ some .ended) :
    ∃ move s', Step doubles s move s' := by
  have hrunning : ∀ t ∈ a.started, ¬ (a.phase t).IsRunning := by
    rintro t ht ⟨children, hphase⟩
    obtain ⟨d, hd⟩ := Option.ne_none_iff_exists'.1 ((h.started t).1 ht)
    have hagrees := h.agrees t d hd
    rw [hphase] at hagrees
    cases hagrees with
    | running => exact hleft t hd
  obtain ⟨t, ht, hnot⟩ := hended
  obtain ⟨e, a', hlast, hstep⟩ := ha.exists_step hrunning
    ⟨t, (h.started t).2 ht, fun hphase => hnot (h.doing_ended ha hphase)⟩
  have hdoing : ∀ {t p}, a.phase t = p → p ≠ .running [] →
      ∃ d, s.doing t = some d ∧ Agrees s.world t d p := by
    intro t p hphase hp
    obtain ⟨d, hd⟩ :=
      Option.ne_none_iff_exists'.1 ((h.started t).1 (ha.started_of_phase hphase hp))
    exact ⟨d, hd, hphase ▸ h.agrees t d hd⟩
  cases hstep with
  | start => exact absurd hlast id
  | leave => exact absurd hlast id
  | take hphase =>
    obtain ⟨d, hd, hagrees⟩ := hdoing hphase (by simp)
    cases hagrees with
    | cleaning hwaiting =>
      obtain ⟨waitComponents, hsome, hsize, u, hwait⟩ := hwaiting.takes
      exact ⟨_, _, .take hd hsome hsize hwait⟩
  | join hphase hchild =>
    obtain ⟨d, hd, hagrees⟩ := hdoing hphase (by simp)
    cases hagrees with
    | joining => exact ⟨_, _, .join hd (h.doing_ended ha hchild)⟩
  | finish hphase =>
    obtain ⟨d, hd, hagrees⟩ := hdoing hphase (by simp)
    cases hagrees with
    | cleaning hwaiting => exact ⟨_, _, .exit hd hwaiting.empty_of_nil⟩

theorem Run.lowers (hrun : Run doubles s moves s') (hleft : AllLeft s) (h : Stands s a)
    (ha : Joinable main a) : ∃ a', moves.length + a'.effort ≤ a.effort ∧ AllLeft s' ∧
      Stands s' a' ∧ Joinable main a' := by
  induction hrun generalizing a with
  | refl s => exact ⟨a, by simp, hleft, h, ha⟩
  | step first rest ih =>
    obtain ⟨hleft', hfinds, e, hevent, hlast⟩ := hleft.step first
    obtain ⟨b, hb, hu⟩ := h.step ha first hfinds
    rw [hevent] at hb
    have hstep : ForkJoin.Step a e b := by
      refine step_iff.1 ?_
      simpa using hb
    obtain ⟨a', hlength, hrest⟩ := ih hleft' hu (ha.step hstep)
    have hlt := ha.effort_lt hstep (by rintro t c rfl; exact hlast)
    refine ⟨a', ?_, hrest⟩
    rw [List.length_cons]
    omega

/-- **When no component runs its program any more the threads come to their ends: whichever of them
go on, it is for a bounded number of moves, and as long as not all have ended one can go on.** -/
theorem cleaning_up_ends (hw : Created main w) (hrun : Run doubles (init main w) moves s)
    (hfinds : FindsSources moves) (hleft : AllLeft s) :
    ∃ n, ∀ moves' s', Run doubles s moves' s' → moves'.length ≤ n ∧
      ((∀ t, s'.doing t ≠ none → s'.doing t = some .ended) ∨ ∃ move u, Step doubles s' move u) := by
  obtain ⟨a, -, hs, hjoinable⟩ := hrun.fromInit hw hfinds
  refine ⟨a.effort, fun moves' s' hrun' => ?_⟩
  obtain ⟨a', hlength, hleft', hs', hjoinable'⟩ := hrun'.lowers hleft hs hjoinable
  refine ⟨by omega, ?_⟩
  by_cases hall : ∀ t, s'.doing t ≠ none → s'.doing t = some .ended
  · exact .inl hall
  · push Not at hall
    exact .inr (hs'.exists_move hjoinable' hleft' hall)

theorem cleaning_up_ends_ofB : Run binary64 ofB callMoves leftOfB ∧
    ∃ n, ∀ moves' s', Run binary64 leftOfB moves' s' → moves'.length ≤ n ∧
      ((∀ t, s'.doing t ≠ none → s'.doing t = some .ended) ∨
        ∃ move u, Step binary64 s' move u) := by
  refine ⟨run_leftOfB, cleaning_up_ends (created_withSourceOfB _) run_leftOfB (fun t => ?_)
    allLeft_leftOfB⟩
  simp [callMoves]

end Threads

end InsenseCVM
