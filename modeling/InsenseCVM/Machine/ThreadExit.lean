import InsenseCVM.Machine.FullFootprint

/-!
# How threads end

The thread of a component runs its instructions between those of other threads, and ends in
`component_cleanUpAndStop`: when the component has been stopped, at the end of its file, or where a
handler has logged a `FATAL` message. Whatever the other threads do, the field `waitComponents` is
as the component's own calls have left it, so the thread waits for each of the components that it
has started and gives up its reference, unless it ends in a `CALL` whose file cannot be opened:
`component_newComponent` then cleans up the component that it was making.
-/

namespace InsenseCVM
open Execution ByteStream

/-! ### `component_call` in parts -/

/-- `component_call` up to its call of `component_newComponent`. -/
def Component.calledComponent (this : ℕ) :
    Exec (CString × CString × Option (IteratedList ℕ)) := do
  let name ← onSource this readString
  let numberOfParameters ← onSource this fgetc
  let paramsList ← paramsList this numberOfParameters
  let w ← get
  return (name, getFilePath w.directory (getSourceFile name), paramsList)

/-- `component_call` from there on. -/
def Component.startComponent (this component : ℕ) : Exec ℕ := do
  modify fun w => { w with started := component :: w.started }
  let pointer ← alloc (.component component)
  let newObject ← construct typeComponent (some pointer)
  pushData this (some newObject)
  modifySelf this fun c =>
    { c with waitComponents := some ((c.waitComponents.getD Stack.constructor).push (some newObject)) }
  return component

theorem Component.call_eq (this : ℕ) : Component.call this = (do
    let (name, path, params) ← Component.calledComponent this
    let component ← Component.newComponent name path params
    Component.startComponent this component) := by
  simp only [Component.call, Component.calledComponent, Component.startComponent, bind_assoc,
    pure_bind]

/-! ### The end of a thread -/

/-- What `component_cleanUpAndStop` does: it waits for the end of a thread, gives up its reference
to the component of that thread, and at last that to the component it is called with. -/
inductive ExitEvent
  | join (component : ℕ)
  | release (component : ℕ)
  | cleanedUp (component : ℕ)
  deriving DecidableEq

/-- One round of the loop of `component_cleanUpAndStop`, and the component it waits for. -/
def Component.waitForOne (this : ℕ) : Exec ℕ := do
  let c ← self this
  let waitComponents ← follow c.waitComponents
  let (item, waitComponents) ← follow waitComponents.pop
  modifySelf this ({ · with waitComponents := some waitComponents })
  let (_, object) ← typedObject item
  Component.componentAt object

variable {D : Type} (doubles : Doubles D) (this : ℕ)

/-- The thread of a component that is neither of the two runs an instruction, to its end or to a
fault in it, or cleans up. -/
inductive OtherStep (owner : ℕ) : World → World → Prop
  | round {w w' : World} {other : ℕ} (wires : Wires) (received : Cell) (hthis : other ≠ this)
      (howner : other ≠ owner)
      (h : Ends (runOne doubles (channelHandler wires received) other) w w') : OtherStep owner w w'
  | wait {w w' : World} {other : ℕ} (hthis : other ≠ this) (howner : other ≠ owner)
      (h : Ends (Component.waitForOne other) w w') : OtherStep owner w w'

/-- The thread runs, and starts the components of the list, the last one first. -/
inductive ThreadRuns : World → List ℕ → World → Prop
  | refl (w : World) : ThreadRuns w [] w
  | round {w u w' : World} {children : List ℕ} (wires : Wires) (received : Cell)
      (hop : w.opcodeAt this ≠ some .call)
      (first : Returns (runOne doubles (channelHandler wires received) this) w true u)
      (rest : ThreadRuns u children w') : ThreadRuns w children w'
  | call {w u w' : World} {child : ℕ} {children : List ℕ} (hstop : (w.component this).stop = false)
      (hop : w.opcodeAt this = some .call)
      (first : Returns (Component.call this) (w.setSource this ((w.source this).advance 1)) child u)
      (rest : ThreadRuns u children w') : ThreadRuns w (children ++ [child]) w'
  | other {w u w' : World} {children : List ℕ} (first : OtherStep doubles this this w u)
      (rest : ThreadRuns u children w') : ThreadRuns w children w'

/-- `component_cleanUpAndStop(owner)` in the thread, between the steps of others. -/
inductive CleansUp (owner : ℕ) : World → List ExitEvent → World → Prop
  | done {w : World} (h : ∀ s ∈ (w.component owner).waitComponents, s.size = 0) :
      CleansUp owner w [.cleanedUp owner] w
  | next {w u w' : World} {s : Stack ℕ} {child : ℕ} {events : List ExitEvent}
      (hsome : (w.component owner).waitComponents = some s) (hsize : s.size ≠ 0)
      (first : Returns (Component.waitForOne owner) w child u)
      (rest : CleansUp owner u events w') :
      CleansUp owner w (.join child :: .release child :: events) w'
  | other {w u w' : World} {events : List ExitEvent} (first : OtherStep doubles this owner w u)
      (rest : CleansUp owner u events w') : CleansUp owner w events w'

/-- The component is at a `CALL` of a component whose file cannot be opened. -/
def OpensNoSource (w : World) (name : CString) : Prop :=
  (w.component this).stop = false ∧ w.opcodeAt this = some .call ∧
    ∃ path params u, Returns (Component.calledComponent this)
      (w.setSource this ((w.source this).advance 1)) (name, path, params) u ∧ u.disk path = none

/-- The component that `component_newComponent` has made before it opens the file: all that has not
been set is zero. -/
def World.constructing (w : World) (name : CString) : World :=
  { w.setComponent w.components
      { name := name, sourceFile := w.handles, parameters := none, scopeStack := none
        dataStack := Stack.constructor, waitComponents := none, procs := none, stop := false
        running := false, inProject := false } with
    components := w.components + 1 }

/-- The thread leaves its loop, or stops in the middle of an instruction, and cleans up. -/
inductive Exits : World → List ExitEvent → Prop
  | ended {w u w' : World} {events : List ExitEvent} (wires : Wires) (received : Cell)
      (h : Returns (runOne doubles (channelHandler wires received) this) w false u)
      (clean : CleansUp doubles this this u events w') : Exits w events
  | fatal {w u w' : World} {events : List ExitEvent} {message : String} (wires : Wires)
      (received : Cell)
      (h : Throws (runOne doubles (channelHandler wires received) this) w (.fatal message) u)
      (hopens : ∀ name, ¬ OpensNoSource this w name) (clean : CleansUp doubles this this u events w') :
      Exits w events
  | noSource {w u w' : World} {events : List ExitEvent} {message : String} {name : CString}
      (wires : Wires) (received : Cell)
      (h : Throws (runOne doubles (channelHandler wires received) this) w (.fatal message) u)
      (hopens : OpensNoSource this w name)
      (clean : CleansUp doubles this u.components (u.constructing name) events w') : Exits w events

/-- Each child is waited for once and released once, and the thread's own component is the one that
is cleaned up. -/
structure JoinsChildren (children : List ℕ) (events : List ExitEvent) : Prop where
  joined : ∀ child ∈ children, events.count (.join child) = 1
  released : ∀ child ∈ children, events.count (.release child) = 1
  own : ∀ component, .cleanedUp component ∈ events ↔ component = this

variable {doubles this} {w u v w' : World} {children : List ℕ} {events : List ExitEvent}
  {wires : Wires} {received : Cell} {owner : ℕ}

/-! ### What other threads leave -/

/-- There is the component, and nothing is in memory that has not been allocated. -/
structure Tracked (owner : ℕ) (w : World) : Prop where
  component : owner < w.components
  cells : ∀ p, w.fresh ≤ p → w.cell p = none

/-- The component waits for the same components. -/
structure WaitsKept (owner : ℕ) (w w' : World) : Prop where
  tracked : Tracked owner w'
  components : w.components ≤ w'.components
  waitComponents : (w'.component owner).waitComponents = (w.component owner).waitComponents
  cells : ∀ p c, w.cell p = some c → c.Lasting → w'.cell p = some c

def KeepsWaits (owner : ℕ) (w w' : World) : Prop := Tracked owner w → WaitsKept owner w w'

theorem Tracked.lt (h : Tracked owner w) {p : ℕ} {c : Cell} (hp : w.cell p = some c) :
    p < w.fresh := by
  by_contra hlt
  rw [h.cells p (Nat.le_of_not_lt hlt)] at hp
  cases hp

instance : IsPreorder World (KeepsWaits owner) where
  refl _ h := ⟨h, Nat.le_refl _, rfl, fun _ _ hp _ => hp⟩
  trans _ _ _ h h' hw := by
    have hk := h hw
    have hk' := h' hk.tracked
    refine ⟨hk'.tracked, hk.components.trans hk'.components,
      hk'.waitComponents.trans hk.waitComponents, fun p c hp hc => ?_⟩
    exact hk'.cells p c (hk.cells p c hp hc) hc

/-- A change that leaves memory and the number of components. -/
theorem WaitsKept.of_eq (h : Tracked owner w) (hcomponents : w'.components = w.components)
    (hcell : w'.cell = w.cell) (hfresh : w'.fresh = w.fresh)
    (hwaits : (w'.component owner).waitComponents = (w.component owner).waitComponents) :
    WaitsKept owner w w' := by
  refine ⟨⟨?_, fun p hp => ?_⟩, le_of_eq hcomponents.symm, hwaits, fun p c hp _ => ?_⟩
  · rw [hcomponents]
    exact h.component
  · rw [hcell]
    rw [hfresh] at hp
    exact h.cells p hp
  · rw [hcell]
    exact hp

theorem fullFootprint_keepsWaits : FullFootprint (KeepsWaits owner) where
  source _ _ _ hw := .of_eq hw rfl rfl rfl rfl
  component other w c hc hw := by
    refine .of_eq hw rfl rfl rfl ?_
    by_cases h : owner = other
    · subst h
      rw [World.setComponent_component]
      exact hc
    · exact congrArg Component.waitComponents (Function.update_of_ne h ..)
  alloc w c hw := by
    refine ⟨⟨hw.component, fun p hp => ?_⟩, Nat.le_refl _, rfl, fun p d hp _ => ?_⟩
    · have hlt : w.fresh < p := hp
      show Function.update w.cell w.fresh _ p = none
      rw [Function.update_of_ne (Nat.ne_of_gt hlt)]
      exact hw.cells p hlt.le
    · show Function.update w.cell w.fresh _ p = some d
      rw [Function.update_of_ne (Nat.ne_of_lt (hw.lt hp))]
      exact hp
  write w address c d hcell hc hw := by
    refine ⟨⟨hw.component, fun p hp => ?_⟩, Nat.le_refl _, rfl, fun p e hp he => ?_⟩
    · show Function.update w.cell address _ p = none
      rw [Function.update_of_ne (Nat.ne_of_gt (Nat.lt_of_lt_of_le (hw.lt hcell) hp))]
      exact hw.cells p hp
    · have hne : p ≠ address := by
        rintro rfl
        rw [hcell] at hp
        exact hc (Option.some.inj hp ▸ he)
      show Function.update w.cell address _ p = some e
      rw [Function.update_of_ne hne]
      exact hp
  opened _ _ hw := .of_eq hw rfl rfl rfl rfl
  created w c hw := by
    refine ⟨⟨Nat.lt_succ_of_lt hw.component, hw.cells⟩, Nat.le_succ _, ?_, fun _ _ hp _ => hp⟩
    exact congrArg Component.waitComponents (Function.update_of_ne (Nat.ne_of_lt hw.component) ..)
  functions _ _ hw := .of_eq hw rfl rfl rfl rfl

theorem calledComponent_keepsWaits : Always (KeepsWaits owner) (Component.calledComponent this) := by
  have hR : FullFootprint (KeepsWaits owner) := fullFootprint_keepsWaits
  exact hR.onSource.bind fun _ => hR.onSource.bind fun _ => hR.paramsList.bind fun _ =>
    Always.get.bind fun _ => Always.pure

/-- The state when `component_call` has started the component. -/
def World.afterCall (w : World) (this component : ℕ) : World :=
  { w.boxed typeComponent (.component component) with
    started := component :: w.started }.setComponent this
      { w.component this with
        dataStack := (w.component this).dataStack.push (some (w.fresh + 1))
        waitComponents := some (((w.component this).waitComponents.getD Stack.constructor).push
          (some (w.fresh + 1))) }

/-- What follows the creation of a component cannot go wrong. -/
theorem returns_startComponent {component : ℕ} :
    Returns (Component.startComponent this component) w component (w.afterCall this component) := by
  unfold Component.startComponent
  refine returns_modify.bind ?_
  rw [returns_boxed]
  refine returns_pushData.bind (returns_modifySelf.bind (returns_pure.2 ⟨rfl, ?_⟩))
  rw [World.setComponent_component, World.setComponent_setComponent]
  rfl

theorem keepsWaits_setComponent {c : Component} (h : owner ≠ this) :
    KeepsWaits owner w (w.setComponent this c) := fun hw =>
  .of_eq hw rfl rfl rfl (congrArg Component.waitComponents (Function.update_of_ne h ..))

theorem keepsWaits_boxed {type : UInt8} {object : Cell} :
    KeepsWaits owner w (w.boxed type object) :=
  trans_of (KeepsWaits owner) (fullFootprint_keepsWaits.alloc w object)
    (fullFootprint_keepsWaits.alloc _ (.typed type (some w.fresh)))

/-- A call by another component leaves the component waiting for what it waits for. -/
theorem call_keepsWaits (h : owner ≠ this) : Always (KeepsWaits owner) (Component.call this) := by
  rw [Component.call_eq]
  refine calledComponent_keepsWaits.bind ?_
  rintro ⟨name, path, params⟩
  refine fullFootprint_keepsWaits.newComponent.bind fun component => ?_
  intro w t hends
  rw [returns_startComponent.ends.1 hends]
  have hstarted : KeepsWaits owner (w.boxed typeComponent (.component component))
      { w.boxed typeComponent (.component component) with started := component :: w.started } :=
    fun hw => .of_eq hw rfl rfl rfl rfl
  exact trans_of (KeepsWaits owner) keepsWaits_boxed
    (trans_of (KeepsWaits owner) hstarted (keepsWaits_setComponent h))

/-- A call that stops with a fault has started nothing. -/
theorem call_throws_keepsWaits {e : Fault} (h : Throws (Component.call this) w e w') :
    KeepsWaits owner w w' := by
  rw [Component.call_eq] at h
  rcases throws_bind.1 h with h | ⟨⟨name, path, params⟩, u, hcalled, hrest⟩
  · exact calledComponent_keepsWaits _ _ (.inr ⟨e, h⟩)
  · refine trans_of (KeepsWaits owner) (calledComponent_keepsWaits _ _ (.inl ⟨_, hcalled⟩)) ?_
    rcases throws_bind.1 hrest with h | ⟨component, v, -, hstart⟩
    · exact fullFootprint_keepsWaits.newComponent _ _ (.inr ⟨e, h⟩)
    · exact absurd hstart returns_startComponent.not_throws

theorem waitForOne_keepsWaits (h : owner ≠ this) :
    Always (KeepsWaits owner) (Component.waitForOne this) := by
  refine always_self.bind fun c => always_follow.bind fun waitComponents => always_follow.bind ?_
  rintro ⟨item, waitComponents⟩
  refine Always.bind ?_ fun _ => always_typedObject.bind ?_
  · intro w t hends
    rw [returns_modifySelf.ends.1 hends]
    exact keepsWaits_setComponent h
  · rintro ⟨type, object⟩
    exact always_componentAt

theorem OtherStep.keepsWaits (h : OtherStep doubles this owner w w') :
    KeepsWaits owner w w' := by
  cases h with
  | @round other wires received _ howner h =>
    refine fullFootprint_keepsWaits.round (fun _ t hcall => ?_) h
    have hexec : Always (KeepsWaits owner)
        (execute doubles (channelHandler wires received) other .call) :=
      (call_keepsWaits howner.symm).bind fun _ => Always.pure
    exact trans_of (KeepsWaits owner) (fullFootprint_keepsWaits.source other w _) (hexec _ _ hcall)
  | wait _ howner h => exact waitForOne_keepsWaits howner.symm _ _ h

/-! ### What a component waits for -/

/-- The item is a typed object for the component. -/
def Refers (w : World) (item component : ℕ) : Prop :=
  ∃ type p, w.cell item = some (.typed type (some p)) ∧ w.cell p = some (.component component)

/-- The component waits for these, the last one first. -/
structure Waiting (this : ℕ) (children : List ℕ) (w : World) : Prop where
  tracked : Tracked this w
  items : ∃ items, ((w.component this).waitComponents.getD Stack.constructor).Holds
    (items.map some) ∧ List.Forall₂ (Refers w) items children
  nodup : children.Nodup
  lt : ∀ child ∈ children, child < w.components

theorem WaitsKept.refers (h : WaitsKept owner w w') {item component : ℕ}
    (href : Refers w item component) : Refers w' item component := by
  obtain ⟨type, p, hitem, hp⟩ := href
  exact ⟨type, p, h.cells item _ hitem trivial, h.cells p _ hp trivial⟩

theorem Waiting.kept (h : Waiting this children w) (hkeeps : KeepsWaits this w w') :
    Waiting this children w' := by
  have hk := hkeeps h.tracked
  obtain ⟨items, hholds, hrefers⟩ := h.items
  refine ⟨hk.tracked, ⟨items, ?_, ?_⟩, h.nodup, fun child hchild => ?_⟩
  · rw [hk.waitComponents]
    exact hholds
  · exact hrefers.imp fun _ _ => hk.refers
  · exact Nat.lt_of_lt_of_le (h.lt child hchild) hk.components

/-- The new component has a number that none had before. -/
theorem newComponent_number {name path : CString} {params : Option (IteratedList ℕ)}
    {component : ℕ} (h : Returns (Component.newComponent name path params) w component w') :
    w.components ≤ component ∧ component < w'.components := by
  obtain ⟨opened, u, hopen, hrest⟩ := returns_bind.1 h
  have hcomponents : u.components = w.components := by
    unfold fopen at hopen
    rw [returns_get_bind] at hopen
    split at hopen
    · cases hopen
      rfl
    · cases hopen
      rfl
  cases opened with
  | none => exact absurd hrest returns_fatal
  | some sourceFile =>
    cases hrest
    exact ⟨le_of_eq hcomponents.symm, Nat.lt_succ_self _⟩

/-- A call adds the component that it has started. -/
theorem Waiting.call (h : Waiting this children w) {child : ℕ}
    (hcall : Returns (Component.call this) w child w') : Waiting this (child :: children) w' := by
  rw [Component.call_eq] at hcall
  obtain ⟨⟨name, path, params⟩, u, hcalled, hrest⟩ := returns_bind.1 hcall
  obtain ⟨component, v, hnew, hstart⟩ := returns_bind.1 hrest
  obtain ⟨rfl, rfl⟩ := hstart.unique returns_startComponent
  have hu := h.kept (calledComponent_keepsWaits _ _ (.inl ⟨_, hcalled⟩))
  have hv := hu.kept (fullFootprint_keepsWaits.newComponent _ _ (.inl ⟨_, hnew⟩))
  obtain ⟨hle, hlt⟩ := newComponent_number hnew
  have hkeeps : KeepsWaits this v (v.boxed typeComponent (.component child)) := keepsWaits_boxed
  have hboxed := hkeeps hv.tracked
  obtain ⟨items, hholds, hrefers⟩ := hv.items
  refine ⟨⟨hboxed.tracked.component, hboxed.tracked.cells⟩, ⟨(v.fresh + 1) :: items, ?_, ?_⟩,
    List.nodup_cons.2 ⟨fun hmem => ?_, h.nodup⟩, fun c hc => ?_⟩
  · unfold World.afterCall
    rw [World.setComponent_component]
    exact hholds.push _
  · refine .cons ⟨typeComponent, v.fresh, World.boxed_typed, World.boxed_object⟩ ?_
    exact hrefers.imp fun _ _ => hboxed.refers
  · exact absurd (hu.lt child hmem) (Nat.not_lt_of_le hle)
  · rcases List.mem_cons.1 hc with rfl | hc
    · exact hlt
    · exact hv.lt c hc

/-! ### The thread -/

theorem ThreadRuns.waiting (hrun : ThreadRuns doubles this w children w') {before : List ℕ}
    (h : Waiting this before w) : Waiting this (children ++ before) w' := by
  induction hrun generalizing before with
  | refl => exact h
  | round wires received hop first _ ih =>
    refine ih (h.kept (fullFootprint_keepsWaits.round (fun hcall => ?_) (.inl ⟨true, first⟩)))
    exact absurd hcall hop
  | call hstop hop first _ ih =>
    rw [List.append_assoc]
    exact ih ((h.kept (fullFootprint_keepsWaits.source this _ _)).call first)
  | other first _ ih => exact ih (h.kept first.keepsWaits)

/-- What cleaning up does when the component waits for these. -/
def exitEvents (children : List ℕ) (owner : ℕ) : List ExitEvent :=
  children.flatMap (fun child => [.join child, .release child]) ++ [.cleanedUp owner]

theorem exitEvents_cons (child : ℕ) (children : List ℕ) (owner : ℕ) :
    exitEvents (child :: children) owner =
      .join child :: .release child :: exitEvents children owner := rfl

/-- One round of the loop takes the component that was started last. -/
theorem Waiting.waitForOne (h : Waiting owner children w) {s : Stack ℕ} {child : ℕ}
    (hsome : (w.component owner).waitComponents = some s) (hsize : s.size ≠ 0)
    (hrun : Returns (Component.waitForOne owner) w child u) :
    ∃ rest, children = child :: rest ∧ Waiting owner rest u := by
  obtain ⟨items, hholds, hrefers⟩ := h.items
  rw [hsome, Option.getD_some] at hholds
  cases hrefers with
  | nil => exact absurd hholds.size_eq hsize
  | @cons item component items rest href hrefers =>
    obtain ⟨s', hpop, hholds'⟩ := hholds.pop_cons
    have hnodup := List.nodup_cons.1 h.nodup
    unfold Component.waitForOne at hrun
    rw [returns_self.bind_iff, hsome] at hrun
    obtain ⟨t, w₁, hfollow, hrun₁⟩ := returns_bind.1 hrun
    obtain ⟨ht, rfl⟩ := returns_follow.1 hfollow
    obtain rfl := Option.some.inj ht
    obtain ⟨⟨item', t⟩, w₂, hfollow', hrun₂⟩ := returns_bind.1 hrun₁
    obtain ⟨hitem, rfl⟩ := returns_follow.1 hfollow'
    rw [hpop] at hitem
    cases hitem
    simp only at hrun₂
    rw [returns_modifySelf.bind_iff] at hrun₂
    obtain ⟨⟨type, object⟩, w₃, htyped, hlast⟩ := returns_bind.1 hrun₂
    obtain ⟨⟨p, hp, hcell⟩, rfl⟩ := returns_typedObject.1 htyped
    obtain ⟨⟨q, rfl, hq⟩, rfl⟩ := Component.returns_componentAt.1 hlast
    -- the item on top refers to the component that was started last
    obtain ⟨type', q', hitem, hq'⟩ := href
    obtain rfl := Option.some.inj hp
    obtain ⟨-, heq⟩ := Cell.typed.inj (Option.some.inj (hitem.symm.trans hcell))
    obtain rfl := Option.some.inj heq
    obtain rfl := Cell.component.inj (Option.some.inj (hq'.symm.trans hq))
    refine ⟨rest, rfl, ⟨h.tracked.component, h.tracked.cells⟩, ⟨items, ?_, hrefers⟩, hnodup.2,
      fun c hc => h.lt c (List.mem_cons_of_mem _ hc)⟩
    rw [World.setComponent_component]
    exact hholds'

theorem CleansUp.events_eq (hclean : CleansUp doubles this owner w events w')
    (h : Waiting owner children w) : events = exitEvents children owner := by
  induction hclean generalizing children with
  | done hdone =>
    obtain ⟨items, hholds, hrefers⟩ := h.items
    have hsize := hholds.size_eq
    have hzero : items = [] := by
      cases hwaits : (World.component _ owner).waitComponents with
      | none =>
        rw [hwaits] at hsize
        exact List.map_eq_nil_iff.1 (List.length_eq_zero_iff.1 hsize.symm)
      | some s =>
        rw [hwaits, Option.getD_some, hdone s hwaits] at hsize
        exact List.map_eq_nil_iff.1 (List.length_eq_zero_iff.1 hsize.symm)
    subst hzero
    cases hrefers
    rfl
  | next hsome hsize first _ ih =>
    obtain ⟨rest, rfl, hrest⟩ := h.waitForOne hsome hsize first
    rw [ih hrest]
    rfl
  | other first _ ih => exact ih (h.kept first.keepsWaits)

theorem count_join (children : List ℕ) (owner child : ℕ) :
    (exitEvents children owner).count (.join child) = children.count child := by
  induction children with
  | nil => rfl
  | cons c children ih =>
    rw [exitEvents_cons, List.count_cons, List.count_cons, ih, List.count_cons]
    simp

theorem count_release (children : List ℕ) (owner child : ℕ) :
    (exitEvents children owner).count (.release child) = children.count child := by
  induction children with
  | nil => rfl
  | cons c children ih =>
    rw [exitEvents_cons, List.count_cons, List.count_cons, ih, List.count_cons]
    simp

/-- Cleaning up the component itself joins all that it waits for. -/
theorem joinsChildren_exitEvents (h : children.Nodup) :
    JoinsChildren this children (exitEvents children this) where
  joined child hchild := by
    rw [count_join, List.count_eq_one_of_mem h hchild]
  released child hchild := by
    rw [count_release, List.count_eq_one_of_mem h hchild]
  own component := by simp [exitEvents]

/-! ### The ways to end -/

/-- A component whose thread has just been created: it has called no other. -/
structure Created (this : ℕ) (w : World) : Prop where
  tracked : Tracked this w
  waitComponents : (w.component this).waitComponents = none

theorem Created.waiting (h : Created this w) : Waiting this [] w where
  tracked := h.tracked
  items := ⟨[], by rw [h.waitComponents]; exact Stack.constructor_holds, .nil⟩
  nodup := List.nodup_nil
  lt child hchild := by cases hchild

/-- The component that could not be made waits for nothing. -/
theorem Tracked.constructing (h : Tracked this w) (name : CString) :
    Created w.components (w.constructing name) := by
  refine ⟨⟨Nat.lt_succ_self _, h.cells⟩, ?_⟩
  show (Function.update w.component w.components _ w.components).waitComponents = none
  rw [Function.update_self]

/-- What the thread is waiting for when it stops in the middle of an instruction. -/
theorem Waiting.throws (h : Waiting this children w) {e : Fault}
    (hthrows : Throws (runOne doubles (channelHandler wires received) this) w e w') :
    Waiting this children w' := by
  obtain ⟨-, op, hop, hrun⟩ := runOne_throws hthrows
  have hopcode := h.kept (fullFootprint_keepsWaits.source this _ ((w.source this).advance 1))
  by_cases hne : op = .call
  · subst hne
    rcases throws_bind.1 hrun with hcall | ⟨child, u, -, hlast⟩
    · exact hopcode.kept (call_throws_keepsWaits hcall)
    · cases hlast
  · exact hopcode.kept (fullFootprint_keepsWaits.execute hne _ _ (.inr ⟨e, hrun⟩))

/-- A round that does not stop with a fault is not one of a call without a file. -/
theorem not_opensNoSource (h : Returns (runOne doubles (channelHandler wires received) this) w
    false u) (name : CString) : ¬ OpensNoSource this w name := by
  rintro ⟨hstop, hop, -⟩
  obtain ⟨hleft | hend, -⟩ := runOne_false h
  · rw [hstop] at hleft
    cases hleft
  · unfold World.opcodeAt at hop
    rw [hend] at hop
    cases hop

/-- **A thread joins and releases each component that it has started, and cleans up its own,
exactly when it does not end in a `CALL` whose file cannot be opened.** -/
theorem joins_children_iff (hw : Created this w) (hrun : ThreadRuns doubles this w children v)
    (hexit : Exits doubles this v events) :
    JoinsChildren this children events ↔ ∀ name, ¬ OpensNoSource this v name := by
  have hv : Waiting this children v := by
    have h := hrun.waiting hw.waiting
    rwa [List.append_nil] at h
  cases hexit with
  | ended wires received h clean =>
    obtain ⟨-, rfl⟩ := runOne_false h
    rw [clean.events_eq hv]
    exact iff_of_true (joinsChildren_exitEvents hv.nodup) (not_opensNoSource h)
  | fatal wires received h hopens clean =>
    rw [clean.events_eq (hv.throws h)]
    exact iff_of_true (joinsChildren_exitEvents hv.nodup) hopens
  | noSource wires received h hopens clean =>
    have hu := hv.throws h
    rw [clean.events_eq (hu.tracked.constructing _).waiting]
    refine iff_of_false (fun hjoins => ?_) fun hnot => hnot _ hopens
    have hown := (hjoins.own _).1 (List.mem_append_right _ (List.mem_singleton_self _))
    exact absurd hown (Nat.ne_of_gt hu.tracked.component)

/-- A main component whose file holds `contents`, where the file of a component `B` is empty and no
other component has a file. -/
def World.withSourceOfB (contents : List UInt8) : World :=
  { World.atCode contents none Stack.constructor [] with
    disk := fun path => if path = getFilePath [] (getSourceFile [66]) then some [] else none }

/-- `CALL` of a component without parameters. -/
def callBytes (name : UInt8) : List UInt8 := [Opcode.call.byte, typeString, name, 0, 0]

/-- The state after the first call. -/
def afterCallOfB (contents : List UInt8) : World :=
  endOf (Component.call 0) ((World.withSourceOfB contents).setSource 0
    (((World.withSourceOfB contents).source 0).advance 1))

theorem created_withSourceOfB (contents : List UInt8) : Created 0 (World.withSourceOfB contents) where
  tracked := ⟨Nat.zero_lt_one, fun _ _ => rfl⟩
  waitComponents := rfl

/-- A component that calls another one and comes to the end of its file. -/
theorem joins_children_iff_one : ∃ v events, ThreadRuns binary64 0
    (World.withSourceOfB (callBytes 66)) [1] v ∧ Exits binary64 0 v events ∧
      JoinsChildren 0 [1] events := by
  have hrun : ThreadRuns binary64 0 (World.withSourceOfB (callBytes 66)) ([] ++ [1])
      (afterCallOfB (callBytes 66)) := .call rfl rfl rfl (.refl _)
  have hexit : Exits binary64 0 (afterCallOfB (callBytes 66))
      [.join 1, .release 1, .cleanedUp 0] := by
    have hended : Returns (runOne binary64 (channelHandler noWires (.long 0)) 0)
        (afterCallOfB (callBytes 66)) false (endOf
          (runOne binary64 (channelHandler noWires (.long 0)) 0) (afterCallOfB (callBytes 66))) :=
      rfl
    obtain ⟨-, heq⟩ := runOne_false hended
    rw [heq] at hended
    have hwait : Returns (Component.waitForOne 0) (afterCallOfB (callBytes 66)) 1
        (endOf (Component.waitForOne 0) (afterCallOfB (callBytes 66))) := rfl
    obtain ⟨s, hsome, hsize⟩ : ∃ s, ((afterCallOfB (callBytes 66)).component 0).waitComponents =
        some s ∧ s.size = 1 := ⟨_, rfl, rfl⟩
    have hdone : ∀ s ∈ ((endOf (Component.waitForOne 0)
        (afterCallOfB (callBytes 66))).component 0).waitComponents, s.size = 0 := by
      intro s hs
      cases hs
      rfl
    exact .ended noWires (.long 0) hended
      (.next hsome (by rw [hsize]; exact Nat.one_ne_zero) hwait (.done hdone))
  refine ⟨_, _, hrun, hexit, ?_⟩
  refine (joins_children_iff (created_withSourceOfB _) hrun hexit).2 fun name h => ?_
  exact absurd h.2.1 (by decide)

/-- The second call cannot be made, and the component of the first one is not waited for. -/
theorem missing_source_not_joined : ∃ v events,
    Created 0 (World.withSourceOfB (callBytes 66 ++ callBytes 65)) ∧
    ThreadRuns binary64 0 (World.withSourceOfB (callBytes 66 ++ callBytes 65)) [1] v ∧
    Exits binary64 0 v events ∧ ¬ JoinsChildren 0 [1] events := by
  have hrun : ThreadRuns binary64 0 (World.withSourceOfB (callBytes 66 ++ callBytes 65)) ([] ++ [1])
      (afterCallOfB (callBytes 66 ++ callBytes 65)) := .call rfl rfl rfl (.refl _)
  have hopens : OpensNoSource 0 (afterCallOfB (callBytes 66 ++ callBytes 65)) [65] :=
    ⟨rfl, rfl, _, _, _, rfl, rfl⟩
  have hexit : Exits binary64 0 (afterCallOfB (callBytes 66 ++ callBytes 65)) [.cleanedUp 2] := by
    have hstops : Throws (runOne binary64 (channelHandler noWires (.long 0)) 0)
        (afterCallOfB (callBytes 66 ++ callBytes 65))
        (.fatal "Component Source file does not exist!")
        (endOf (runOne binary64 (channelHandler noWires (.long 0)) 0)
          (afterCallOfB (callBytes 66 ++ callBytes 65))) := rfl
    refine .noSource noWires (.long 0) hstops hopens (.done fun s hs => ?_)
    cases hs
  refine ⟨_, _, created_withSourceOfB _, hrun, hexit, fun h => ?_⟩
  have hjoined := h.joined 1 (List.mem_singleton_self 1)
  revert hjoined
  decide

end InsenseCVM
