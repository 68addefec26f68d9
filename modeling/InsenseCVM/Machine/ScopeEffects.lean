import InsenseCVM.Collections.OpenScope
import InsenseCVM.Machine.ChannelInstruction
import InsenseCVM.Machine.Footprint

/-!
# What the handlers call on a scope stack

Every handler, those of the instructions on channels included, changes the scope stack of its
component only by calls of the functions of `ScopeStack.c`. So does every run of the component
among other threads, which leave its scope stack alone.
-/

namespace InsenseCVM
open Execution ByteStream

/-- The scope stack after some calls of the functions of `ScopeStack.c`. -/
def ScopeCalls (this : ℕ) (w w' : World) : Prop :=
  this < w.components → this < w'.components ∧
    ∃ calls, Transition.run ScopeStack.Call.apply (w.component this).scopeStack calls =
      some (w'.component this).scopeStack

variable {D : Type} {doubles : Doubles D} {wires : Wires} {received : Cell} {this : ℕ}
  {w w' : World} {α : Type}

instance : IsPreorder World (ScopeCalls this) where
  refl _ hw := ⟨hw, [], rfl⟩
  trans _ _ _ h h' hw := by
    obtain ⟨hw₁, calls, hcalls⟩ := h hw
    obtain ⟨hw₂, calls', hcalls'⟩ := h' hw₁
    refine ⟨hw₂, calls ++ calls', ?_⟩
    rw [Transition.run_append, hcalls]
    exact hcalls'

theorem ScopeCalls.of_eq (hcomponents : w.components ≤ w'.components)
    (hscopes : (w'.component this).scopeStack = (w.component this).scopeStack) :
    ScopeCalls this w w' :=
  fun hw => ⟨hw.trans_le hcomponents, [], congrArg some hscopes.symm⟩

theorem scopeCalls_setComponent {owner : ℕ} {c : Component}
    (hscopes : c.scopeStack = (w.component owner).scopeStack) :
    ScopeCalls this w (w.setComponent owner c) := by
  refine .of_eq (Nat.le_refl _) ?_
  by_cases h : this = owner
  · subst h
    rw [World.setComponent_component, hscopes]
  · exact congrArg Component.scopeStack (Function.update_of_ne h ..)

/-- A function of `ScopeStack.c` on the scopes of the component. -/
theorem scopeCalls_onScopes {f : ScopeStack ℕ → Option (α × ScopeStack ℕ)}
    (call : ScopeStack.Call ℕ)
    (hcall : ∀ s a s', f s = some (a, s') → call.apply (some s) = some (some s')) :
    Respects (ScopeCalls this) (onScopes this f) := by
  intro w a w' hrun hw
  obtain ⟨s, s', hs, hf, rfl⟩ := returns_onScopes.1 hrun
  refine ⟨hw, [call], ?_⟩
  rw [World.setComponent_component, hs, Transition.run_cons, hcall s a s' hf]
  rfl

theorem scopeCalls_declareVariable {name : CString} :
    Respects (ScopeCalls this) (Component.declareVariable this name) := by
  refine scopeCalls_onScopes (.declare name) fun s a s' h => ?_
  obtain ⟨t, hdeclare, h⟩ := Option.bind_eq_some_iff.1 h
  cases h
  simp [ScopeStack.Call.apply, hdeclare]

theorem scopeCalls_storeVariable {name : CString} {value : Option ℕ} :
    Respects (ScopeCalls this) (onScopes this (·.store name value)) :=
  scopeCalls_onScopes (.store name value) fun s a s' h => by
    simp [ScopeStack.Call.apply, h]

theorem footprint_scopeCalls : Footprint this (ScopeCalls this) where
  source _ _ _ := .of_eq (Nat.le_refl _) rfl
  component _ _ _ hc := scopeCalls_setComponent hc.scopeStack
  lookUp name := scopeCalls_onScopes (.load name) fun s a s' h => by
    simp [ScopeStack.Call.apply, h]
  alloc _ _ _ := .of_eq (Nat.le_refl _) rfl
  write _ _ _ _ _ _ _ := .of_eq (Nat.le_refl _) rfl
  opened _ _ := .of_eq (Nat.le_refl _) rfl
  created w c _ hw := by
    have hsame : (w.setComponent w.components c).component this = w.component this :=
      Function.update_of_ne (Nat.ne_of_lt hw) ..
    exact ScopeCalls.of_eq (Nat.le_succ _) (congrArg Component.scopeStack hsame) hw
  started _ _ := .of_eq (Nat.le_refl _) rfl
  functions _ _ := .of_eq (Nat.le_refl _) rfl

theorem scopeFootprint_scopeCalls : ScopeFootprint this (ScopeCalls this) where
  toFootprint := footprint_scopeCalls
  enterScope := by
    intro w a w' hrun hw
    obtain ⟨-, rfl⟩ := hrun.unique returns_modifySelf
    refine ⟨hw, [.enterScope], ?_⟩
    rw [World.setComponent_component]
    rfl
  exitScope := scopeCalls_onScopes .exitScope fun s a s' h => by
    obtain ⟨t, hexit, h⟩ := Option.bind_eq_some_iff.1 h
    cases h
    simp [ScopeStack.Call.apply, hexit]
  exitTo name := scopeCalls_onScopes (.exitTo name) fun s a s' h => by
    obtain ⟨t, hexit, h⟩ := Option.bind_eq_some_iff.1 h
    cases h
    simp [ScopeStack.Call.apply, hexit]
  declareVariable _ := scopeCalls_declareVariable
  storeVariable _ _ := scopeCalls_storeVariable
  own _ _ _ hscopes := scopeCalls_setComponent hscopes
  allocFile _ _ := .of_eq (Nat.le_refl _) rfl

theorem constructorFootprint_scopeCalls : ConstructorFootprint this (ScopeCalls this) where
  toFootprint := footprint_scopeCalls
  given _ _ hscopes _ _ := scopeCalls_setComponent hscopes
  declareVariable _ := scopeCalls_declareVariable
  storeVariable _ _ := scopeCalls_storeVariable

/-! ### The instructions on channels -/

section channels

variable {R : World → World → Prop}

theorem keeps_componentAt {object : Option ℕ} : Keeps (Component.componentAt object) :=
  fun _ _ _ h => (Component.returns_componentAt.1 h).2

theorem keeps_findChannel {owner : ℕ} {name : CString} :
    Keeps (Component.findChannel wires owner name) :=
  fun _ _ _ h => (Component.returns_findChannel.1 h).2

theorem keeps_waitUntilRunning {owner : ℕ} : Keeps (Component.waitUntilRunning owner) :=
  keeps_self.bind fun _ => Keeps.ite Keeps.pure Keeps.throw

namespace Footprint

variable [IsPreorder World R] (hR : Footprint this R)

include hR

theorem readChannel : Respects R (Component.readChannel this wires) := by
  unfold Component.readChannel
  refine hR.fgetc.bind fun direction => Respects.bind ?_ fun direction => ?_
  · unfold Component.channelDirection
    exact Respects.ite Respects.pure (Respects.ite Respects.pure Respects.throw)
  · refine hR.fgetc.bind fun _ => hR.readString.bind fun _ => keeps_follow.respects.bind fun _ => ?_
    unfold Component.storeChannel
    refine keeps_follow.respects.bind fun _ => keeps_follow.respects.bind ?_
    rintro ⟨stored, channels⟩
    exact Respects.ite Respects.pure Respects.throw

theorem readChannels (numberOfChannels : ℕ) (wires : Wires) :
    Respects R (Component.readChannels this numberOfChannels wires) := by
  induction numberOfChannels generalizing wires with
  | zero => exact Respects.pure
  | succ numberOfChannels ih => exact hR.readChannel.bind fun _ => ih _

theorem readInterfaces (numberOfInterfaces : ℕ) (wires : Wires) :
    Respects R (Component.readInterfaces this numberOfInterfaces wires) := by
  induction numberOfInterfaces generalizing wires with
  | zero => exact Respects.pure
  | succ numberOfInterfaces ih =>
    exact hR.fgetc.bind fun _ => (hR.readChannels _ _).bind fun _ => ih _

theorem componentDeclared : Respects R (Component.component this wires) := by
  unfold Component.component
  refine hR.readString.bind fun _ => keeps_self.respects.bind fun c => ?_
  exact Respects.ite Respects.throw (hR.fgetc.bind fun _ => hR.readInterfaces _ _)

theorem loadComponent {message : String} :
    Respects R (Component.loadComponent this message) := by
  unfold Component.loadComponent
  refine hR.load.bind fun _ => hR.popData.bind fun _ => keeps_typedObject.respects.bind ?_
  rintro ⟨type, object⟩
  exact Respects.ite Respects.throw keeps_componentAt.respects

theorem connectEnd : Respects R (Component.connectEnd this wires) := by
  unfold Component.connectEnd
  refine hR.loadComponent.bind fun owner => hR.readString.bind fun name => ?_
  refine keeps_waitUntilRunning.respects.bind fun _ => keeps_findChannel.respects.bind fun found => ?_
  split
  · exact Respects.throw
  · exact Respects.pure

theorem connect : Respects R (Component.connect this wires) :=
  hR.connectEnd.bind fun _ => hR.connectEnd.bind fun _ => Respects.pure

theorem disconnect : Respects R (Component.disconnect this wires) := by
  unfold Component.disconnect
  refine hR.loadComponent.bind fun owner => hR.readString.bind fun name => ?_
  refine keeps_findChannel.respects.bind fun found => ?_
  split
  · exact Respects.throw
  · exact Respects.pure

theorem send : Respects R (Component.send this wires) := by
  unfold Component.send
  refine hR.readString.bind fun name => keeps_findChannel.respects.bind fun found => ?_
  split
  · exact Respects.throw
  · refine hR.popData.bind fun _ => keeps_typedObject.respects.bind ?_
    rintro ⟨type, object⟩
    exact Respects.pure

/-- A receive makes a box, and `channel_receive` fills it. -/
theorem receive (hreceived : ∀ w address,
      R w { w with cell := Function.update w.cell address (some received) }) :
    Respects R (Component.receive this wires received) := by
  unfold Component.receive Component.beginReceive
  refine Respects.bind ?_ ?_
  · refine hR.readString.bind fun _ => keeps_findChannel.respects.bind fun _ => ?_
    refine keeps_follow.respects.bind fun _ => (hR.allocate (by simp)).bind fun _ => ?_
    exact hR.construct.bind fun _ => Respects.pure
  · rintro ⟨channel, wrapper, block⟩
    refine Respects.bind ?_ fun _ => hR.pushData
    intro w a w' hrun
    obtain ⟨-, rfl⟩ := hrun.unique returns_modify
    exact hreceived w block

theorem channelHandler (hreceived : ∀ w address,
      R w { w with cell := Function.update w.cell address (some received) }) (op : Opcode) :
    Respects R (InsenseCVM.channelHandler wires received op this) := by
  cases op with
  | component => exact hR.componentDeclared.bind fun _ => Respects.pure
  | connect => exact hR.connect.bind fun _ => Respects.pure
  | disconnect => exact hR.disconnect.bind fun _ => Respects.pure
  | send => exact hR.send.bind fun _ => Respects.pure
  | receive => exact hR.receive hreceived
  | _ => exact Respects.pure

end Footprint

end channels

/-! ### Runs -/

/-- The component runs from `w` to `w'`; in between, other threads leave its scope stack alone. -/
inductive RunsAmong (doubles : Doubles D) (this : ℕ) : World → World → Prop
  | refl (w : World) : RunsAmong doubles this w w
  | round {wires : Wires} {received : Cell} {u w w' : World}
      (first : Runs doubles (channelHandler wires received) this 1 w u)
      (rest : RunsAmong doubles this u w') : RunsAmong doubles this w w'
  | other {u w w' : World} (components : w.components ≤ u.components)
      (scopeStack : (u.component this).scopeStack = (w.component this).scopeStack)
      (rest : RunsAmong doubles this u w') : RunsAmong doubles this w w'

/-- One round of the component. -/
theorem Runs.scopeCalls (h : Runs doubles (channelHandler wires received) this 1 w w') :
    ScopeCalls this w w' := by
  refine scopeFootprint_scopeCalls.runs (fun op hapart => ?_) h
  have hchannel : ∀ op, Respects (ScopeCalls this) (channelHandler wires received op this) :=
    footprint_scopeCalls.channelHandler fun _ _ => .of_eq (Nat.le_refl _) rfl
  cases op with
  | constructor => exact constructorFootprint_scopeCalls.constructor
  | component => exact hchannel .component
  | connect => exact hchannel .connect
  | disconnect => exact hchannel .disconnect
  | send => exact hchannel .send
  | receive => exact hchannel .receive
  | _ => exact absurd hapart fun h => h

/-- **Whatever a component runs, its scope stack changes by calls of the functions of
`ScopeStack.c`.** -/
theorem RunsAmong.scopeCalls (h : RunsAmong doubles this w w') : ScopeCalls this w w' := by
  induction h with
  | refl w => exact refl_of (ScopeCalls this) w
  | round first _ ih => exact trans_of (ScopeCalls this) first.scopeCalls ih
  | other hcomponents hscopes _ ih =>
    exact trans_of (ScopeCalls this) (.of_eq hcomponents hscopes) ih

end InsenseCVM
