import InsenseCVM.Channels.Rendezvous
import InsenseCVM.Machine.ChannelInstruction

/-!
# What a channel transfers

Channels that `COMPONENT` instructions have declared, and the components that send and receive on
them: `component_send` and `component_receive` on the state of the machine, `channel_send` and
`channel_receive` as in `Channels.Channel`, in any interleaving. Where a receive copies, `memncpy`
takes as many bytes as `TypedObject_getSize` gave for the declared type. What else the components
execute is an event of its own, which leaves any state of the machine.

A channel is known by its number, and a pointer by the address of its object. Two lists record what
the sends have popped and what the receives have pushed.
-/

namespace InsenseCVM
open Execution ByteStream Transition

/-- The object is one of a value of the type. -/
def Cell.HasType (type : UInt8) : Cell → Prop
  | .bytes value => isFixedType type = true ∧ value.length = getSize sizeofListMap type
  | .string _ => type = typeString
  | .map _ => type = typeStruct
  | .typed .. => type = typeAny
  | _ => False

/-- What a new block of `size` bytes holds after `memncpy` of as many bytes from an object. A part of
a structure is no object. -/
def Cell.memncpy (size : ℕ) : Cell → Option Cell
  | .bytes value => if size ≤ value.length then some (.bytes (value.take size)) else none
  | .string value =>
    if value.length < size then some (.string value) else some (.bytes (value.take size))
  | .map fields => if sizeofListMap ≤ size then some (.map fields) else none
  | .typed type object => if sizeofTypedObject ≤ size then some (.typed type object) else none
  | _ => none

/-- **A copy of the size that is computed for its type can be made of every value, and is the same
object unless the type is that of strings: of a string nothing is copied.** -/
theorem Cell.HasType.memncpy {type : UInt8} {c : Cell} (hc : c.HasType type) :
    ∃ d, c.memncpy (getSize sizeofListMap type) = some d ∧ (d = c ↔ type ≠ typeString) := by
  cases c with
  | bytes value =>
    obtain ⟨hfixed, hlength⟩ := hc
    refine ⟨.bytes value, ?_, iff_of_true rfl ?_⟩
    · simp only [Cell.memncpy, ← hlength, le_refl, if_true, List.take_length]
    · rintro rfl
      exact absurd hfixed (by decide)
  | string value =>
    obtain rfl : type = typeString := hc
    have hsize : getSize sizeofListMap typeString = 0 := by decide
    refine ⟨.bytes [], ?_, iff_of_false (fun h => by cases h) fun h => h rfl⟩
    simp only [Cell.memncpy, hsize, Nat.not_lt_zero, if_false, List.take_zero]
  | map fields =>
    obtain rfl : type = typeStruct := hc
    have hsize : getSize sizeofListMap typeStruct = sizeofListMap := by decide
    refine ⟨.map fields, ?_, iff_of_true rfl (by decide)⟩
    simp only [Cell.memncpy, hsize, le_refl, if_true]
  | typed type' object =>
    obtain rfl : type = typeAny := hc
    have hsize : sizeofTypedObject ≤ getSize sizeofListMap typeAny := by decide
    refine ⟨.typed type' object, ?_, iff_of_true rfl (by decide)⟩
    simp only [Cell.memncpy, hsize, if_true]
  | long | file | component => exact absurd hc id

/-! ### Declarations -/

/-- Tables of channels that the `COMPONENT` instructions of components have filled. -/
inductive DeclaredWires : Wires → Prop
  | none : DeclaredWires noWires
  | component {wires wires' : Wires} {this : ℕ} {w w' : World} (before : DeclaredWires wires)
      (h : Returns (Component.component this wires) w wires' w') : DeclaredWires wires'

/-- The channel was created with the size of the type that is declared for it. -/
def Wires.Sized (created : List (ChanDir × ℕ)) (channelWrapper : ChannelWrapper) : Prop :=
  ∃ direction, created[channelWrapper.channel]? =
    some (direction, getSize sizeofListMap channelWrapper.type)

def Wires.Consistent (wires : Wires) : Prop :=
  ∀ owner, (wires.channels owner).AllValues (Wires.Sized wires.created)

variable {wires wires' : Wires} {this : ℕ} {w w' : World}

theorem Wires.Sized.append {created : List (ChanDir × ℕ)} {channelWrapper : ChannelWrapper}
    (h : Sized created channelWrapper) (c : ChanDir × ℕ) :
    Sized (created ++ [c]) channelWrapper := by
  obtain ⟨direction, h⟩ := h
  obtain ⟨hlt, -⟩ := List.getElem?_eq_some_iff.1 h
  refine ⟨direction, ?_⟩
  rw [List.getElem?_append_left hlt]
  exact h

theorem Wires.Consistent.readChannel (h : wires.Consistent)
    (hrun : Returns (Component.readChannel this wires) w wires' w') : wires'.Consistent := by
  obtain ⟨byte, w₁, -, hrun₁⟩ := returns_bind.1 hrun
  obtain ⟨direction, w₂, -, hrun₂⟩ := returns_bind.1 hrun₁
  obtain ⟨channelType, w₃, -, hrun₃⟩ := returns_bind.1 hrun₂
  obtain ⟨name, w₄, -, hrun₄⟩ := returns_bind.1 hrun₃
  obtain ⟨type, w₅, -, hrun₅⟩ := returns_bind.1 hrun₄
  obtain ⟨declared, w₆, hdeclare, hrun₆⟩ := returns_bind.1 hrun₅
  obtain ⟨⟨stored, channels⟩, w₇, hput, hlast⟩ := returns_bind.1 hrun₆
  simp only at hlast
  split_ifs at hlast
  · obtain ⟨rfl, -⟩ := returns_pure.1 hlast
    intro owner
    have hgrown : ∀ owner, (wires.channels owner).AllValues
        (Sized (wires.created ++ [(direction, getSize sizeofListMap type)])) :=
      fun owner a e he v hv => (h owner a e he v hv).append _
    by_cases howner : owner = this
    · subst howner
      show (Function.update wires.channels owner channels owner).AllValues _
      rw [Function.update_self]
      refine ((hgrown owner).declare (returns_follow.1 hdeclare).1).put ?_
        (returns_follow.1 hput).1
      rintro v hv
      obtain rfl := Option.mem_some_iff.1 hv
      exact ⟨direction, List.getElem?_concat_length ..⟩
    · show (Function.update wires.channels this channels owner).AllValues _
      rw [Function.update_of_ne howner]
      exact hgrown owner
  · exact absurd hlast returns_fatal

theorem Wires.Consistent.readChannels {n : ℕ} (h : wires.Consistent)
    (hrun : Returns (Component.readChannels this n wires) w wires' w') : wires'.Consistent := by
  induction n generalizing wires w with
  | zero =>
    obtain ⟨rfl, -⟩ := returns_pure.1 hrun
    exact h
  | succ n ih =>
    obtain ⟨wires₁, w₁, hfirst, hrest⟩ := returns_bind.1 hrun
    exact ih (h.readChannel hfirst) hrest

theorem Wires.Consistent.readInterfaces {n : ℕ} (h : wires.Consistent)
    (hrun : Returns (Component.readInterfaces this n wires) w wires' w') : wires'.Consistent := by
  induction n generalizing wires w with
  | zero =>
    obtain ⟨rfl, -⟩ := returns_pure.1 hrun
    exact h
  | succ n ih =>
    obtain ⟨number, w₁, -, hrun₁⟩ := returns_bind.1 hrun
    obtain ⟨wires₂, w₂, hfirst, hrest⟩ := returns_bind.1 hrun₁
    exact ih (h.readChannels hfirst) hrest

theorem DeclaredWires.consistent (h : DeclaredWires wires) : wires.Consistent := by
  induction h with
  | none => exact fun _ => ListMap.allValues_constructor
  | component _ hrun ih =>
    obtain ⟨name, w₁, -, hrun₁⟩ := returns_bind.1 hrun
    rw [returns_self.bind_iff] at hrun₁
    split_ifs at hrun₁
    · exact absurd hrun₁ returns_fatal
    · obtain ⟨number, w₂, -, hread⟩ := returns_bind.1 hrun₁
      exact ih.readInterfaces hread

/-! ### The system -/

/-- A call of `component_receive`: the component, the channel, and the typed object it will push. -/
structure Reception where
  component : ℕ
  channel : ChannelWrapper
  wrapper : ℕ

/-- A call of `component_send`: the call of `channel_send`, and the type and the value of what it has
popped. -/
structure Sent where
  call : Call ℕ ℕ
  channel : ChannelWrapper
  type : UInt8
  value : Cell

/-- What a call of `component_receive` has pushed: the call of `channel_receive`, and the type and
the value of the typed object. -/
structure Pushed where
  call : Call ℕ ℕ
  reception : Reception
  type : UInt8
  value : Cell

/-- The machine, the channels, the last call of `component_receive` on each channel, and the record
of what has been popped and pushed. -/
structure Transfer where
  world : World
  channels : Channels ℕ ℕ ℕ
  reception : ℕ → Reception
  popped : List Sent
  pushed : List Pushed

/-- A component calls `component_send` or `component_receive`, takes a step in `channel_send` or
`channel_receive`, or executes something else, which leaves the state `world`. -/
inductive TransferEvent
  | send (this : ℕ)
  | receive (this : ℕ)
  | stepSend (channel : ℕ)
  | stepReceive (channel : ℕ)
  | other (world : World)

/-- The type and the value of a typed object. -/
def World.boxAt (w : World) (address : ℕ) : Option (UInt8 × Cell) := do
  match ← w.cell address with
  | .typed type (some object) => return (type, ← w.cell object)
  | _ => none

namespace Transfer

/-- `memncpy(data, cin->buffer, cin->typesize)` of a call of `channel_receive`. -/
def copy (wires : Wires) (w : World) (copied : Call ℕ ℕ × ℕ) : Option World := do
  let (_, typesize) ← wires.created[copied.1.channel]?
  let object ← w.cell copied.2
  let block ← object.memncpy typesize
  return { w with cell := Function.update w.cell copied.1.data (some block) }

/-- `Stack_push(this->dataStack, receivedWrapper)` -/
def push (w : World) (r : Reception) : World :=
  w.setComponent r.component { w.component r.component with
    dataStack := (w.component r.component).dataStack.push (some r.wrapper) }

def step (wires : Wires) (t : Transfer) : TransferEvent → Option Transfer
  | .send this =>
    match Component.send this wires t.world with
    | .ok (channel, type, some object) world => do
      let channels ← t.channels.step (.send channel.channel object)
      let value ← world.cell object
      return { t with
        world := world
        channels := channels
        popped := t.popped ++ [⟨channels.sendCall channel.channel, channel, type, value⟩] }
    | _ => none
  | .receive this =>
    match Component.beginReceive this wires t.world with
    | .ok (channel, wrapper, block) world => do
      let channels ← t.channels.step (.receive channel.channel block)
      return { t with
        world := world
        channels := channels
        reception := Function.update t.reception channel.channel ⟨this, channel, wrapper⟩ }
    | _ => none
  | .stepSend channel => do
    let channels ← t.channels.step (.stepSend channel)
    return { t with channels := channels }
  | .stepReceive channel => do
    let channels ← t.channels.step (.stepReceive channel)
    let world ← (channels.copied.drop t.channels.copied.length).foldlM (copy wires) t.world
    if (channels.receiver channel).pc = .idle then
      let r := t.reception channel
      let (type, value) ← world.boxAt r.wrapper
      return { t with
        world := push world r
        channels := channels
        pushed := t.pushed ++ [⟨channels.receiveCall channel, r, type, value⟩] }
    else return { t with world := world, channels := channels }
  | .other world => some { t with world := world }

end Transfer

end InsenseCVM
