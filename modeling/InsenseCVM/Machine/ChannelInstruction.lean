import InsenseCVM.Channels.Network
import InsenseCVM.Machine.Run

/-!
# The instructions on channels

`component_component`, `component_connect`, `component_disconnect`, `component_send` and
`component_receive`. The channels lie outside the state of the machine: a handler is given the
tables in which components look their channels up, and a receive what `channel_receive` copies into
its block. What `channel_bind`, `channel_unbind` and `channel_send` do to the channels is modelled
in `Channels`.
-/

namespace InsenseCVM
open Execution ByteStream

/-- `struct ChannelWrapper`; a channel is known by its number. -/
structure ChannelWrapper where
  type : UInt8
  channel : ℕ
  deriving DecidableEq

/-- The field `channels` of each component, and the direction and the size that each channel was
created with. -/
structure Wires where
  channels : ℕ → ListMap ChannelWrapper
  created : List (ChanDir × ℕ)

/-- Before the first declaration. -/
def noWires : Wires := ⟨fun _ => ListMap.constructor, []⟩

/-- `sizeof(ListMap_s)`, four pointers of eight bytes. -/
def sizeofListMap : ℕ := 32

/-- `sizeof(TypedObject_s)`, two pointers and between them an `int` with its padding. -/
def sizeofTypedObject : ℕ := 24

namespace Component

variable (this : ℕ) (wires : Wires)

/-! ### Declarations -/

def channelDirection (direction : Option UInt8) : Exec ChanDir :=
  if direction = some typeIn then pure .chanIn
  else if direction = some typeOut then pure .chanOut
  else fatal "Syntax error in COMPONENT - channel direction unknown"

/-- The declaration of a channel and the store of its wrapper. -/
def storeChannel (name : CString) (channelWrapper : ChannelWrapper) : Exec Wires := do
  let channels ← follow ((wires.channels this).declare name)
  let (stored, channels) ← follow (channels.put name (some channelWrapper))
  if stored = true then
    return { wires with channels := Function.update wires.channels this channels }
  else fatal "Channel List refused to store the channel for an unknown reason."

/-- The body of the inner loop of `component_component`. -/
def readChannel : Exec Wires := do
  let direction ← channelDirection (← onSource this fgetc)
  let channelType ← onSource this fgetc
  let channelName ← onSource this readString
  -- where the file ended before the type, no name could be read
  let channelType ← follow channelType
  let newChannel := wires.created.length
  let wires := { wires with
    created := wires.created ++ [(direction, getSize sizeofListMap channelType)] }
  storeChannel this wires channelName ⟨channelType, newChannel⟩

def readChannels : ℕ → Wires → Exec Wires
  | 0, wires => pure wires
  | numberOfChannels + 1, wires => do
    let wires ← readChannel this wires
    readChannels numberOfChannels wires

def readInterfaces : ℕ → Wires → Exec Wires
  | 0, wires => pure wires
  | numberOfInterfaces + 1, wires => do
    let numberOfChannels ← onSource this fgetc
    let wires ← readChannels this (counted numberOfChannels) wires
    readInterfaces numberOfInterfaces wires

/-- `component_component` -/
def component : Exec Wires := do
  let name ← onSource this readString
  let c ← self this
  if name ≠ c.name then
    fatal "Syntax error in COMPONENT - name %s does not match expected %s"
  else
    let numberOfInterfaces ← onSource this fgetc
    readInterfaces this (counted numberOfInterfaces) wires

/-! ### Connections -/

/-- `ListMap_get(component->channels, name)` -/
def findChannel (owner : ℕ) (name : CString) : Exec (Option ChannelWrapper) := do
  let (channel, _) ← follow ((wires.channels owner).get name)
  return channel

/-- The component that the object of a typed object is. -/
def componentAt (object : Option ℕ) : Exec ℕ := do
  let address ← follow object
  match (← get).cell address with
  | some (.component id) => return id
  | _ => throw .undefined

/-- The component whose variable follows in the source. -/
def loadComponent (message : String) : Exec ℕ := do
  load this
  let component ← popData this
  let (type, object) ← typedObject component
  if type ≠ typeComponent then fatal message else componentAt object

/-- `while(!component->running)`: the instruction ends once another thread has set the field. -/
def waitUntilRunning (owner : ℕ) : Exec Unit := do
  let c ← self owner
  if c.running = true then pure () else throw .endless

/-- One half of `component_connect`. -/
def connectEnd : Exec ChannelWrapper := do
  let owner ← loadComponent this
    "Syntax error in CONNECT - expected a component variable name."
  let name ← onSource this readString
  waitUntilRunning owner
  match ← findChannel wires owner name with
  | none => fatal "Error in CONNECT - channel %s not found"
  | some channel => return channel

/-- The channels that `component_connect` binds. -/
def connect : Exec (ChannelWrapper × ChannelWrapper) := do
  let channel1 ← connectEnd this wires
  let channel2 ← connectEnd this wires
  return (channel1, channel2)

/-- The channel that `component_disconnect` unbinds. -/
def disconnect : Exec ChannelWrapper := do
  let owner ← loadComponent this
    "Syntax error in DISCONNECT - expected a component variable name."
  let name ← onSource this readString
  match ← findChannel wires owner name with
  | none => fatal "Error in DISCONNECT - channel %s not found"
  | some channel => return channel

/-! ### Transfers -/

/-- `component_send` up to its call of `channel_send`: the channel, and the type and the object of
the data that is popped. -/
def send : Exec (ChannelWrapper × UInt8 × Option ℕ) := do
  let name ← onSource this readString
  match ← findChannel wires this name with
  | none => fatal "Error in SEND - couldn't find channel named %s"
  | some channel =>
    let poppedData ← popData this
    let (type, object) ← typedObject poppedData
    return (channel, type, object)

/-- `component_receive` up to its call of `channel_receive`: the channel, the new typed object and
its block. The typed object gets the block once both are there. -/
def beginReceive : Exec (ChannelWrapper × ℕ × ℕ) := do
  let name ← onSource this readString
  let channel ← follow (← findChannel wires this name)
  let receivedData ← alloc (.bytes (List.replicate (getSize sizeofListMap channel.type) 0))
  let receivedWrapper ← construct channel.type (some receivedData)
  return (channel, receivedWrapper, receivedData)

/-- `component_receive`, where `channel_receive` fills the block with `received`. -/
def receive (received : Cell) : Exec Unit := do
  let (_, receivedWrapper, receivedData) ← beginReceive this wires
  modify fun w => { w with cell := Function.update w.cell receivedData (some received) }
  pushData this (some receivedWrapper)

/-! ### Rules -/

variable {this wires} {w w' : World} {name : CString} {owner : ℕ} {channel : ChannelWrapper}

theorem returns_findChannel {found : Option ChannelWrapper} :
    Returns (findChannel wires owner name) w found w' ↔
      (∃ t, (wires.channels owner).get name = some (found, t)) ∧ w' = w := by
  unfold findChannel
  constructor
  · intro h
    obtain ⟨⟨b, t⟩, u, hfollow, hlast⟩ := returns_bind.1 h
    obtain ⟨hget, rfl⟩ := returns_follow.1 hfollow
    obtain ⟨rfl, rfl⟩ := returns_pure.1 hlast
    exact ⟨⟨t, hget⟩, rfl⟩
  · rintro ⟨⟨t, hget⟩, rfl⟩
    exact (returns_follow.2 ⟨hget, rfl⟩).bind (returns_pure.2 ⟨rfl, rfl⟩)

theorem returns_componentAt {object : Option ℕ} {id : ℕ} :
    Returns (componentAt object) w id w' ↔
      (∃ p, object = some p ∧ w.cell p = some (.component id)) ∧ w' = w := by
  unfold componentAt
  constructor
  · intro h
    obtain ⟨p, u, hp, hrest⟩ := returns_bind.1 h
    obtain ⟨rfl, rfl⟩ := returns_follow.1 hp
    rw [returns_get_bind] at hrest
    split at hrest
    · rename_i hcell
      obtain ⟨rfl, rfl⟩ := returns_pure.1 hrest
      exact ⟨⟨p, rfl, hcell⟩, rfl⟩
    · exact absurd hrest returns_throw
  · rintro ⟨⟨p, rfl, hcell⟩, rfl⟩
    refine (returns_follow.2 ⟨rfl, rfl⟩).bind ((returns_get.2 ⟨rfl, rfl⟩).bind ?_)
    rw [hcell]
    exact returns_pure.2 ⟨rfl, rfl⟩

/-- A send takes a typed object off the stack of its component and changes nothing else. -/
theorem returns_send {type : UInt8} {object : Option ℕ}
    (h : Returns (send this wires) w (channel, type, object) w') :
    ∃ f s p, (w.component this).dataStack.pop = some (some p, s) ∧
      w.cell p = some (.typed type object) ∧
      w' = (w.setSource this f).setComponent this { w.component this with dataStack := s } := by
  obtain ⟨name, u₁, hread, hrest₁⟩ := returns_bind.1 h
  obtain ⟨f, -, rfl⟩ := returns_onSource.1 hread
  obtain ⟨found, u₂, hfind, hrest₂⟩ := returns_bind.1 hrest₁
  obtain ⟨-, rfl⟩ := returns_findChannel.1 hfind
  cases found with
  | none => exact absurd hrest₂ returns_fatal
  | some channel' =>
    obtain ⟨item, u₃, hpop, hrest₃⟩ := returns_bind.1 hrest₂
    obtain ⟨s, hitem, rfl⟩ := returns_popData.1 hpop
    obtain ⟨⟨type', object'⟩, u₄, htyped, hlast⟩ := returns_bind.1 hrest₃
    obtain ⟨⟨p, rfl, hcell⟩, rfl⟩ := returns_typedObject.1 htyped
    obtain ⟨heq, rfl⟩ := returns_pure.1 hlast
    cases heq
    exact ⟨f, s, p, hitem, hcell, rfl⟩

/-- A receive makes a block for a value of the type of its channel, and a typed object for it. -/
theorem returns_beginReceive {wrapper block : ℕ}
    (h : Returns (beginReceive this wires) w (channel, wrapper, block) w') :
    ∃ f, (∃ name t, (wires.channels this).get name = some (some channel, t)) ∧
      block = w.fresh ∧ wrapper = w.fresh + 1 ∧
      w' = (w.setSource this f).boxed channel.type
        (.bytes (List.replicate (getSize sizeofListMap channel.type) 0)) := by
  obtain ⟨name, u₁, hread, hrest₁⟩ := returns_bind.1 h
  obtain ⟨f, -, rfl⟩ := returns_onSource.1 hread
  obtain ⟨found, u₂, hfind, hrest₂⟩ := returns_bind.1 hrest₁
  obtain ⟨⟨t, hget⟩, rfl⟩ := returns_findChannel.1 hfind
  obtain ⟨channel', u₃, hfollow, hrest₃⟩ := returns_bind.1 hrest₂
  obtain ⟨rfl, rfl⟩ := returns_follow.1 hfollow
  rw [returns_alloc.bind_iff] at hrest₃
  obtain ⟨wrapper', u₄, hconstruct, hlast⟩ := returns_bind.1 hrest₃
  obtain ⟨rfl, rfl⟩ := hconstruct.unique returns_alloc
  obtain ⟨heq, rfl⟩ := returns_pure.1 hlast
  cases heq
  exact ⟨f, ⟨name, t, hget⟩, rfl, rfl, rfl⟩

end Component

/-- What an instruction on channels does to the state of the machine. -/
def channelHandler (wires : Wires) (received : Cell) (op : Opcode) (this : ℕ) : Exec Unit :=
  match op with
  | .component => do
    let _ ← Component.component this wires
  | .connect => do
    let _ ← Component.connect this wires
  | .disconnect => do
    let _ ← Component.disconnect this wires
  | .send => do
    let _ ← Component.send this wires
  | .receive => Component.receive this wires received
  | _ => pure ()

end InsenseCVM
