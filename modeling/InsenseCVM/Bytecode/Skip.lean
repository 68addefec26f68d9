import InsenseCVM.Bytecode.Strings
import InsenseCVM.Lib.Search

/-!
# The two decoders

The handlers decode the operands of the instruction they execute, and `component_skipToNext`
decodes the operands of the instructions it passes over. `decodeOperands` is what a handler reads
of its operands before it seeks or skips; `skipOperands` is the `switch` of the skipper.
-/

namespace InsenseCVM
open Execution ByteStream

/-- What the decoders look at in the component. -/
structure Reading where
  name : CString
  stop : Bool
  running : Bool
  inProject : Bool
deriving DecidableEq

/-- The rounds of a loop bounded by a byte of the file; `EOF` is minus one. -/
def counted : Option UInt8 → ℕ
  | some parameters => parameters.toNat
  | none => 0

/-- A type and a name. -/
def readField : Reader Unit := do
  let _ ← fgetc
  let _ ← readString

/-! ### The handlers -/

/-- The operand of a jump, a byte distance. -/
def readDistance (message : String) : Reader ℤ := do
  match ← readData with
  | none => throw .undefined
  | some (.bytes type value) => if type = typeInteger then pure (signedOf value) else fatal message
  | some (.string _) => fatal message

def jumpMessage : String := "Syntax error - jump must be followed by distance."

def ifMessage : String := "Syntax error - if must be followed by skip distance."

def elseMessage : String := "Syntax error - else must be followed by skip distance."

def readChannel : Reader Unit := do
  let direction ← fgetc
  if direction = some typeIn ∨ direction = some typeOut then readField
  else fatal "Syntax error in COMPONENT - channel direction unknown"

/-- What the handler of an instruction reads of its operands, before it seeks or skips. -/
def decodeOperands (this : Reading) : Opcode → Reader Unit
  | .stop | .load | .store | .send | .receive | .procCall => do
    let _ ← readString
  | .push => do
    match ← readData with
    | none => fatal "Tried to push data onto stack, but no data could be read."
    | some _ => pure ()
  | .declare => do
    let _ ← readString
    let _ ← fgetc
  | .component => do
    let name ← readString
    if name ≠ this.name then
      fatal "Syntax error in COMPONENT - name %s does not match expected %s"
    else
      let interfaces ← fgetc
      times (counted interfaces) do
        let channels ← fgetc
        times (counted channels) readChannel
  | .call => do
    let _ ← readString
    let _ ← fgetc
  | .constructor =>
    -- once the component is running, the operands are left to the skipper
    if this.running = true then pure ()
    else do
      let parameters ← fgetc
      times (counted parameters) readField
  | .behaviourJump =>
    if this.stop = true then do
      let _ ← readData
    else do
      let _ ← readDistance jumpMessage
  | .jump => do
    let _ ← readDistance jumpMessage
  | .ifClause => do
    let _ ← readDistance ifMessage
  | .elseClause => do
    let _ ← readDistance elseMessage
  | .connect => do
    let _ ← readString
    let _ ← readString
    let _ ← readString
    let _ ← readString
  | .disconnect => do
    let _ ← readString
    let _ ← readString
  | .proc => do
    let _ ← readString
    let parameters ← fgetc
    times (counted parameters) readField
  | .struct => do
    let nextByte ← fgetc
    if nextByte = some structConstructor then
      let parameters ← fgetc
      times (counted parameters) readField
    else if nextByte = some structLoad then
      let _ ← readString
    else fatal "Unknown Byte Read - %u"
  | .blockEnd => do
    if this.inProject = true then
      let _ ← fgetc
  | .projectEntry => do
    let _ ← readString
    let _ ← fgetc
  | .enterScope | .exitScope | .expression _ | .not | .procReturn | .any | .projectExit => pure ()

/-! ### The skipper -/

/-- The `switch` of `component_skipToNext`. -/
def skipOperands (inProject : Bool) (bytecode : UInt8) : Opcode → Reader Unit
  | .stop => do
    let _ ← readString
  | .push => do
    let _ ← readData
  | .declare => do
    let _ ← readString
    let _ ← readNBytes 1
  | .load | .store => do
    let _ ← readString
  | .component => do
    let _ ← readString
    let parameters ← fgetc
    times (counted parameters) do
      let channels ← fgetc
      times (counted channels) do
        let _ ← fgetc
        readField
  | .call => do
    let _ ← readString
    let parameters ← fgetc
    times (counted parameters) do
      let _ ← readString
  | .constructor => do
    let parameters ← fgetc
    times (counted parameters) readField
  | .jump | .ifClause | .elseClause => do
    let _ ← readString
  | .connect => do
    let _ ← readString
    let _ ← readString
    let _ ← readString
    let _ ← readString
  | .disconnect => do
    let _ ← readString
    let _ ← readString
  | .send | .receive => do
    let _ ← readString
  | .proc => do
    let _ ← readString
    let parameters ← fgetc
    times (counted parameters) readField
  | .procCall => do
    let _ ← readString
  | .struct => do
    let nextByte ← fgetc
    if nextByte = some structConstructor then
      let _ ← readString
      let parameters ← fgetc
      times (counted parameters) readField
    else if nextByte = some structLoad then
      let _ ← readString
    else pure ()
  | .blockEnd => do
    if inProject = true ∧ bytecode = Opcode.projectExit.byte then
      let nextChar ← fgetc
      if nextChar = some Opcode.projectExit.byte then seekCur (-1)
      else pure ()
  | .enterScope | .exitScope | .expression _ | .not | .behaviourJump | .procReturn | .any
  | .projectEntry | .projectExit => pure ()

/-- The body of the loop for a byte that was read: no case of the `switch` is for a byte that is
no opcode. -/
def skipInstruction (inProject : Bool) (bytecode next : UInt8) : Reader Unit :=
  match Opcode.ofByte next with
  | some op => skipOperands inProject bytecode op
  | none => pure ()

def skipRound (inProject : Bool) (bytecode : UInt8) (next : Option UInt8) :
    Reader (Option UInt8 ⊕ Option UInt8) :=
  match next with
  | none => pure (.inr none)
  | some byte =>
    if byte = bytecode then pure (.inr next)
    else do
      skipInstruction inProject bytecode byte
      let next ← fgetc
      pure (.inl next)

def skipWithin (inProject : Bool) (bytecode : UInt8) (rounds : ℕ) : Reader (Option UInt8) := do
  let next ← fgetc
  iterate .endless (skipRound inProject bytecode) rounds next

/-- `component_skipToNext` -/
def skipToNext (inProject : Bool) (bytecode : UInt8) : Reader (Option UInt8) := do
  let file ← get
  skipWithin inProject bytecode file.rounds

/-! ### Where the skipper looks for opcodes -/

variable {inProject : Bool} {bytecode next : UInt8} {f g u : File} {r : List UInt8} {k n : ℕ}

/-- Started at `f`, the skipper comes to read its opcode number `k` at `g`. -/
inductive Dispatches (inProject : Bool) (bytecode : UInt8) (f : File) : ℕ → File → Prop
  | start : Dispatches inProject bytecode f 0 f
  | next {k : ℕ} {g h : File} {byte : UInt8} {r : List UInt8}
      (before : Dispatches inProject bytecode f k g) (read : g.rest = byte :: r)
      (other : byte ≠ bytecode)
      (skipped : Returns (skipInstruction inProject bytecode byte) (g.advance 1) () h) :
      Dispatches inProject bytecode f (k + 1) h

theorem forward_readNBytes : Forward (readNBytes n) 0 := by
  induction n with
  | zero => exact Forward.pure
  | succ n ih =>
    unfold readNBytes
    exact forward_fgetc.andThen fun _ => ih.andThen fun _ => Forward.pure

theorem forward_readData : Forward readData 0 := by
  intro f a g h
  obtain ⟨o, u, hget, hrun⟩ := returns_bind.1 h
  rcases returns_fgetc_iff.1 hget with ⟨b, r, -, rfl, rfl⟩ | ⟨-, rfl, rfl⟩
  · simp only at hrun
    split_ifs at hrun with hfixed hstring
    · obtain ⟨n, -, rfl⟩ := (forward_readNBytes.andThen fun _ => Forward.pure) _ _ _ hrun
      exact ⟨1 + n, by omega, by rw [File.advance_advance]⟩
    · -- the type byte is read again with the string
      rw [returns_seekCur_back.bind_iff] at hrun
      exact (forward_readString.andThen fun _ => Forward.pure) _ _ _ hrun
    · exact ⟨1, by omega, (returns_pure.1 hrun).2⟩
  · exact ⟨0, Nat.le_refl 0, (returns_pure.1 hrun).2⟩

theorem forward_readField : Forward readField 2 := by
  unfold readField
  have := forward_fgetc.bind fun _ => forward_readString.bind fun _ => @Forward.pure Fault Unit ()
  exact this.mono (by omega)

theorem forward_skipOperands (op : Opcode) : Forward (skipOperands inProject bytecode op) 0 := by
  have hstring : Forward (readString >>= fun _ => (pure () : Reader Unit)) 0 :=
    forward_readString.andThen fun _ => Forward.pure
  have hfields : Forward (fgetc >>= fun parameters => times (counted parameters) readField) 0 :=
    forward_fgetc.andThen fun _ => forward_readField.loop
  cases op with
  | push => exact forward_readData.andThen fun _ => Forward.pure
  | declare =>
    exact forward_readString.andThen fun _ => forward_readNBytes.andThen fun _ => Forward.pure
  | component =>
    refine forward_readString.andThen fun _ => forward_fgetc.andThen fun _ => Forward.loop (k := 0) ?_
    have hchannel : Forward (fgetc >>= fun _ => readField : Reader Unit) 0 :=
      forward_fgetc.andThen fun _ => forward_readField.mono (by omega)
    exact forward_fgetc.andThen fun _ => hchannel.loop
  | call =>
    exact forward_readString.andThen fun _ => forward_fgetc.andThen fun _ => hstring.loop
  | constructor => exact hfields
  | connect =>
    exact forward_readString.andThen fun _ => forward_readString.andThen fun _ =>
      forward_readString.andThen fun _ => hstring
  | disconnect => exact forward_readString.andThen fun _ => hstring
  | proc => exact forward_readString.andThen fun _ => hfields
  | struct =>
    refine forward_fgetc.andThen fun nextByte => ?_
    split_ifs
    · exact forward_readString.andThen fun _ => hfields
    · exact hstring
    · exact Forward.pure
  | blockEnd =>
    rw [skipOperands]
    split_ifs
    · -- the byte that is read past the end of the last block is put back
      intro f a g h
      obtain ⟨o, u, hget, hrun⟩ := returns_bind.1 h
      rcases returns_fgetc_iff.1 hget with ⟨b, r, -, rfl, rfl⟩ | ⟨-, rfl, rfl⟩
      · split_ifs at hrun
        · exact ⟨0, Nat.le_refl 0, (hrun.unique returns_seekCur_back).2⟩
        · exact ⟨1, by omega, (returns_pure.1 hrun).2⟩
      · exact ⟨0, Nat.le_refl 0, (returns_pure.1 hrun).2⟩
    · exact Forward.pure
  | stop => exact hstring
  | load => exact hstring
  | store => exact hstring
  | jump => exact hstring
  | ifClause => exact hstring
  | elseClause => exact hstring
  | send => exact hstring
  | receive => exact hstring
  | procCall => exact hstring
  | _ => exact Forward.pure

theorem forward_skipInstruction : Forward (skipInstruction inProject bytecode next) 0 := by
  unfold skipInstruction
  cases Opcode.ofByte next with
  | none => exact Forward.pure
  | some op => exact forward_skipOperands op

theorem forward_skipToNext : Forward (skipToNext inProject bytecode) 0 := by
  intro f a g hrun
  have hround : ∀ next, Forward (skipRound inProject bytecode next) 0 := by
    intro next
    unfold skipRound
    split
    · exact Forward.pure
    · split_ifs
      · exact Forward.pure
      · exact forward_skipInstruction.andThen fun _ => forward_fgetc.andThen fun _ => Forward.pure
  unfold skipToNext at hrun
  rw [returns_get_bind] at hrun
  exact (forward_fgetc.andThen fun _ => Forward.iterate hround) _ _ _ hrun

/-! ### The skipper as a search -/

theorem skipToNext_eq_search :
    skipToNext inProject bytecode =
      search .endless (skipInstruction inProject bytecode) bytecode := by
  rfl

theorem dispatches_iff_passes :
    Dispatches inProject bytecode f k g ↔
      Passes (skipInstruction inProject bytecode) bytecode f k g := by
  constructor
  · intro h
    induction h with
    | start => exact .start
    | next _ read other skipped ih => exact .next ih read other skipped
  · intro h
    induction h with
    | start => exact .start
    | next _ read other skipped ih => exact .next ih read other skipped

/-- Every dispatch is at least a byte further on than the one before. -/
theorem Dispatches.exists_advance (h : Dispatches inProject bytecode f k g) :
    ∃ n, k ≤ n ∧ g = f.advance n :=
  (dispatches_iff_passes.1 h).exists_advance fun _ => forward_skipInstruction

/-- A byte that is dispatched and is the one searched for ends the search. -/
theorem Dispatches.skipToNext (h : Dispatches inProject bytecode f k g)
    (hg : g.rest = bytecode :: r) :
    Returns (skipToNext inProject bytecode) f (some bytecode) (g.advance 1) := by
  rw [skipToNext_eq_search]
  exact (dispatches_iff_passes.1 h).search (fun _ => forward_skipInstruction) hg

theorem Dispatches.unique (hg : Dispatches inProject bytecode f k g)
    (hu : Dispatches inProject bytecode f k u) : g = u :=
  (dispatches_iff_passes.1 hg).unique (dispatches_iff_passes.1 hu)

end InsenseCVM
