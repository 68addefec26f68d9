import InsenseCVM.Machine.Run

/-!
# Handlers that can be interrupted

The threads of the components run side by side, and a thread can be interrupted between any two
accesses to its source file. A `Prog` is a program that takes one access or one step on the memory of
the component at a time. The functions that read instructions, calls and returns are here once more,
as such programs; `Agrees` says that a program, run without an interruption, does what the handler
does in one go.
-/

namespace InsenseCVM
open Execution ByteStream

variable {α β γ : Type}

/-- An access to a file. -/
inductive Access : Type → Type
  | fgetc : Access (Option UInt8)
  | ftell : Access ℕ
  | seekSet (pos : ℕ) : Access Unit
  | seekCur (offset : ℤ) : Access Unit

def Access.program {ε : Type} : Access α → EStateM ε File α
  | .fgetc => ByteStream.fgetc
  | .ftell => ByteStream.ftell
  | .seekSet pos => ByteStream.seekSet pos
  | .seekCur offset => ByteStream.seekCur offset

/-- A program that can be interrupted; a `loop` answers `inl` to go round again and `inr` to leave. -/
inductive Prog : Type → Type 1
  | pure {α : Type} (a : α) : Prog α
  | act {α β : Type} (m : Exec β) (k : β → Prog α) : Prog α
  | source {α β : Type} (access : Access β) (k : β → Prog α) : Prog α
  | loop {α β γ : Type} (body : β → Prog (β ⊕ γ)) (b : β) (k : γ → Prog α) : Prog α

def Prog.bind : Prog α → (α → Prog β) → Prog β
  | .pure a, q => q a
  | .act m k, q => .act m fun b => (k b).bind q
  | .source access k, q => .source access fun b => (k b).bind q
  | .loop body b k, q => .loop body b fun c => (k c).bind q

instance : Monad Prog where
  pure := Prog.pure
  bind := Prog.bind

namespace Resumable

/-! ### Reading the source file -/

def fgetc : Prog (Option UInt8) := .source .fgetc .pure

def ftell : Prog ℕ := .source .ftell .pure

def seekSet (pos : ℕ) : Prog Unit := .source (.seekSet pos) .pure

def seekCur (offset : ℤ) : Prog Unit := .source (.seekCur offset) .pure

/-- A step on the memory of the component. -/
def act (m : Exec α) : Prog α := .act m .pure

def fatal (message : String) : Prog α := act (InsenseCVM.fatal message)

def iterate (body : β → Prog (β ⊕ α)) (b : β) : Prog α := .loop body b .pure

def countRound (state : ℕ × Bool) : Prog ((ℕ × Bool) ⊕ ℕ) := do
  let (numChars, escapeChar) := state
  let nextByte ← fgetc
  if nextByte = some 0 then pure (.inr numChars)
  else if nextByte = some backslash ∧ escapeChar = false then pure (.inl (numChars, true))
  else if nextByte ≠ some letterN ∧ nextByte ≠ some backslash ∧ escapeChar = true then
    pure (.inl (numChars + 2 + 1, false))
  else pure (.inl (numChars + 1, escapeChar))

def writeAt (string : List UInt8) (index : ℕ) (byte : UInt8) : Prog (List UInt8) :=
  if index < string.length then pure (string.set index byte) else act (throw .undefined)

def fillRound (state : List UInt8 × ℕ × Bool) : Prog ((List UInt8 × ℕ × Bool) ⊕ List UInt8) := do
  let (string, numChars, escapeChar) := state
  let nextByte ← fgetc
  if nextByte = some 0 then
    let string ← writeAt string numChars 0
    pure (.inr string)
  else if nextByte = some backslash ∧ escapeChar = false then
    pure (.inl (string, numChars, true))
  else if escapeChar = true then
    if nextByte = some letterN then
      let string ← writeAt string numChars newline
      pure (.inl (string, numChars + 1, false))
    else if nextByte = some backslash then
      let string ← writeAt string numChars backslash
      pure (.inl (string, numChars + 1, false))
    else pure (.inl (string, numChars + 1, false))
  else
    let string ← writeAt string numChars (nextByte.getD 255)
    pure (.inl (string, numChars + 1, escapeChar))

/-- `component_readString` -/
def readString : Prog CString := do
  let nextByte ← fgetc
  if nextByte ≠ some typeString then
    fatal "Syntax error in string read - expected BYTECODE_TYPE_STRING (6), got %d"
  else
    let startPos ← ftell
    let numChars ← iterate countRound (0, false)
    seekSet startPos
    let string := List.replicate (numChars + 1) 0
    let string ← iterate fillRound (string, 0, false)
    pure (cString string)

/-- `component_readNBytes` -/
def readNBytes : ℕ → Prog (List UInt8)
  | 0 => pure []
  | nBytes + 1 => do
    let nextChar ← fgetc
    let later ← readNBytes nBytes
    pure (later ++ [nextChar.getD 255])

def readDatum : Prog (Option Datum) := do
  let type ← fgetc
  match type with
  | none => pure none
  | some type =>
    if isFixedType type = true then
      let value ← readNBytes (getSize 0 type)
      pure (some (.bytes type value))
    else if type = typeString then
      seekCur (-1)
      let value ← readString
      pure (some (.string value))
    else pure none

/-- `component_readData` -/
def readData : Prog (Option ℕ) := do
  match ← readDatum with
  | none => pure none
  | some (.bytes type value) =>
    let object ← act (alloc (.bytes value))
    let data ← act (construct type (some object))
    pure (some data)
  | some (.string value) =>
    let object ← act (alloc (.string value))
    let data ← act (construct typeString (some object))
    pure (some data)

/-! ### Handlers -/

variable (this : ℕ)

def declare : Prog Unit := do
  let name ← readString
  let _ ← fgetc
  act (Component.declareVariable this name)

def store : Prog Unit := do
  let name ← readString
  let value ← act (popData this)
  let stored ← act (onScopes this (·.store name value))
  if stored = true then pure () else fatal "  Unable to store data."

def push : Prog Unit := do
  match ← readData with
  | none => fatal "Tried to push data onto stack, but no data could be read."
  | some data => act (pushData this (some data))

def load : Prog Unit := do
  let name ← readString
  match ← act (onScopes this (·.load name)) with
  | none => fatal "Unable to load variable %s."
  | some data => act (pushData this (some data))

def readDistance (message : String) : Prog ℤ := do
  match ← readDatum with
  | none => act (throw .undefined)
  | some (.bytes type value) => if type = typeInteger then pure (signedOf value) else fatal message
  | some (.string _) => fatal message

def jump : Prog Unit := do
  let jumpBytes ← readDistance jumpMessage
  seekCur (jumpBytes * -1 + 1)

def behaviourJump : Prog Unit := do
  let c ← act (self this)
  if c.stop = true then
    let _ ← readData
  else jump

def ifClause : Prog Unit := do
  let jumpBytes ← readDistance ifMessage
  let condition ← act (popData this)
  let (type, object) ← act (typedObject condition)
  if type ≠ typeBool then fatal "Boolean type expected for if condition."
  else
    let condition ← act (boolAt object)
    if condition = false then
      seekCur jumpBytes
      let nextByte ← fgetc
      if nextByte = some Opcode.elseClause.byte then
        let _ ← readData
      else seekCur (-1)
    else pure ()

def elseClause : Prog Unit := do
  let jumpBytes ← readDistance elseMessage
  seekCur jumpBytes

def callOwn (proc : Procedure) : Prog Unit := do
  act (Component.enterScope this)
  let fPos ← ftell
  let fPos ← act (alloc (.long fPos))
  act (Component.bindVariable this returnAddress (some fPos))
  let parameters ← act (follow proc.parameterNames.getListLength)
  act (Component.bindArguments this proc.parameterNames parameters 0)
  seekSet proc.position

/-- The file to come back to is opened anew, but the one to go on in is that of the main component. -/
def callGlobal (proc : Procedure) : Prog Unit := do
  act (Component.enterScope this)
  let fPos ← ftell
  let fPos ← act (alloc (.long fPos))
  let c ← act (self this)
  let w ← act get
  let fLoc ← act (fopen (getFilePath w.directory (getSourceFile c.name)))
  let fLoc ← act (alloc (.file fLoc))
  act (Component.bindVariable this returnAddress (some fPos))
  act (Component.bindVariable this returnSource (some fLoc))
  let parameters ← act (follow proc.parameterNames.getListLength)
  act (Component.bindArguments this proc.parameterNames parameters 0)
  let main ← act (self w.mainComponent)
  act (modifySelf this ({ · with sourceFile := main.sourceFile }))
  seekSet proc.position

/-- `component_procCall` -/
def procCall : Prog Unit := do
  let procName ← readString
  match ← act (Component.findProc this procName) with
  | some proc => callOwn this proc
  | none =>
    let w ← act get
    match ← act (Component.findProc w.mainComponent procName) with
    | some proc => callGlobal this proc
    | none => act (Component.callStandard this procName)

/-- `*newPos` -/
def positionAt (newPos : Option ℕ) : Exec ℕ := do
  let newPos ← follow newPos
  match (← get).cell newPos with
  | some (.long position) => return position
  | _ => throw .undefined

def procReturn : Prog Unit := do
  let newPos ← act (onScopes this (·.load returnAddress))
  let newFile ← act (onScopes this (·.load returnSource))
  act (Component.returnToSource this newFile)
  let position ← act (positionAt newPos)
  seekSet position
  act (onScopes this fun s => do return ((), ← s.exitTo returnAddress))
  act (Component.exitScope this)

variable {D : Type} (doubles : Doubles D) (other : Opcode → ℕ → Prog Unit)

/-- The cases of the `switch`; the handlers that are not above are a parameter. -/
def execute : Opcode → Prog Unit
  | .enterScope => act (Component.enterScope this)
  | .exitScope => act (Component.exitScope this)
  | .declare => declare this
  | .store => store this
  | .push => push this
  | .load => load this
  | .expression op => act (Component.expression doubles this op)
  | .not => act (Component.not this)
  | .behaviourJump => behaviourJump this
  | .jump => jump
  | .ifClause => ifClause this
  | .elseClause => elseClause
  | .procCall => procCall this
  | .procReturn => procReturn this
  | .any => act (Component.any this)
  | op => other op this

/-- One round of the loop. -/
def runOne : Prog (Unit ⊕ Unit) := do
  let c ← act (self this)
  if c.stop = true then pure (.inr ())
  else
    match ← fgetc with
    | none => pure (.inr ())
    | some nextByte =>
      match Opcode.ofByte nextByte with
      | some op => execute this doubles other op
      | none => pure ()
      pure (.inl ())

/-- `component_run` -/
def run : Prog Unit := iterate (fun _ => runOne this doubles other) ()

end Resumable

/-! ### Programs that are not interrupted -/

/-- The program returns `a`, and nothing else happens meanwhile. -/
inductive Executes (this : ℕ) : {α : Type} → Prog α → World → α → World → Prop
  | pure {α : Type} (a : α) (w : World) : Executes this (.pure a) w a w
  | act {α β : Type} {m : Exec β} {k : β → Prog α} {w u w' : World} {b : β} {a : α}
      (first : Returns m w b u) (rest : Executes this (k b) u a w') : Executes this (.act m k) w a w'
  | source {α β : Type} {access : Access β} {k : β → Prog α} {w u w' : World} {b : β} {a : α}
      (first : Returns (onSource this access.program) w b u) (rest : Executes this (k b) u a w') :
      Executes this (.source access k) w a w'
  | loop {α β γ : Type} {body : β → Prog (β ⊕ γ)} {b : β} {k : γ → Prog α} {w w' : World} {a : α}
      (rest : Executes this ((body b).bind (Sum.elim (fun b' => .loop body b' k) k)) w a w') :
      Executes this (.loop body b k) w a w'

variable {this : ℕ} {p : Prog α} {q : α → Prog β} {w u w' : World} {a : α} {b : β}

theorem Prog.bind_assoc {r : β → Prog γ} :
    (p.bind q).bind r = p.bind fun a => (q a).bind r := by
  induction p with
  | pure a => rfl
  | act m k ih =>
    show Prog.act m _ = Prog.act m _
    congr 1
    funext c
    exact ih c
  | source access k ih =>
    show Prog.source access _ = Prog.source access _
    congr 1
    funext c
    exact ih c
  | loop body c k _ ih =>
    show Prog.loop body c _ = Prog.loop body c _
    congr 1
    funext d
    exact ih d

theorem Executes.bind (h : Executes this p w a u) (h' : Executes this (q a) u b w') :
    Executes this (p.bind q) w b w' := by
  induction h with
  | pure a w => exact h'
  | act first _ ih => exact .act first (ih h')
  | source first _ ih => exact .source first (ih h')
  | loop _ ih =>
    have hrest := ih h'
    rw [Prog.bind_assoc] at hrest
    refine .loop ?_
    convert hrest using 2
    funext x
    cases x with
    | inl d => rfl
    | inr d => rfl

/-- Whatever the handler does in one go, the program does as well. -/
def Agrees (this : ℕ) (p : Prog α) (m : Exec α) : Prop :=
  ∀ w a w', Returns m w a w' → Executes this p w a w'

variable {m : Exec α} {f : α → Exec β}

theorem agrees_pure : Agrees this (pure a) (pure a) := by
  intro w b w' h
  obtain ⟨rfl, rfl⟩ := returns_pure.1 h
  exact .pure b w'

theorem Agrees.bind (hp : Agrees this p m) (hq : ∀ a, Agrees this (q a) (f a)) :
    Agrees this (p >>= q) (m >>= f) := by
  intro w b w' h
  obtain ⟨a, u, ha, hb⟩ := returns_bind.1 h
  exact (hp w a u ha).bind (hq a u b w' hb)

theorem agrees_act : Agrees this (Resumable.act m) m := fun _ _ w' h => .act h (.pure _ w')

theorem agrees_access {access : Access α} :
    Agrees this (.source access .pure) (onSource this access.program) :=
  fun _ _ w' h => .source h (.pure _ w')

theorem Agrees.ite {c : Prop} [Decidable c] {p' : Prog α} {m' : Exec α} (h : Agrees this p m)
    (h' : Agrees this p' m') : Agrees this (if c then p else p') (if c then m else m') := by
  split_ifs
  · exact h
  · exact h'

/-! ### Functions that only read -/

section source

variable {reader : Reader α} {later : α → Reader β}

theorem agrees_onSource_pure : Agrees this (pure a) (onSource this (pure a)) := by
  intro w b w' h
  obtain ⟨g, hg, rfl⟩ := returns_onSource.1 h
  obtain ⟨rfl, rfl⟩ := returns_pure.1 hg
  rw [World.setSource_source]
  exact .pure b w

theorem agrees_onSource_throw {e : Fault} : Agrees this p (onSource this (throw e)) := by
  intro w b w' h
  obtain ⟨g, hg, -⟩ := returns_onSource.1 h
  exact absurd hg returns_throw

theorem Agrees.onSource_bind (hp : Agrees this p (onSource this reader))
    (hq : ∀ a, Agrees this (q a) (onSource this (later a))) :
    Agrees this (p >>= q) (onSource this (reader >>= later)) := by
  intro w b w' h
  obtain ⟨g, hg, rfl⟩ := returns_onSource.1 h
  obtain ⟨a, f, ha, hb⟩ := returns_bind.1 hg
  have hlast : Returns (onSource this (later a)) (w.setSource this f) b (w.setSource this g) := by
    refine returns_onSource.2 ⟨g, ?_, ?_⟩
    · rwa [World.source_setSource]
    · rw [World.setSource_setSource]
  exact (hp w a _ (returns_onSource.2 ⟨f, ha, rfl⟩)).bind (hq a _ b _ hlast)

theorem agrees_onSource_get {after : File → Reader α}
    (h : ∀ f, Agrees this p (onSource this (after f))) :
    Agrees this p (onSource this (get >>= after)) := by
  intro w a w' hrun
  obtain ⟨g, hg, rfl⟩ := returns_onSource.1 hrun
  rw [returns_get_bind] at hg
  exact h _ w a _ (returns_onSource.2 ⟨g, hg, rfl⟩)

theorem Agrees.onSource_ite {c : Prop} [Decidable c] {p' : Prog α} {reader' : Reader α}
    (h : Agrees this p (onSource this reader)) (h' : Agrees this p' (onSource this reader')) :
    Agrees this (if c then p else p') (onSource this (if c then reader else reader')) := by
  split_ifs
  · exact h
  · exact h'

theorem agrees_onSource_iterate {round : β → Reader (β ⊕ α)} {body : β → Prog (β ⊕ α)}
    (h : ∀ b, Agrees this (body b) (onSource this (round b))) (rounds : ℕ) (b : β) :
    Agrees this (Resumable.iterate body b)
      (onSource this (Execution.iterate Fault.endless round rounds b)) := by
  induction rounds generalizing b with
  | zero => exact agrees_onSource_throw
  | succ rounds ih =>
    have hround : Agrees this ((body b).bind (Sum.elim (fun b' => Resumable.iterate body b') .pure))
        (onSource this (Execution.iterate Fault.endless round (rounds + 1) b)) := by
      refine (h b).onSource_bind fun next => ?_
      cases next with
      | inl b' => exact ih b'
      | inr a => exact agrees_onSource_pure
    exact fun w a w' hrun => .loop (hround w a w' hrun)

theorem agrees_fgetc : Agrees this Resumable.fgetc (onSource this fgetc) := agrees_access

theorem agrees_countRound (state : ℕ × Bool) :
    Agrees this (Resumable.countRound state) (onSource this (countRound state)) := by
  refine agrees_fgetc.onSource_bind fun nextByte => ?_
  refine Agrees.onSource_ite agrees_onSource_pure (Agrees.onSource_ite agrees_onSource_pure ?_)
  exact Agrees.onSource_ite agrees_onSource_pure agrees_onSource_pure

theorem agrees_writeAt {string : List UInt8} {index : ℕ} {byte : UInt8} :
    Agrees this (Resumable.writeAt string index byte) (onSource this (writeAt string index byte)) :=
  Agrees.onSource_ite agrees_onSource_pure agrees_onSource_throw

theorem agrees_fillRound (state : List UInt8 × ℕ × Bool) :
    Agrees this (Resumable.fillRound state) (onSource this (fillRound state)) := by
  refine agrees_fgetc.onSource_bind fun nextByte => ?_
  have hwrite : ∀ (byte : UInt8) (next : List UInt8 → (List UInt8 × ℕ × Bool) ⊕ List UInt8),
      Agrees this
        (Resumable.writeAt state.1 state.2.1 byte >>= fun string => pure (next string))
        (onSource this (writeAt state.1 state.2.1 byte >>= fun string => pure (next string))) :=
    fun byte next => agrees_writeAt.onSource_bind fun _ => agrees_onSource_pure
  refine Agrees.onSource_ite (hwrite _ _) (Agrees.onSource_ite agrees_onSource_pure ?_)
  refine Agrees.onSource_ite ?_ (hwrite _ _)
  refine Agrees.onSource_ite (hwrite _ _) (Agrees.onSource_ite (hwrite _ _) ?_)
  exact agrees_onSource_pure

theorem agrees_readString : Agrees this Resumable.readString (onSource this readString) := by
  refine agrees_fgetc.onSource_bind fun nextByte => Agrees.onSource_ite agrees_onSource_throw ?_
  refine agrees_access.onSource_bind fun startPos => agrees_onSource_get fun file => ?_
  refine (agrees_onSource_iterate agrees_countRound _ _).onSource_bind fun numChars => ?_
  refine agrees_access.onSource_bind fun _ => ?_
  exact (agrees_onSource_iterate agrees_fillRound _ _).onSource_bind fun string =>
    agrees_onSource_pure

theorem agrees_readNBytes (nBytes : ℕ) :
    Agrees this (Resumable.readNBytes nBytes) (onSource this (readNBytes nBytes)) := by
  induction nBytes with
  | zero => exact agrees_onSource_pure
  | succ nBytes ih =>
    exact agrees_fgetc.onSource_bind fun _ => ih.onSource_bind fun _ => agrees_onSource_pure

theorem agrees_readDatum : Agrees this Resumable.readDatum (onSource this readData) := by
  refine agrees_fgetc.onSource_bind fun type => ?_
  cases type with
  | none => exact agrees_onSource_pure
  | some type =>
    refine Agrees.onSource_ite ?_ (Agrees.onSource_ite ?_ agrees_onSource_pure)
    · exact (agrees_readNBytes _).onSource_bind fun _ => agrees_onSource_pure
    · exact agrees_access.onSource_bind fun _ => agrees_readString.onSource_bind fun _ =>
        agrees_onSource_pure

theorem agrees_readDistance {message : String} :
    Agrees this (Resumable.readDistance message) (onSource this (readDistance message)) := by
  refine agrees_readDatum.onSource_bind fun data => ?_
  cases data with
  | none => exact agrees_onSource_throw
  | some data =>
    cases data with
    | bytes type value => exact Agrees.onSource_ite agrees_onSource_pure agrees_onSource_throw
    | string value => exact agrees_onSource_throw

end source

/-! ### Handlers -/

theorem agrees_readData : Agrees this Resumable.readData (Component.readData this) := by
  refine agrees_readDatum.bind fun data => ?_
  cases data with
  | none => exact agrees_pure
  | some data =>
    cases data with
    | bytes type value =>
      exact agrees_act.bind fun _ => agrees_act.bind fun _ => agrees_pure
    | string value =>
      exact agrees_act.bind fun _ => agrees_act.bind fun _ => agrees_pure

theorem agrees_declare : Agrees this (Resumable.declare this) (Component.declare this) :=
  agrees_readString.bind fun _ => agrees_fgetc.bind fun _ => agrees_act

theorem agrees_store : Agrees this (Resumable.store this) (Component.store this) :=
  agrees_readString.bind fun _ => agrees_act.bind fun _ => agrees_act.bind fun _ =>
    Agrees.ite agrees_pure agrees_act

theorem agrees_push : Agrees this (Resumable.push this) (Component.push this) := by
  refine agrees_readData.bind fun data => ?_
  cases data with
  | none => exact agrees_act
  | some data => exact agrees_act

theorem agrees_load : Agrees this (Resumable.load this) (Component.load this) := by
  refine agrees_readString.bind fun name => agrees_act.bind fun data => ?_
  cases data with
  | none => exact agrees_act
  | some data => exact agrees_act

theorem agrees_jump : Agrees this Resumable.jump (Component.jump this) :=
  agrees_readDistance.bind fun _ => agrees_access

theorem agrees_behaviourJump :
    Agrees this (Resumable.behaviourJump this) (Component.behaviourJump this) := by
  refine agrees_act.bind fun c => Agrees.ite ?_ agrees_jump
  exact agrees_readData.bind fun _ => agrees_pure

theorem agrees_ifClause : Agrees this (Resumable.ifClause this) (Component.ifClause this) := by
  refine agrees_readDistance.bind fun jumpBytes => agrees_act.bind fun condition => ?_
  refine agrees_act.bind fun typed => Agrees.ite agrees_act (agrees_act.bind fun condition => ?_)
  refine Agrees.ite (agrees_access.bind fun _ => agrees_fgetc.bind fun nextByte => ?_) agrees_pure
  exact Agrees.ite (agrees_readData.bind fun _ => agrees_pure) agrees_access

theorem agrees_elseClause :
    Agrees this Resumable.elseClause (Component.elseClause this) :=
  agrees_readDistance.bind fun _ => agrees_access

theorem agrees_callOwn (proc : Procedure) :
    Agrees this (Resumable.callOwn this proc) (Component.callOwn this proc) := by
  refine agrees_act.bind fun _ => agrees_access.bind fun fPos => agrees_act.bind fun fPos => ?_
  refine agrees_act.bind fun _ => agrees_act.bind fun parameters => agrees_act.bind fun _ => ?_
  exact agrees_access

theorem agrees_callGlobal (proc : Procedure) :
    Agrees this (Resumable.callGlobal this proc) (Component.callGlobal this proc) := by
  refine agrees_act.bind fun _ => agrees_access.bind fun fPos => agrees_act.bind fun fPos => ?_
  refine agrees_act.bind fun c => agrees_act.bind fun w => agrees_act.bind fun fLoc => ?_
  refine agrees_act.bind fun fLoc => agrees_act.bind fun _ => agrees_act.bind fun _ => ?_
  refine agrees_act.bind fun parameters => agrees_act.bind fun _ => agrees_act.bind fun main => ?_
  exact agrees_act.bind fun _ => agrees_access

theorem agrees_procCall : Agrees this (Resumable.procCall this) (Component.procCall this) := by
  refine agrees_readString.bind fun procName => agrees_act.bind fun found => ?_
  cases found with
  | some proc => exact agrees_callOwn proc
  | none =>
    refine agrees_act.bind fun w => agrees_act.bind fun found => ?_
    cases found with
    | some proc => exact agrees_callGlobal proc
    | none => exact agrees_act

/-- The position is looked up in the memory of the component, and then sought. -/
theorem Agrees.returnToPosition {after : Prog Unit} {m : Exec Unit} (h : Agrees this after m)
    (newPos : Option ℕ) :
    Agrees this (do
      let position ← Resumable.act (Resumable.positionAt newPos)
      Resumable.seekSet position
      after) (do
      Component.returnToPosition this newPos
      m) := by
  intro w a w' hrun
  obtain ⟨_, u, hreturn, hafter⟩ := returns_bind.1 hrun
  unfold Component.returnToPosition at hreturn
  obtain ⟨address, v, hfollow, hrest⟩ := returns_bind.1 hreturn
  obtain ⟨rfl, rfl⟩ := returns_follow.1 hfollow
  rw [returns_get_bind] at hrest
  split at hrest
  · rename_i position hcell
    have hposition : Returns (Resumable.positionAt (some address)) v position v := by
      unfold Resumable.positionAt
      refine (returns_follow.2 ⟨rfl, rfl⟩).bind ((returns_get.2 ⟨rfl, rfl⟩).bind ?_)
      rw [hcell]
      exact returns_pure.2 ⟨rfl, rfl⟩
    have hseek : Agrees this (do Resumable.seekSet position; after)
        (do onSource this (seekSet position); m) := agrees_access.bind fun _ => h
    exact .act hposition (hseek _ _ _ (hrest.bind hafter))
  · exact absurd hrest returns_throw

theorem agrees_procReturn : Agrees this (Resumable.procReturn this) (Component.procReturn this) := by
  refine agrees_act.bind fun newPos => agrees_act.bind fun newFile => agrees_act.bind fun _ => ?_
  exact Agrees.returnToPosition (agrees_act.bind fun _ => agrees_act) newPos

variable {D : Type} {doubles : Doubles D} {channelInstruction : Opcode → ℕ → Exec Unit}
  {other : Opcode → ℕ → Prog Unit}

theorem agrees_execute (op : Opcode)
    (hother : Agrees this (other op this) (execute doubles channelInstruction this op)) :
    Agrees this (Resumable.execute this doubles other op)
      (execute doubles channelInstruction this op) := by
  cases op with
  | enterScope | exitScope | expression _ | not | any => exact agrees_act
  | declare => exact agrees_declare
  | store => exact agrees_store
  | push => exact agrees_push
  | load => exact agrees_load
  | behaviourJump => exact agrees_behaviourJump
  | jump => exact agrees_jump
  | ifClause => exact agrees_ifClause
  | elseClause => exact agrees_elseClause
  | procCall => exact agrees_procCall
  | procReturn => exact agrees_procReturn
  | _ => exact hother

/-- **A round of the loop that is not interrupted is a round of the component.** -/
theorem executes_runOne
    (hother : ∀ op, Agrees this (other op this) (execute doubles channelInstruction this op))
    (h : Returns (runOne doubles channelInstruction this) w true w') :
    Executes this (Resumable.runOne this doubles other) w (.inl ()) w' := by
  unfold runOne at h
  obtain ⟨c, u, hself, hrest⟩ := returns_bind.1 h
  refine (agrees_act _ _ _ hself).bind ?_
  split_ifs at hrest with hstop
  · cases (returns_pure.1 hrest).1
  · rw [if_neg hstop]
    obtain ⟨next, v, hread, hexec⟩ := returns_bind.1 hrest
    refine (agrees_fgetc _ _ _ hread).bind ?_
    cases next with
    | none => cases (returns_pure.1 hexec).1
    | some nextByte =>
      cases hop : Opcode.ofByte nextByte with
      | none =>
        simp only [hop] at hexec ⊢
        obtain ⟨-, rfl⟩ := returns_pure.1 hexec
        exact .pure _ _
      | some op =>
        simp only [hop] at hexec ⊢
        obtain ⟨_, x, hhandler, hlast⟩ := returns_bind.1 hexec
        obtain ⟨-, rfl⟩ := returns_pure.1 hlast
        exact (agrees_execute op (hother op) _ _ _ hhandler).bind (.pure _ _)

end InsenseCVM
