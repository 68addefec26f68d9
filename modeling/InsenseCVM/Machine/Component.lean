import InsenseCVM.Machine.World

/-!
# The handlers of the instructions

`Component.c`, handler by handler. The operators are in a module of their own, and the instructions
that work on channels are not part of this model. Log messages other than the `FATAL` ones are left
out, and so is every change of a reference count.
-/

namespace InsenseCVM
open Execution ByteStream

/-- The bytes of a string constant. -/
def ascii (chars : List Char) : CString := chars.map fun c => UInt8.ofNat c.toNat

/-- The variable that holds the position to return to. -/
def returnAddress : CString :=
  ascii ['_', 'r', 'e', 't', 'u', 'r', 'n', 'A', 'd', 'd', 'r', 'e', 's', 's']

/-- The variable that holds the file to return to. -/
def returnSource : CString :=
  ascii ['_', 'r', 'e', 't', 'u', 'r', 'n', 'S', 'o', 'u', 'r', 'c', 'e']

/-- `getFilePath` -/
def getFilePath (directory fileName : CString) : CString :=
  if directory.getLast? = some 47 then directory ++ fileName else directory ++ 47 :: fileName

/-- `Component_getSourceFile` -/
def getSourceFile (name : CString) : CString :=
  ascii ['I', 'n', 's', 'e', 'n', 's', 'e', '_'] ++ name ++ ascii ['.', 'i', 's', 'c']

/-- `fopen` for reading: a new stream at the start of the file. -/
def fopen (path : CString) : Exec (Option ℕ) := do
  let w ← get
  match w.disk path with
  | none => return none
  | some contents =>
    set { w with file := Function.update w.file w.handles ⟨contents, 0⟩, handles := w.handles + 1 }
    return some w.handles

namespace Component

variable (this : ℕ)

/-! ### Scopes and variables -/

def enterScope : Exec Unit :=
  modifySelf this fun c => { c with scopeStack := some (ScopeStack.enterScope c.scopeStack) }

def exitScope : Exec Unit :=
  onScopes this fun s => do return ((), ← s.exitScope)

def declareVariable (name : CString) : Exec Unit :=
  onScopes this fun s => do return ((), ← s.declare name)

def declare : Exec Unit := do
  let name ← onSource this readString
  let _ ← onSource this fgetc
  declareVariable this name

def store : Exec Unit := do
  let name ← onSource this readString
  let value ← popData this
  let stored ← onScopes this (·.store name value)
  if stored = true then pure () else fatal "  Unable to store data."

/-- `component_readData`, which makes a typed object of what it reads. -/
def readData : Exec (Option ℕ) := do
  match ← onSource this InsenseCVM.readData with
  | none => return none
  | some (.bytes type value) =>
    let object ← alloc (.bytes value)
    return some (← construct type (some object))
  | some (.string value) =>
    let object ← alloc (.string value)
    return some (← construct typeString (some object))

def push : Exec Unit := do
  match ← readData this with
  | none => fatal "Tried to push data onto stack, but no data could be read."
  | some data => pushData this (some data)

def load : Exec Unit := do
  let name ← onSource this readString
  match ← onScopes this (·.load name) with
  | none => fatal "Unable to load variable %s."
  | some data => pushData this (some data)

/-! ### Jumps -/

def stopComponent : Exec Unit := do
  let name ← onSource this readString
  let c ← self this
  if name = [] ∨ name = c.name then modifySelf this ({ · with stop := true })
  else
    match ← onScopes this (·.load name) with
    | none => fatal "Component %s could not be found"
    | some component =>
      let (type, object) ← typedObject (some component)
      if type ≠ typeComponent then fatal "Component %s could not be found"
      else
        let address ← follow object
        match (← get).cell address with
        | some (.component id) => modifySelf id ({ · with stop := true })
        | _ => throw .undefined

def jump : Exec Unit := do
  let jumpBytes ← onSource this (readDistance jumpMessage)
  onSource this (seekCur (jumpBytes * -1 + 1))

def behaviourJump : Exec Unit := do
  let c ← self this
  if c.stop = true then
    let _ ← readData this
  else jump this

def ifClause : Exec Unit := do
  let jumpBytes ← onSource this (readDistance ifMessage)
  let condition ← popData this
  let (type, object) ← typedObject condition
  if type ≠ typeBool then fatal "Boolean type expected for if condition."
  else
    let condition ← boolAt object
    if condition = false then
      onSource this (seekCur jumpBytes)
      let nextByte ← onSource this fgetc
      if nextByte = some Opcode.elseClause.byte then
        let _ ← readData this
      else onSource this (seekCur (-1))
    else pure ()

def elseClause : Exec Unit := do
  let jumpBytes ← onSource this (readDistance elseMessage)
  onSource this (seekCur jumpBytes)

/-! ### Procedures -/

/-- The parameters of a procedure, each put at the head of the list. -/
def readParameterNames : ℕ → IteratedList CString → Exec (IteratedList CString)
  | 0, names => pure names
  | parameters + 1, names => do
    let _ ← onSource this fgetc
    let name ← onSource this readString
    readParameterNames parameters (names.insertElement (some name))

def proc : Exec Unit := do
  let c ← self this
  let procs := c.procs.getD ListMap.constructor
  modifySelf this ({ · with procs := some procs })
  let procName ← onSource this readString
  let parameters ← onSource this fgetc
  let names ← readParameterNames this (counted parameters) IteratedList.constructList
  let position ← onSource this ftell
  let procs ← follow (procs.declare procName)
  let (_, procs) ← follow (procs.put procName (some ⟨procName, position, names⟩))
  modifySelf this ({ · with procs := some procs })
  let c ← self this
  let _ ← onSource this (skipToNext c.inProject Opcode.blockEnd.byte)

/-- A declaration followed by a store whose result is not looked at. -/
def bindVariable (name : CString) (value : Option ℕ) : Exec Unit := do
  declareVariable this name
  let _ ← onScopes this (·.store name value)

/-- The loop that binds the parameters of a procedure, from number `i` on. -/
def bindArguments (names : IteratedList CString) : ℕ → ℕ → Exec Unit
  | 0, _ => pure ()
  | parameters + 1, i => do
    let name ← follow (← follow (names.getElementN i))
    declareVariable this name
    let value ← popData this
    let _ ← onScopes this (·.store name value)
    bindArguments names parameters (i + 1)

/-- A look into a map of procedures of the component numbered `owner`. -/
def findProc (owner : ℕ) (procName : CString) : Exec (Option Procedure) := do
  let c ← self owner
  match c.procs with
  | none => return none
  | some procs =>
    let (proc, procs) ← follow (procs.get procName)
    modifySelf owner ({ · with procs := some procs })
    return proc

/-- The call of a procedure the component itself declared. -/
def callOwn (proc : Procedure) : Exec Unit := do
  enterScope this
  let fPos ← onSource this ftell
  let fPos ← alloc (.long fPos)
  bindVariable this returnAddress (some fPos)
  let parameters ← follow proc.parameterNames.getListLength
  bindArguments this proc.parameterNames parameters 0
  onSource this (seekSet proc.position)

/-- The call of a procedure that the main component declared. -/
def callGlobal (proc : Procedure) : Exec Unit := do
  enterScope this
  let fPos ← onSource this ftell
  let fPos ← alloc (.long fPos)
  let c ← self this
  let w ← get
  let fLoc ← fopen (getFilePath w.directory (getSourceFile c.name))
  let fLoc ← alloc (.file fLoc)
  bindVariable this returnAddress (some fPos)
  bindVariable this returnSource (some fLoc)
  let parameters ← follow proc.parameterNames.getListLength
  bindArguments this proc.parameterNames parameters 0
  let main ← self w.mainComponent
  modifySelf this ({ · with sourceFile := main.sourceFile })
  onSource this (seekSet proc.position)

/-- The arguments of a standard function, which only writes to the output. -/
def popArguments : ℕ → Exec Unit
  | 0 => pure ()
  | numParams + 1 => do
    let param ← popData this
    let _ ← typedObject param
    popArguments numParams

def callStandard (procName : CString) : Exec Unit := do
  let w ← get
  let (proc, standardFunctions) ← follow (w.standardFunctions.get procName)
  set { w with standardFunctions := standardFunctions }
  match proc with
  | none =>
    fatal "Procedure %s not found in Component %s or standard functions in %p! Terminating."
  | some proc =>
    let numParams ← follow proc.parameterNames.getListLength
    popArguments this numParams

def procCall : Exec Unit := do
  let procName ← onSource this readString
  match ← findProc this procName with
  | some proc => callOwn this proc
  | none =>
    let w ← get
    match ← findProc w.mainComponent procName with
    | some proc => callGlobal this proc
    | none => callStandard this procName

/-- The file is changed only by a procedure that has one to return to. -/
def returnToSource (newFile : Option ℕ) : Exec Unit :=
  match newFile with
  | none => pure ()
  | some newFile => do
    match (← get).cell newFile with
    | some (.file (some handle)) => modifySelf this ({ · with sourceFile := handle })
    | _ => throw .undefined

/-- `fseek(this->sourceFile, *newPos, SEEK_SET)` -/
def returnToPosition (newPos : Option ℕ) : Exec Unit := do
  let newPos ← follow newPos
  match (← get).cell newPos with
  | some (.long position) => onSource this (seekSet position)
  | _ => throw .undefined

def procReturn : Exec Unit := do
  let newPos ← onScopes this (·.load returnAddress)
  let newFile ← onScopes this (·.load returnSource)
  returnToSource this newFile
  returnToPosition this newPos
  onScopes this fun s => do return ((), ← s.exitTo returnAddress)
  exitScope this

/-! ### Structs and any -/

/-- The loop of `component_struct_constructor`. -/
def readStructFields : ℕ → ListMap ℕ → Exec (ListMap ℕ)
  | 0, paramsList => pure paramsList
  | paramsToRead + 1, paramsList => do
    let _ ← onSource this fgetc
    let name ← onSource this readString
    let paramsList ← follow (paramsList.declare name)
    let object ← popData this
    -- the type of the object is logged
    let _ ← typedObject object
    let (_, paramsList) ← follow (paramsList.put name object)
    readStructFields paramsToRead paramsList

def structConstructor : Exec Unit := do
  let paramsToRead ← onSource this fgetc
  let fields ← readStructFields this (counted paramsToRead) ListMap.constructor
  let object ← alloc (.map fields)
  let newStruct ← construct typeStruct (some object)
  pushData this (some newStruct)

def structLoad : Exec Unit := do
  let fieldName ← onSource this readString
  let (_, object) ← typedObject (← popData this)
  let address ← follow object
  match (← get).cell address with
  | some (.map structFields) =>
    let (field, structFields) ← follow (structFields.get fieldName)
    modify fun w => { w with cell := Function.update w.cell address (some (.map structFields)) }
    match field with
    | none => fatal "Field %s does not exist in struct!"
    | some field => pushData this (some field)
  | _ => throw .undefined

def struct : Exec Unit := do
  let nextByte ← onSource this fgetc
  if nextByte = some InsenseCVM.structConstructor then structConstructor this
  else if nextByte = some InsenseCVM.structLoad then structLoad this
  else fatal "Unknown Byte Read - %u"

def any : Exec Unit := do
  let object ← popData this
  let anyObject ← construct typeAny object
  pushData this (some anyObject)

/-! ### Blocks and projects -/

def blockEnd : Exec Unit := do
  let c ← self this
  if c.inProject = true then
    let nextByte ← onSource this fgetc
    if nextByte ≠ some Opcode.projectExit.byte then
      let _ ← onSource this (skipToNext c.inProject Opcode.projectExit.byte)
    else pure ()
  else
    match ← onScopes this (·.load returnAddress) with
    | some _ => procReturn this
    | none => pure ()

/-- The loop of `component_projectEntry` over the blocks; the type of the projected object is looked
at only when there is a block. -/
def tryBlocks (projectedObject : Option ℕ) : ℕ → Exec Unit
  | 0 => throw .endless
  | rounds + 1 => do
    let nextByte ← onSource this fgetc
    if nextByte = some Opcode.projectExit.byte then pure ()
    else
      let (type, _) ← typedObject projectedObject
      if nextByte ≠ some type ∧ nextByte ≠ some typeAny then
        let c ← self this
        let _ ← onSource this (skipToNext c.inProject Opcode.blockEnd.byte)
        tryBlocks projectedObject rounds
      else modifySelf this ({ · with inProject := true })

def projectEntry : Exec Unit := do
  enterScope this
  let anyObject ← popData this
  let (_, projectedObject) ← typedObject anyObject
  let asName ← onSource this readString
  bindVariable this asName projectedObject
  let w ← get
  tryBlocks this projectedObject (w.source this).rounds

def projectExit : Exec Unit := do
  let c ← self this
  if c.inProject = false then fatal "Read Project Exit while not at end of Project!"
  else
    exitScope this
    modifySelf this ({ · with inProject := false })

/-! ### Calling and constructing components -/

/-- `component_newComponent` -/
def newComponent (name path : CString) (params : Option (IteratedList ℕ)) : Exec ℕ := do
  match ← fopen path with
  | none => fatal "Component Source file does not exist!"
  | some sourceFile =>
    let w ← get
    set { w.setComponent w.components
      { name := name, sourceFile := sourceFile, parameters := params, scopeStack := none
        dataStack := Stack.constructor, waitComponents := none, procs := none, stop := false
        running := false, inProject := false } with components := w.components + 1 }
    return w.components

/-- The loop of `component_call` that collects the parameters. -/
def popParameters : ℕ → IteratedList ℕ → Exec (IteratedList ℕ)
  | 0, paramsList => pure paramsList
  | parameters + 1, paramsList => do
    let param ← popData this
    popParameters parameters (paramsList.insertElement param)

/-- The list of the parameters, null when there are none. -/
def paramsList (numberOfParameters : Option UInt8) : Exec (Option (IteratedList ℕ)) :=
  if counted numberOfParameters = 0 then pure none
  else some <$> popParameters this (counted numberOfParameters) IteratedList.constructList

def call : Exec ℕ := do
  let name ← onSource this readString
  let numberOfParameters ← onSource this fgetc
  let paramsList ← paramsList this numberOfParameters
  let w ← get
  let component ← newComponent name (getFilePath w.directory (getSourceFile name)) paramsList
  modify fun w => { w with started := component :: w.started }
  let pointer ← alloc (.component component)
  let newObject ← construct typeComponent (some pointer)
  pushData this (some newObject)
  modifySelf this fun c =>
    { c with waitComponents := some ((c.waitComponents.getD Stack.constructor).push (some newObject)) }
  return component

/-- The next of the actual parameters. -/
def nextParameter : Exec (Option ℕ) := do
  let c ← self this
  let parameters ← follow c.parameters
  let (value, parameters) ← follow parameters.getNextElement
  modifySelf this ({ · with parameters := some parameters })
  return value

/-- The loop of `component_constructor` that compares the types and collects the names. -/
def readParameters : ℕ → IteratedList CString → Bool → Exec (IteratedList CString × Bool)
  | 0, readParams, thisConstructor => pure (readParams, thisConstructor)
  | parameters + 1, readParams, thisConstructor => do
    let nextParamType ← onSource this fgetc
    let nextParam ← nextParameter this
    let (type, _) ← typedObject nextParam
    let name ← onSource this readString
    if nextParamType = some type then
      let readParams ← follow (readParams.insertElementAtTail (some name))
      readParameters parameters readParams thisConstructor
    else readParameters parameters readParams false

/-- The loop of `component_constructor` that binds the parameters. -/
def bindParameters : ℕ → IteratedList CString → Exec Unit
  | 0, _ => pure ()
  | parameters + 1, readParams => do
    let (name, readParams) ← follow readParams.getNextElement
    let name ← follow name
    declareVariable this name
    let value ← nextParameter this
    let _ ← onScopes this (·.store name value)
    bindParameters parameters readParams

/-- `IteratedList_rewind(this->parameters)` -/
def rewindParameters : Exec Unit :=
  modifySelf this fun c => { c with parameters := c.parameters.map IteratedList.rewind }

def givenParameters : Exec ℕ := do
  let c ← self this
  match c.parameters with
  | none => return 0
  | some parameters => follow parameters.getListLength

/-- The comparison of a constructor with the actual parameters; the names that were read. -/
def matchConstructor (paramsToRead : Option UInt8) (given : ℕ) :
    Exec (IteratedList CString × Bool) := do
  if paramsToRead.map UInt8.toNat = some given then
    readParameters this given IteratedList.constructList true
  else
    onSource this (times (counted paramsToRead) readField)
    return (IteratedList.constructList, false)

/-- What happens once the constructor is known to match. -/
def runConstructor (parameters : ℕ) (readParams : IteratedList CString) : Exec Unit := do
  rewindParameters this
  bindParameters this parameters readParams.rewind
  modifySelf this ({ · with parameters := none, running := true })

/-- A component that is already running skips the constructor before it goes on to read one. -/
def skipConstructor : Exec Unit := do
  let c ← self this
  if c.running = true then
    let _ ← onSource this (skipToNext c.inProject Opcode.blockEnd.byte)
    let _ ← onSource this fgetc
  else pure ()

/-- `component_constructor`, which calls itself after each constructor that does not match. -/
def constructorWithin : ℕ → Exec Unit
  | 0 => throw .endless
  | rounds + 1 => do
    skipConstructor this
    let given ← givenParameters this
    let paramsToRead ← onSource this fgetc
    let (readParams, thisConstructor) ← matchConstructor this paramsToRead given
    if thisConstructor = true then runConstructor this (counted paramsToRead) readParams
    else
      rewindParameters this
      let c ← self this
      let nextByte ← onSource this (skipToNext c.inProject Opcode.constructor.byte)
      if nextByte = some Opcode.constructor.byte then constructorWithin rounds
      else fatal "Constructor not found!"

def constructor : Exec Unit := do
  let w ← get
  constructorWithin this (w.source this).rounds

end Component

end InsenseCVM
