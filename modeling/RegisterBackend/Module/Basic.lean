import RegisterBackend.Allocation.Value
import RegisterBackend.Module.Typing
import RegisterBackend.Operation.Declaration
import RegisterBackend.Options
import RegisterBackend.Storage.Areas

/-!
A module under construction: its function declarations, static variables and read-only data.
-/
namespace RegisterBackend

structure Module where
  options : Options
  file : String
  values : ValueStore := .empty
  functions : Array Declaration := #[]
  frames : Frames := {}
  statics : StaticSegment := {}
  constants : ConstantPool := {}
  nextLabel : Nat := 0
  entry : Option FunctionId := none
  diagnostics : Diagnostics
  deriving Inhabited

namespace Module

def start (options : Options) (file : String) : Module :=
  { options, file, diagnostics := { escalate := options.escalateWarnings } }

def loc (m : Module) (line : Nat) : Location := ⟨m.file, line⟩

def function? (m : Module) (function : FunctionId) : Option Declaration :=
  m.functions[function.index]?

def lookup? (m : Module) (name : String) : Option FunctionId :=
  (m.functions.findIdx? (·.name == name)).map FunctionId.mk

/-- A step of construction. One that fails keeps what it changed before. -/
abbrev Action := ExceptT Fault (StateM Module)

def reject {α : Type} (loc : Location) (cause : Rejection) : Action α :=
  throw (.failed (.rejected loc cause))

def declarationOf (function : FunctionId) : Action Declaration := do
  match (← get).function? function with
  | some decl => return decl
  | none => throw (.failed (.inconsistent (.unknownFunction function)))

def newLabel : Action LabelId :=
  modifyGet fun m => (⟨m.nextLabel⟩, { m with nextLabel := m.nextLabel + 1 })

def addValue (add : ValueStore → ValueId × ValueStore) : Action ValueId :=
  modifyGet fun m =>
    let (v, values) := add m.values
    (v, { m with values })

def updateValue (v : ValueId) (f : Value → Value) : Action Unit :=
  modify fun m => { m with values := m.values.modify v f }

def markInitialized (v : ValueId) : Action Unit := updateValue v ({ · with initialized := true })

/-- Gives a named value its home, where it is from then on. -/
def settle (v : ValueId) (home : Position) : Action Unit := do
  match (← get).values.get? v |>.bind Value.named? with
  | none => pure ()
  | some named =>
    match named.setHome home with
    | .ok named => updateValue v (·.mapNamed fun _ => named)
    | .error cause => throw (.failed (.inconsistent cause))
  updateValue v ({ · with position := some home })

def addHomed (ty : Ty) (name : String) (storage : StorageClass) (home : Position) :
    Action ValueId := do
  let v ← addValue (·.addNamed ty name storage)
  settle v home
  markInitialized v
  return v

/-- Registers of each bank that the arguments of a host function may take. -/
def maxExternalArguments : Nat := 12

/-- Why the host cannot provide a function of the signature. -/
def externalProblem? (name : String) (signature : Signature) : Option Rejection :=
  let classes := signature.params.map PassingClass.ofTy
  match signature.params.find? fun ty => PassingClass.ofTy ty = .memory with
  | some ty => some (.externalParameter name ty)
  | none =>
    if maxExternalArguments < classes.count .integer
        || maxExternalArguments < classes.count .float then
      some (.externalArguments name)
    else if signature.returnsValue && PassingClass.ofTy signature.result = .memory then
      some (.externalResult name signature.result)
    else none

def declarationProblem? (m : Module) (name : String) (signature : Signature)
    (linkage : Linkage) : Option Rejection :=
  if (m.lookup? name).isSome then some (.alreadyDeclared name)
  else
    match signature.params.find? fun ty => !ty.isStorable with
    | some ty => some (.parameterType name ty)
    | none =>
      if signature.result.isFunction || signature.result.isArray then
        some (.resultType name signature.result)
      else
        match linkage with
        | .internal => none
        | .external _ => externalProblem? name signature

/-- A function of this module gets a frame that starts with its header and arguments. -/
def startFrame (layout : CallLayout) : Linkage → Action (Option FrameId)
  | .internal =>
    modifyGet fun m =>
      let (frame, frames) := m.frames.start layout.argumentsEnd
      (some frame, { m with frames })
  | .external _ => return none

def declare (name : String) (signature : Signature) (linkage : Linkage) (line : Nat) :
    Action FunctionId := do
  let loc := (← get).loc line
  match (← get).declarationProblem? name signature linkage with
  | some cause => reject loc cause
  | none =>
    match CallLayout.ofSignature? signature with
    | none => throw .overflow
    | some layout =>
      let frame ← startFrame layout linkage
      let start ← newLabel
      let epilogue ← newLabel
      let decl : Declaration := { name, signature, linkage, loc, frame, start, epilogue }
      modifyGet fun m => (⟨m.functions.size⟩, { m with functions := m.functions.push decl })

def setEntry (function : FunctionId) (line : Nat) : Action Unit := do
  let loc := (← get).loc line
  let decl ← declarationOf function
  if decl.isExternal then reject loc (.externalEntry decl.name)
  if !decl.signature.params.isEmpty then reject loc (.entryParameters decl.name)
  modify fun m => { m with entry := some function }

def addStatic (name : String) (ty : Ty) (loc : Location) : Action ValueId := do
  if !ty.isStorable then reject loc (.staticType name ty)
  match (← get).statics.allocate ty.size ty.align with
  | none => throw .overflow
  | some (offset, statics) =>
    modify fun m => { m with statics }
    addHomed ty name .static (.static offset)

def declareStatic (name : String) (ty : Ty) (line : Nat) : Action ValueId := do
  addStatic name ty ((← get).loc line)

/-- Bytes filled up with zeros to whole words, at least one. -/
def paddedBlob (bytes : List UInt8) : List UInt8 :=
  bytes ++ List.replicate (alignUp (max bytes.length 1) wordSize - bytes.length) 0

def addData (element : Ty) (bytes : List UInt8) (loc : Location) : Action ValueId := do
  if element.size = 0 ∨ bytes.length % element.size ≠ 0 then
    reject loc (.dataShape bytes.length element)
  let ty := Ty.array element.constant (bytes.length / element.size)
  let id ← modifyGet fun m =>
    let (id, constants) := m.constants.add (paddedBlob bytes)
    (id, { m with constants })
  addHomed ty "data" .readOnly (.constant id)

def warn (loc : Location) (cause : Caution) : Action Unit := do
  match (← get).diagnostics.warn loc cause with
  | .error e => throw (.failed e)
  | .ok diagnostics => modify ({ · with diagnostics })

end Module

end RegisterBackend
