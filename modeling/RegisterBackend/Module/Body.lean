import RegisterBackend.Module.Basic
import RegisterBackend.Number.Shortest

/-!
Building the body of a function. Every step checks its operands and counts a use of each it records.
-/
namespace RegisterBackend

structure BodyBuilder where
  context : Module
  function : FunctionId
  decl : Declaration
  items : Array BodyItem := #[]
  loc : Location
  placed : List LabelId := []
  /-- Labels that are jumped to, each with the line of the jump. -/
  used : Array (LabelId × Location) := #[]
  deriving Inhabited

namespace Module

/-- The values of the parameters. Those passed on the stack live where they are passed. -/
def addParameters (frame : FrameId) : List (String × Ty × ArgumentPlace) → Action (List ValueId)
  | [] => return []
  | (name, ty, place) :: rest => do
    let v ← addValue (·.addNamed ty name .auto)
    markInitialized v
    match place with
    | .stack offset => settle v (.stack (.inFrame frame offset))
    | .register _ => pure ()
    return v :: (← addParameters frame rest)

/-- The value that holds the address of the caller's buffer, if the result goes there. -/
def addReturnPointer (frame : FrameId) (signature : Signature) : Action (Option ValueId) :=
  match (CallLayout.ofSignature signature).result with
  | .memory =>
    let home := Position.stack (.inFrame frame Convention.returnPointerOffset)
    some <$> addHomed (.pointer signature.result) "return buffer" .auto home
  | _ => return none

def define (function : FunctionId) (names : List String) (line : Nat) : Action BodyBuilder := do
  let loc := (← get).loc line
  let decl ← declarationOf function
  let declared := decl.signature.params.length
  match decl.frame with
  | none => reject loc (.externalBody decl.name)
  | some frame =>
    if decl.isDefined then reject loc (.alreadyDefined decl.name)
    if names.length ≠ declared then
      reject loc (.parameterNames decl.name declared names.length)
    let places := decl.signature.params.zip decl.layout.arguments
    let params ← addParameters frame (names.zip places)
    let returnPointer ← addReturnPointer frame decl.signature
    let decl := { decl with params, returnPointer }
    modify fun m => { m with functions := m.functions.setIfInBounds function.index decl }
    return { context := ← get, function, decl, loc }

end Module

abbrev Build := ExceptT Fault (StateM BodyBuilder)

namespace Build

def reject {α : Type} (cause : Rejection) : Build α := do
  throw (.failed (.rejected (← get).loc cause))

def check {α : Type} : Except Rejection α → Build α
  | .ok a => return a
  | .error cause => reject cause

def inModule {α : Type} (step : Module.Action α) : Build α := fun b =>
  let (result, context) := step.run b.context
  (result, { b with context })

def addValue (add : ValueStore → ValueId × ValueStore) : Build ValueId :=
  inModule (Module.addValue add)

def updateValue (v : ValueId) (f : Value → Value) : Build Unit := inModule (Module.updateValue v f)

def push (operation : Operation) : Build Unit :=
  modify fun b =>
    { b with
      context.values := operation.operands.foldl ValueStore.noteUse b.context.values
      items := b.items.push ⟨operation, b.loc⟩ }

def valueOf (v : ValueId) : Build Value := do
  match (← get).context.values.get? v with
  | some value => return value
  | none => throw (.failed (.inconsistent (.unknownValue v)))

def read (v : ValueId) : Build Value := do
  let value ← valueOf v
  if !value.initialized then reject (.uninitialized value.description)
  return value

/-- Warns if using `value` as a `target` is doubtful. The value counts as having the type
`source`. -/
def checkUse (value : Value) (source target : Ty) (usage : Usage) : Build Unit := do
  match source.caution? target value.constant? usage with
  | none => return
  | some cause =>
    let loc := (← get).loc
    inModule (Module.warn loc cause)

def setLine (line : Nat) : Build Unit :=
  modify fun b => { b with loc := b.context.loc line }

def param (index : Nat) : Build ValueId := do
  match (← get).decl.params[index]? with
  | some v => return v
  | none => reject (.noParameter index)

def constant (ty : Ty) (bits : Word) : Build ValueId := do
  if !(ty.isInteger || ty.isPointer) then reject (.integerConstant ty bits.toInt)
  addValue (·.addConstant ty (ty.canonicalBits bits) (toString bits.toInt))

/-- A float known in advance, rounded to single precision if that is what the type holds. -/
def floatConstant (ty : Ty) (bits : Word) : Build ValueId := do
  if !ty.isFloat then reject (.floatConstant ty (Double.ofBits bits).text)
  let bits := if ty.size = 4 then Double.roundToSingle bits else bits
  addValue (·.addConstant ty bits (Double.ofBits bits).text)

def newVariable (ty : Ty) (name : String) : Build ValueId := do
  if !ty.isStorable then reject (.variableType name ty)
  addValue (·.addNamed ty name .auto)

def staticVariable (ty : Ty) (name : String) : Build ValueId := do
  let loc := (← get).loc
  inModule (Module.addStatic name ty loc)

def data (element : Ty) (bytes : List UInt8) : Build ValueId := do
  let loc := (← get).loc
  inModule (Module.addData element bytes loc)

def temporary (ty : Ty) (description : String) : Build ValueId :=
  addValue (·.addTemporary ty description)

/-- The type of a binary operation. A pointer moves by elements, which have to be measured. -/
def resultType (op : BinaryOp) (left right : Value) : Build Ty := do
  let ty ← check (op.result left.ty right.ty right.constant?)
  if !(left.ty.pointee?.all Ty.isMeasurable && right.ty.pointee?.all Ty.isMeasurable) then
    throw .overflow
  return ty

def binary (op : BinaryOp) (lhs rhs : ValueId) : Build ValueId := do
  let left ← read lhs
  let right ← read rhs
  let ty ← resultType op left right
  let result ← temporary ty op.mnemonic
  let swap := right.ty.isPointer && !left.ty.isPointer
  push (.binary op (if swap then rhs else lhs) (if swap then lhs else rhs) result false)
  return result

def update (op : BinaryOp) (target rhs : ValueId) : Build Unit := do
  let old ← read target
  let right ← read rhs
  match old.named? with
  | none => reject .updateTarget
  | some named =>
    if old.ty.isConst || named.storage = .readOnly then reject (.constantTarget named.name)
    if right.ty.isPointer && !old.ty.isPointer then
      reject (.pointerUpdate right.ty named.name old.ty)
    let ty ← resultType op old right
    checkUse right ty old.ty (.update named.name)
    push (.binary op target rhs target true)

def compare (op : CompareOp) (lhs rhs : ValueId) : Build ValueId := do
  let left ← read lhs
  let right ← read rhs
  if !left.ty.comparable right.ty then reject (.comparison left.ty right.ty)
  checkUse right right.ty left.ty .comparison
  let result ← temporary .bool op.mnemonic
  push (.compare op lhs rhs result)
  return result

def unary (op : UnaryOp) (operand : ValueId) : Build ValueId := do
  let value ← read operand
  let ty ← check (op.result value.ty)
  let result ← temporary ty op.mnemonic
  push (.unary op operand result)
  return result

def convert (v : ValueId) (ty : Ty) : Build ValueId := do
  let value ← read v
  if !value.ty.isScalar || !ty.isScalar then reject (.conversion value.ty ty)
  let result ← temporary ty.unqualified "convert"
  push (.convert v result)
  return result

def assign (target v : ValueId) : Build Unit := do
  let old ← valueOf target
  let value ← read v
  match old.named? with
  | none => reject .assignmentTarget
  | some named =>
    if named.storage = .readOnly || (old.ty.isConst && old.initialized) then
      reject (.constantTarget named.name)
    if !value.ty.assignable old.ty then reject (.assignment value.ty named.name old.ty)
    checkUse value value.ty old.ty (.assignment named.name)
    push (.assign target v)
    updateValue target ({ · with initialized := true })

def checkArguments (callee : String) (number : Nat) : List (ValueId × Ty) → Build Unit
  | [] => return
  | (argument, ty) :: rest => do
    let value ← read argument
    if !value.ty.assignable ty then reject (.argumentType number callee value.ty ty)
    checkUse value value.ty ty (.argument number callee)
    checkArguments callee (number + 1) rest

/-- Records a call that fits the signature; a result is described by `description`. -/
def pushCall (callee : Callee) (name description : String) (signature : Signature)
    (arguments : List ValueId) : Build (Option ValueId) := do
  if arguments.length ≠ signature.params.length then
    reject (.argumentCount name signature.params.length arguments.length)
  checkArguments name 1 (arguments.zip signature.params)
  if signature.returnsValue then
    let result ← temporary signature.result.unqualified description
    push (.call callee arguments (some result))
    return some result
  else
    push (.call callee arguments none)
    return none

def declarationOf (function : FunctionId) : Build Declaration :=
  inModule (Module.declarationOf function)

def call (function : FunctionId) (arguments : List ValueId) : Build (Option ValueId) := do
  let decl ← declarationOf function
  pushCall (.direct function) decl.name decl.name decl.signature arguments

def callIndirect (pointer : ValueId) (arguments : List ValueId) : Build (Option ValueId) := do
  let ty := (← read pointer).ty
  if ty.isFunction then throw (.failed (.unsupported (.functionValueCall ty)))
  match ty.signature? with
  | some signature =>
    pushCall (.indirect pointer) "function pointer" "indirect call" signature arguments
  | none => reject (.notCallable ty)

/-- The address of a variable or temporary, which may be written through it. -/
def addressOf (v : ValueId) : Build ValueId := do
  let value ← valueOf v
  if value.isConstant then reject (.constantAddress value.description)
  if !value.isNamed && !value.initialized then reject .temporaryAddress
  updateValue v ({ · with initialized := true })
  let result ← addValue (·.addReference (.pointer value.ty) ("&" ++ value.description))
  push (.addressOf v result)
  return result

def accessible? (ty : Ty) : Option Ty := ty.pointee?.filter Ty.isStorable

def dereference (pointer : ValueId) : Build ValueId := do
  let ty := (← read pointer).ty
  match accessible? ty with
  | none => reject (.dereference ty)
  | some pointee =>
    let result ← temporary pointee "deref"
    push (.dereference pointer result)
    return result

def store (pointer v : ValueId) : Build Unit := do
  let ty := (← read pointer).ty
  let value ← read v
  match accessible? ty with
  | none => reject (.storeTarget ty)
  | some pointee =>
    if pointee.isConst then reject (.storeTarget ty)
    if !value.ty.assignable pointee then reject (.storeValue value.ty ty)
    checkUse value value.ty pointee .store
    push (.store pointer v)

def member (pointer : ValueId) (field : String) : Build ValueId := do
  let ty := (← read pointer).ty
  let pointee := ty.pointee?.getD .void
  match pointee.layout? with
  | none => reject (.notStruct ty)
  | some layout =>
    match layout.field? field with
    | none => reject (.noField layout.name field)
    | some found =>
      let fieldTy := if pointee.isConst then found.ty.constant else found.ty
      let result ← temporary (.pointer fieldTy) field
      push (.member pointer found.offset result)
      return result

def functionAddress (function : FunctionId) : Build ValueId := do
  let decl ← declarationOf function
  if decl.isExternal then reject (.externalAddress decl.name)
  let result ← temporary (.pointer decl.signature.toTy) decl.name
  push (.functionAddress function result)
  return result

def newLabel : Build LabelId := inModule Module.newLabel

def placeLabel (label : LabelId) : Build Unit := do
  if label ∈ (← get).placed then reject (.labelTwice label)
  modify fun b => { b with placed := label :: b.placed }
  push (.label label)

def useLabel (label : LabelId) : Build Unit :=
  modify fun b => { b with used := b.used.push (label, b.loc) }

def jump (label : LabelId) : Build Unit := do
  useLabel label
  push (.jump label)

/-- Jumps if the condition is non-zero exactly when `jumpIf`. With `spillAll` every register
is emptied first. -/
def branch (cond : ValueId) (target : LabelId) (jumpIf spillAll : Bool) : Build Unit := do
  let ty := (← read cond).ty
  if !(ty.isInteger || ty.isPointer) then reject (.branchCondition ty)
  useLabel target
  push (.branch cond target jumpIf spillAll)

def ret (v : Option ValueId) : Build Unit := do
  let decl := (← get).decl
  let result := decl.signature.result
  match v with
  | none => if !result.isVoid then reject (.missingResult decl.name result)
  | some v =>
    if result.isVoid then reject (.voidResult decl.name)
    let value ← read v
    if !value.ty.assignable result then reject (.resultValue decl.name result value.ty)
    checkUse value value.ty result (.result decl.name)
  push (.ret v)

def comment (text : String) : Build Unit := push (.comment text)

/-- Completes the body. Every label that is jumped to must have been placed. -/
def finish : Build Unit := do
  let b ← get
  match b.used.find? fun (label, _) => label ∉ b.placed with
  | some (label, loc) => throw (.failed (.rejected loc (.labelMissing label)))
  | none =>
    let decl := { b.decl with body := some b.items.toList }
    let functions := b.context.functions.setIfInBounds b.function.index decl
    set { b with context.functions := functions }

end Build

end RegisterBackend
