import RegisterBackend.Allocation.Consistency
import RegisterBackend.Lowering.Arithmetic
import RegisterBackend.Lowering.Calls
import RegisterBackend.Lowering.Memory

/-!
Lowering whole functions and modules.
-/
namespace RegisterBackend

namespace Gen

def lowerOperation (functions : Array Declaration) (decl : Declaration) (isLast : Bool) :
    Operation → Gen Unit
  | .binary op lhs rhs result inPlace => lowerBinary op lhs rhs result inPlace
  | .compare op lhs rhs result => lowerCompare op lhs rhs result
  | .unary op operand result => lowerUnary op operand result
  | .convert value result => lowerConvert value result
  | .assign target value => lowerAssign target value
  | .call callee arguments result => lowerCall functions callee arguments result
  | .addressOf value result => lowerAddressOf value result
  | .dereference pointer result => lowerDereference pointer result
  | .store pointer value => lowerStore pointer value
  | .member pointer offset result => lowerMember pointer offset result
  | .functionAddress function result => do
    lowerFunctionAddress (← findFunction functions function).start result
  | .label target => lowerLabel target
  | .jump target => lowerJump target
  | .branch cond target jumpIf spillAll => lowerBranch cond target jumpIf spillAll
  | .ret value => lowerReturn decl value isLast
  | .comment text => comment text

def lowerItem (functions : Array Declaration) (decl : Declaration) (item : BodyItem)
    (isLast : Bool) : Gen Unit := do
  if !item.operation.isComment then comment item.operation.text
  setLocation item.loc
  lowerOperation functions decl isLast item.operation
  record (·.addOperation item.operation.kind)
  releaseEscaped
  if (← get).options.verify then checkConsistency

def lowerBody (functions : Array Declaration) (decl : Declaration) : List BodyItem → Gen Unit
  | [] => return
  | item :: rest => do
    lowerItem functions decl item rest.isEmpty
    lowerBody functions decl rest

/-- Parameters that came in registers start out there, not yet in memory. -/
def bindParameters : List (ValueId × ArgumentPlace) → Gen Unit
  | [] => return
  | (param, .register r) :: rest => do
    bindRegister r param
    markDirty param
    bindParameters rest
  | (_, .stack _) :: rest => bindParameters rest

def lowerPrologue (decl : Declaration) (frame : FrameId) : Gen Unit := do
  emit (.label decl.start)
  comment (decl.name ++ ": " ++ decl.signature.text)
  emit (.stackAdjust (.enter frame))
  bindParameters (decl.params.zip decl.layout.arguments)

def lowerEpilogue (decl : Declaration) (frame : FrameId) : Gen Unit := do
  emit (.label decl.epilogue)
  emit (.stackAdjust (.leave frame))
  emit .ret

def endsWithReturn (body : List BodyItem) : Bool :=
  match body.getLast? with
  | some item => item.operation.isReturn
  | none => false

def instructionCount : Gen Nat := return (← get).code.size

def lowerFunction (functions : Array Declaration) (decl : Declaration) : Gen (Nat × Nat) := do
  match decl.frame, decl.body with
  | none, _ => inconsistent (.functionWithoutFrame decl.name)
  | some _, none => inconsistent (.functionWithoutBody decl.name)
  | some frame, some body =>
    if let (r, v) :: _ := (← get).registers.allOccupied then
      inconsistent (.occupiedAtStart r v decl.name)
    let first ← instructionCount
    enterFrame frame
    lowerPrologue decl frame
    lowerBody functions decl body
    if !endsWithReturn body then retireRegisters
    lowerEpilogue decl frame
    leaveFrame
    let last ← instructionCount
    record (·.addFunction decl.name (last - first))
    return (first, last)

/-- The code that an image starts with: reserve the statics, call the entry function, halt. -/
def lowerEntry (functions : Array Declaration) : Option FunctionId → Gen Unit
  | none => return
  | some entry =>
    match functions[entry.index]? with
    | none => inconsistent (.entryUndeclared entry)
    | some decl => do
      emit (.stackAdjust .statics)
      emit (.call decl.start)
      emit .halt

def lowerFunctions (functions : Array Declaration) :
    List Declaration → Gen (List (Option (Nat × Nat)))
  | [] => return []
  | decl :: rest => do
    let range ← if decl.isExternal then pure none else some <$> lowerFunction functions decl
    return range :: (← lowerFunctions functions rest)

def lowerModule (functions : Array Declaration) (entry : Option FunctionId) :
    Gen (List (Option (Nat × Nat))) := do
  lowerEntry functions entry
  lowerFunctions functions functions.toList

end Gen

end RegisterBackend
