import RegisterBackend.Lowering.Flow
import RegisterBackend.Operation.Declaration

/-!
Rules for calls and returns. Before a call every register goes to memory, since the callee may use
any of them; arguments are placed last to first. A host function finds its arguments on the stack.
-/
namespace RegisterBackend

namespace Gen

/-- Places the arguments, given last to first, and continues while their registers are
locked. -/
def placeArguments {α : Type} (next : Gen α) : List (ValueId × ArgumentPlace × Ty) → Gen α
  | [] => next
  | (argument, .stack offset, ty) :: rest => do
    copyConverted argument (.stack (.outgoing offset)) ty
    discard (consume argument)
    placeArguments next rest
  | (argument, .register r, ty) :: rest => do
    copyConverted argument (.register r) ty
    holding r do
      discard (consume argument)
      placeArguments next rest

/-- A buffer in the caller's frame for a result returned in memory; its address goes into
the callee's header. -/
def reserveBuffer (signature : Signature) (layout : CallLayout) : Gen (Option StackSlot) := do
  match layout.result with
  | .memory =>
    let slot ← allocateSlot signature.result.size
    let r ← obtainRegister .int
    emit (.leaStack r slot)
    emit (.storeStack r (.outgoing Convention.returnPointerOffset) 8)
    return some slot
  | _ => return none

def emitCall (start : Option LabelId) (callee : Callee) : Gen Unit := do
  match callee, start with
  | .indirect pointer, _ =>
    let r ← copyToRegister pointer
    discard (consume pointer)
    emit (.callPtr r)
  | .direct _, some start => emit (.call start)
  | .direct function, none => inconsistent (.callUndeclared function)
  record .addCall

def bindResult (layout : CallLayout) (buffer : Option StackSlot) (result : ValueId) : Gen Unit := do
  match layout.result, buffer with
  | .register r, _ => bindRegister r result
  | .memory, some slot => setPosition result (some (.stack slot))
  | _, _ => inconsistent (.resultWithoutPlace result)

def lowerInternalCall (signature : Signature) (start : Option LabelId) (callee : Callee)
    (arguments : List ValueId) (result : Option ValueId) : Gen Unit := do
  let layout := CallLayout.ofSignature signature
  if arguments.length ≠ layout.arguments.length then
    inconsistent (.callArity arguments.length layout.arguments.length)
  vacateAll
  let buffer ← reserveBuffer signature layout
  let placed := arguments.zip (layout.arguments.zip signature.params)
  placeArguments (emitCall start callee) placed.reverse
  dropAll false
  match result with
  | none => return
  | some result => bindResult layout buffer result

def argumentTag (ty : Ty) : Word :=
  if ty.isPointer then 3 else if ty.isFloat then 2 else 1

/-- Loads the arguments of a host function and continues with their registers and tags, last
first, while the registers are locked. -/
def loadArguments {α : Type} (next : List (Register × Word) → Gen α) :
    List (ValueId × Ty) → (loaded : List (Register × Word)) → Gen α
  | [], loaded => next loaded
  | (argument, ty) :: rest, loaded =>
    holdingRegisterOf argument do
      let r ← obtainRegister ty.bank
      holding r do
        copyConverted argument (.register r) ty
        discard (consume argument)
        loadArguments next rest ((r, argumentTag ty) :: loaded)

def emitExternalCall (handle : Word) (floatResult : Bool) (dst : Register)
    (loaded : List (Register × Word)) : Gen Unit := do
  emit (.pushImm handle)
  emit (.pushImm (if floatResult then 1 else 0))
  emit (.pushImm 0)
  for (r, tag) in loaded do
    emit (.push r)
    emit (.pushImm tag)
  emit (.callExternal dst)
  record .addCall

def lowerExternalCall (decl : Declaration) (handle : Word) (arguments : List ValueId)
    (result : Option ValueId) : Gen Unit := do
  let params := decl.signature.params
  if arguments.length ≠ params.length then inconsistent (.externalArity decl.name)
  vacateAll
  let floatResult := decl.signature.result.isFloat
  let dst := if floatResult then Register.float 0 else Register.int 0
  loadArguments (emitExternalCall handle floatResult dst) (arguments.zip params) []
  dropAll false
  match result with
  | none => return
  | some result => bindRegister dst result

def findFunction (functions : Array Declaration) (function : FunctionId) : Gen Declaration :=
  match functions[function.index]? with
  | some decl => return decl
  | none => inconsistent (.callUndeclared function)

def lowerCall (functions : Array Declaration) (callee : Callee) (arguments : List ValueId)
    (result : Option ValueId) : Gen Unit := do
  match callee with
  | .direct function =>
    let decl ← findFunction functions function
    match decl.linkage with
    | .external handle => lowerExternalCall decl handle arguments result
    | .internal => lowerInternalCall decl.signature (some decl.start) callee arguments result
  | .indirect pointer =>
    let ty := (← valueOf pointer).ty
    match ty.signature? with
    | some signature =>
      if (CallLayout.ofSignature? signature).isNone then throw .overflow
      lowerInternalCall signature none callee arguments result
    | none => inconsistent (.indirectCall ty)

/-- Returns a value in a register, which stays locked while statics are written back. -/
def returnInRegister (v : ValueId) (r : Register) (ty : Ty) : Gen Unit := do
  if (← valueOf v).register? ≠ some r then displace r
  holding r do
    holdingRegisterOf v do
      copyConverted v (.register r) ty
      discard (consume v)
      retireRegisters

def returnInMemory (decl : Declaration) (v : ValueId) : Gen Unit := do
  match decl.returnPointer with
  | none => inconsistent (.noReturnPointer decl.name)
  | some pointer =>
    let source ← settle v
    discard (consume v)
    let dst ← copyToRegister pointer
    holding dst do
      let src ← obtainRegister .int
      holding src do
        loadAddress src source
        emit (.copyMem dst src (BitVec.ofNat 64 decl.signature.result.size))
        retireRegisters

def lowerReturn (decl : Declaration) (value : Option ValueId) (isLast : Bool) : Gen Unit := do
  match value, decl.layout.result with
  | none, _ => retireRegisters
  | some v, .register r => returnInRegister v r decl.signature.result
  | some v, .memory => returnInMemory decl v
  | some v, .void => inconsistent (.voidReturn v decl.name)
  if !isLast then emit (.jump decl.epilogue)

end Gen

end RegisterBackend
