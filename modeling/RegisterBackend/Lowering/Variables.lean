import RegisterBackend.Allocation.Movement

/-!
Rules for named variables. An assignment whose right side is a temporary at its last use hands over
the register; any other copies.
-/
namespace RegisterBackend

namespace Gen

def markDirty (v : ValueId) : Gen Unit := do
  updateValue v (·.setDirty true)
  touch v

def variableRegister (v : ValueId) : Gen Register := do
  let value ← valueOf v
  match value.register? with
  | some r =>
    touch v
    return r
  | none =>
    let r ← obtainRegister value.ty.bank
    loadValue r v
    bindRegister r v
    return r

/-- The target takes over the register of a temporary that nothing else needs. -/
def adopt (target value : ValueId) (r : Register) (targetTy sourceTy : Ty) : Gen Unit := do
  discard (consume value)
  discard (unbindRegister r)
  if let some old := (← valueOf target).register? then
    updateValue target (·.setDirty false)
    discard (unbindRegister old)
  if targetTy.isBool && !sourceTy.isBool then
    emit (.cmpImm r 0 .ne)
  else if sourceTy.unqualified ≠ targetTy.unqualified then
    canonicalize r targetTy
  bindRegister r target
  markDirty target

def assignInRegister (target value : ValueId) (targetTy : Ty) : Gen Unit := do
  holdingRegisterOf value do
    let existing := (← valueOf target).register?
    let r ← match existing with
      | some r => pure r
      | none => obtainRegister targetTy.bank
    holding r do
      copyConverted value (.register r) targetTy
      discard (consume value)
      if existing.isNone then bindRegister r target
  markDirty target

def assignInMemory (target value : ValueId) (targetTy : Ty) : Gen Unit := do
  let home ← homeOf target
  copyConverted value home targetTy
  discard (consume value)
  setPosition target (some home)
  touch target
  markLocation target

def lowerAssign (target value : ValueId) : Gen Unit := do
  let targetValue ← valueOf target
  match targetValue.named? with
  | none => inconsistent (.assignmentToUnnamed target)
  | some named =>
    let targetTy := targetValue.ty
    let source ← valueOf value
    let adoptable := source.isUnnamed && source.references == 1
      && source.ty.bank == targetTy.bank && source.ty.size == targetTy.size
      && targetTy.fitsRegister && !named.escaped
    match adoptable, source.register? with
    | true, some r => adopt target value r targetTy source.ty
    | _, _ =>
      if targetTy.fitsRegister then assignInRegister target value targetTy
      else assignInMemory target value targetTy

end Gen

end RegisterBackend
