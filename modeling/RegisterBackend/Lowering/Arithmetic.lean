import RegisterBackend.Lowering.Variables

/-!
Rules for operators and conversions. The result is computed in a register that may be overwritten:
the left operand's own at its last use, a copy otherwise, or the variable's when it is updated in
place.
-/
namespace RegisterBackend

namespace Gen

def resultRegister (lhs : ValueId) (inPlace : Bool) : Gen Register :=
  if inPlace then variableRegister lhs else takeRegister lhs

def finishResult (r : Register) (lhs result : ValueId) (inPlace : Bool) : Gen Unit :=
  if inPlace then markDirty lhs else bindRegister r result

def lowerFloatBinary (op : BinaryOp) (lhs rhs result : ValueId) (inPlace : Bool) : Gen Unit := do
  match op.floatOp? with
  | none => inconsistent (.floatOperator op)
  | some floatOp =>
    let dst ← resultRegister lhs inPlace
    holding dst do
      let src ← useInRegister rhs
      emit (.floatAlu floatOp dst src)
      narrowFloat dst (← valueOf result).ty
    finishResult dst lhs result inPlace

/-- The bytes that a step of one means for a pointer, and one for any other type. -/
def stepSize (ty : Ty) : Nat :=
  match ty.pointee? with
  | some pointee => max pointee.size 1
  | none => 1

def measureStep (ty : Ty) : Gen Nat :=
  if ty.pointee?.all Ty.isMeasurable then return stepSize ty else throw .overflow

/-- Applies the operator with the right operand as an immediate or in a register. For
pointers an integer operand counts steps of `scale` bytes. -/
def applyRight (op : AluOp) (dst : Register) (rhs : ValueId) (scale : Nat) (difference : Bool) :
    Gen Unit := do
  match (← valueOf rhs).constant? with
  | some bits =>
    discard (consume rhs)
    let imm := if difference then bits else bits * BitVec.ofNat 64 scale
    emit (.aluImm op dst (.value imm))
  | none =>
    if 1 < scale ∧ !difference then
      let src ← takeRegister rhs
      emit (.aluImm .mul src (.value (BitVec.ofNat 64 scale)))
      emit (.alu op dst src)
    else
      let src ← useInRegister rhs
      emit (.alu op dst src)

/-- The operator on operands in order, a pointer before an integer. -/
def lowerOrdered (op : BinaryOp) (lhs rhs result : ValueId) (lhsTy rhsTy resultTy : Ty)
    (inPlace : Bool) : Gen Unit := do
  let difference := lhsTy.isPointer && rhsTy.isPointer
  let scale ← measureStep lhsTy
  let swap := !inPlace && scale == 1 && op.isCommutative
    && (← valueOf lhs).isConstant && !(← valueOf rhs).isConstant
  let (lhs, rhs) := if swap then (rhs, lhs) else (lhs, rhs)
  let dst ← resultRegister lhs inPlace
  holding dst do
    applyRight (op.aluOp resultTy.isSigned) dst rhs scale difference
    if difference && 1 < scale then
      emit (.aluImm .divS dst (.value (BitVec.ofNat 64 scale)))
    canonicalize dst resultTy
  finishResult dst lhs result inPlace

def lowerIntBinary (op : BinaryOp) (lhs rhs result : ValueId) (inPlace : Bool) : Gen Unit := do
  let resultTy := (← valueOf result).ty
  let lhsTy := (← valueOf lhs).ty
  let rhsTy := (← valueOf rhs).ty
  -- An integer plus a pointer is the pointer plus the integer.
  if !inPlace && rhsTy.isPointer && !lhsTy.isPointer then
    lowerOrdered op rhs lhs result rhsTy lhsTy resultTy inPlace
  else lowerOrdered op lhs rhs result lhsTy rhsTy resultTy inPlace

def lowerBinary (op : BinaryOp) (lhs rhs result : ValueId) (inPlace : Bool) : Gen Unit := do
  let lhsTy := (← valueOf lhs).ty
  discard (valueOf rhs)
  discard (valueOf result)
  if lhsTy.isFloat then lowerFloatBinary op lhs rhs result inPlace
  else lowerIntBinary op lhs rhs result inPlace

def lowerFloatCompare (op : CompareOp) (lhs rhs result : ValueId) : Gen Unit := do
  let a ← useInRegister lhs
  holding a do
    let b ← useInRegister rhs
    holding b do
      let dst ← obtainRegister .int
      emit (.floatCmp dst a b (op.cond true))
      bindRegister dst result

/-- A constant left operand changes sides with the right one. -/
def lowerIntCompare (op : CompareOp) (lhs rhs result : ValueId) (signed : Bool) : Gen Unit := do
  let swap ←
    if (← valueOf lhs).isConstant then pure !(← valueOf rhs).isConstant else pure false
  let cond := op.cond signed
  let (lhs, rhs, cond) := if swap then (rhs, lhs, cond.swapped) else (lhs, rhs, cond)
  let dst ← takeRegister lhs
  holding dst do
    match (← valueOf rhs).constant? with
    | some bits =>
      discard (consume rhs)
      emit (.cmpImm dst bits cond)
    | none =>
      let src ← useInRegister rhs
      emit (.cmp dst src cond)
    bindRegister dst result

def lowerCompare (op : CompareOp) (lhs rhs result : ValueId) : Gen Unit := do
  let lhsTy := (← valueOf lhs).ty
  if lhsTy.isFloat then lowerFloatCompare op lhs rhs result
  else lowerIntCompare op lhs rhs result lhsTy.isSigned

def compareWithZero (src : Register) (cond : Cond) (dst : Register) : Gen Unit := do
  let zero ← obtainRegister .float
  loadConstant zero 0
  emit (.floatCmp dst src zero cond)

def lowerUnary (op : UnaryOp) (operand result : ValueId) : Gen Unit := do
  let ty := (← valueOf operand).ty
  let resultTy := (← valueOf result).ty
  match op, ty.isFloat with
  | .logicalNot, true =>
    let src ← useInRegister operand
    holding src do
      let zero ← obtainRegister .float
      holding zero do
        loadConstant zero 0
        let dst ← obtainRegister .int
        emit (.floatCmp dst src zero .eq)
        bindRegister dst result
  | .logicalNot, false =>
    let dst ← takeRegister operand
    emit (.cmpImm dst 0 .eq)
    bindRegister dst result
  | .neg, true =>
    let dst ← takeRegister operand
    emit (.floatNeg dst)
    canonicalize dst resultTy
    bindRegister dst result
  | .neg, false =>
    let dst ← takeRegister operand
    emit (.neg dst)
    canonicalize dst resultTy
    bindRegister dst result
  | .bitNot, _ =>
    let dst ← takeRegister operand
    emit (.not dst)
    canonicalize dst resultTy
    bindRegister dst result

def convertInt (value result : ValueId) (source target : Ty) : Gen Unit := do
  let dst ← takeRegister value
  if target.isBool && !source.isBool then
    emit (.cmpImm dst 0 .ne)
  else if target.size < source.size || target.isSigned != source.isSigned then
    canonicalize dst target
  bindRegister dst result

def convertIntToFloat (value result : ValueId) (source target : Ty) : Gen Unit := do
  let src ← useInRegister value
  holding src do
    let dst ← obtainRegister .float
    emit (.intToFloat dst src source.isSigned)
    narrowFloat dst target
    bindRegister dst result

def convertFloatToInt (value result : ValueId) (target : Ty) : Gen Unit := do
  let src ← useInRegister value
  holding src do
    let dst ← obtainRegister .int
    if target.isBool then
      compareWithZero src .ne dst
    else
      emit (.floatToInt dst src target.isSigned)
      canonicalize dst target
    bindRegister dst result

def convertFloat (value result : ValueId) (source target : Ty) : Gen Unit := do
  let dst ← takeRegister value
  if target.size < source.size then narrowFloat dst target
  bindRegister dst result

def lowerConvert (value result : ValueId) : Gen Unit := do
  let source := (← valueOf value).ty
  let target := (← valueOf result).ty
  if (source.isFloat && target.isPointer) || (source.isPointer && target.isFloat)
      || !source.isScalar || !target.isScalar then
    unsupported (.conversion source target)
  match source.isFloat, target.isFloat with
  | false, false => convertInt value result source target
  | false, true => convertIntToFloat value result source target
  | true, false => convertFloatToInt value result target
  | true, true => convertFloat value result source target

end Gen

end RegisterBackend
