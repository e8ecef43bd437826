import RegisterBackend.Lowering.Variables

/-!
Rules for addresses: taking one, and reading and writing through one.
-/
namespace RegisterBackend

namespace Gen

/-- The operand is put into memory for good; a variable counts as escaped from now on. -/
def lowerAddressOf (value result : ValueId) : Gen Unit := do
  updateValue value (·.setEscaped true)
  let position ← settle value
  discard (consume value)
  let dst ← obtainRegister .int
  loadAddress dst position
  bindRegister dst result

/-- Copies `count` words from the pointer to consecutive slots; the pointer moves along. -/
def copyWords (ptr chunk : Register) (slot : StackSlot) : (count : Nat) → (done : Nat) → Gen Unit
  | 0, _ => return
  | count + 1, done => do
    if 0 < done then emit (.aluImm .add ptr (.value 8))
    emit (.loadPtr chunk ptr 8)
    emit (.storeStack chunk (slot.advanced (done * wordSize)) 8)
    copyWords ptr chunk slot count (done + 1)

def lowerDereference (pointer result : ValueId) : Gen Unit := do
  let ty := (← valueOf result).ty
  if ty.fitsRegister then
    let ptr ← useInRegister pointer
    holding ptr do
      let dst ← obtainRegister ty.bank
      emit (.loadPtr dst ptr ty.size.toUInt8)
      canonicalize dst ty
      bindRegister dst result
  else
    let slot ← allocateSlot ty.size
    let ptr ← takeRegister pointer
    holding ptr do
      let chunk ← obtainRegister .int
      copyWords ptr chunk slot (alignUp ty.size wordSize / wordSize) 0
      setPosition result (some (.stack slot))

/-- The stored value in a register, in the form of the pointee. -/
def storedRegister {α : Type} (value : ValueId) (valueTy pointee : Ty) (use : Register → Gen α) :
    Gen α := do
  if valueTy.unqualified = pointee.unqualified then
    use (← useInRegister value)
  else
    holdingRegisterOf value do
      let r ← obtainRegister pointee.bank
      holding r do
        copyConverted value (.register r) pointee
        discard (consume value)
        use r

def lowerStore (pointer value : ValueId) : Gen Unit := do
  let pointerTy := (← valueOf pointer).ty
  match pointerTy.pointee? with
  | none => inconsistent (.storeThrough pointerTy)
  | some pointee =>
    let valueTy := (← valueOf value).ty
    if pointee.fitsRegister then
      let ptr ← useInRegister pointer
      holding ptr do
        storedRegister value valueTy pointee fun src =>
          emit (.storePtr ptr src pointee.size.toUInt8)
    else
      let source ← settle value
      discard (consume value)
      let ptr ← useInRegister pointer
      holding ptr do
        let src ← obtainRegister .int
        loadAddress src source
        emit (.copyMem ptr src (BitVec.ofNat 64 pointee.size))

def lowerMember (pointer : ValueId) (offset : Nat) (result : ValueId) : Gen Unit := do
  let dst ← takeRegister pointer
  if offset ≠ 0 then emit (.aluImm .add dst (.value (BitVec.ofNat 64 offset)))
  bindRegister dst result

def lowerFunctionAddress (start : LabelId) (result : ValueId) : Gen Unit := do
  let dst ← obtainRegister .int
  emit (.runtimeParam dst .codeBase)
  emit (.aluImm .add dst (.labelAddress start))
  bindRegister dst result

end Gen

end RegisterBackend
