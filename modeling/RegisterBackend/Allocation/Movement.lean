import RegisterBackend.Allocation.Eviction

/-!
Moving values between registers and memory. Integers read from memory are brought into canonical
form at once, so a register always holds all 64 bits of its value.
-/
namespace RegisterBackend

namespace Gen

/-- Brings an integer register into the canonical form of a type narrower than a word. -/
def canonicalize (r : Register) (ty : Ty) : Gen Unit := do
  if r.bank = .int ∧ 0 < ty.size ∧ ty.size < 8 then
    if ty.isSigned then emit (.signExtend r ty.size.toUInt8)
    else emit (.mask r ty.size.toUInt8)

/-- Rounds a float register, which holds a double, to a type of single precision. -/
def narrowFloat (r : Register) (ty : Ty) : Gen Unit := do
  if r.bank = .float ∧ ty.isFloat ∧ ty.size = 4 then emit (.floatNarrow r)

def load (dst : Register) (source : Position) (ty : Ty) : Gen Unit := do
  let size := ty.size.toUInt8
  match source with
  | .register src => if src ≠ dst then emit (.mov dst src)
  | .stack slot =>
    emit (.loadStack dst slot size)
    canonicalize dst ty
  | .static _ | .constant _ =>
    holding dst do
      let ptr ← obtainRegister .int
      loadAddress ptr source
      emit (.loadPtr dst ptr size)
    canonicalize dst ty

def holderOf (bits : Word) : List (Register × ValueId) → Gen (Option (Register × ValueId))
  | [] => return none
  | (r, v) :: rest => do
    if (← valueOf v).constant? = some bits then return some (r, v)
    holderOf bits rest

/-- Puts constant bits into a register, from a register that holds them if there is one. -/
def loadConstant (dst : Register) (bits : Word) : Gen Unit := do
  match ← holderOf bits ((← get).registers.occupied dst.bank) with
  | some (r, v) =>
    touch v
    if r ≠ dst then emit (.mov dst r)
  | none => emit (.movImm dst (.value bits))

/-- Puts a copy of `v` into a register and changes no ownership. -/
def loadValue (dst : Register) (v : ValueId) : Gen Unit := do
  let value ← valueOf v
  match value.constant? with
  | some bits => loadConstant dst bits
  | none =>
    match value.position with
    | some (.register src) => if src ≠ dst then emit (.mov dst src)
    | some position =>
      if !value.ty.fitsRegister then inconsistent (.tooWide v value.description value.ty dst)
      load dst position value.ty
    | none => inconsistent (.noLocation v value.description)
    touch v

def copyMemory (target source : Position) (ty : Ty) : Gen Unit := do
  if target.isRegister || source.isRegister then inconsistent (.registerCopy source target)
  let size := BitVec.ofNat 64 ty.size
  match target, source with
  | .stack dst, .stack src => emit (.copyStack dst src size)
  | _, _ =>
    if ty.fitsRegister && !target.sameKind source then
      let r ← obtainRegister ty.bank
      holding r do
        load r source ty
        store r target ty
    else
      let dst ← obtainRegister .int
      holding dst do
        loadAddress dst target
        let src ← obtainRegister .int
        holding src do
          loadAddress src source
          emit (.copyMem dst src size)

/-- The register of `v`, loading and binding it if need be; takes one use. -/
def useInRegister (v : ValueId) : Gen Register := do
  let value ← valueOf v
  match value.register? with
  | some r =>
    touch v
    discard (consume v)
    return r
  | none =>
    let r ← obtainRegister value.ty.bank
    loadValue r v
    bindRegister r v
    discard (consume v)
    return r

def copyToRegister (v : ValueId) : Gen Register := do
  let value ← valueOf v
  holdingRegisterOf v do
    let r ← obtainRegister value.ty.bank
    loadValue r v
    return r

/-- A register with the contents of `v` that may be overwritten; takes one use. The last use
of an unnamed value gives away its own register. -/
def takeRegister (v : ValueId) : Gen Register := do
  let value ← valueOf v
  match value.register? with
  | some r =>
    if !value.isNamed && value.references == 1 then
      discard (consume v)
      discard (unbindRegister r)
      return r
    else copied
  | none => copied
where
  copied : Gen Register := do
    let r ← copyToRegister v
    discard (consume v)
    return r

/-- A place in memory with the current contents of `v`: the home of a named value, a slot
for any other. -/
def settle (v : ValueId) : Gen Position := do
  let value ← valueOf v
  if value.isNamed then
    let home ← homeOf v
    flush v
    return home
  if value.isConstant then inconsistent (.constantAddress v)
  match value.position with
  | some (.register r) =>
    spill v r
    match (← valueOf v).position with
    | some position => return position
    | none => inconsistent (.noLocation v value.description)
  | some position => return position
  | none => inconsistent (.noLocation v value.description)

def copyTo (v : ValueId) (target : Position) (ty : Ty) : Gen Unit := do
  match target with
  | .register dst => loadValue dst v
  | _ =>
    let value ← valueOf v
    match value.constant?, value.position with
    | some bits, _ =>
      let r ← obtainRegister value.ty.bank
      holding r do
        loadConstant r bits
        store r target ty
    | none, some (.register src) =>
      touch v
      store src target ty
    | none, some source => if source ≠ target then copyMemory target source ty
    | none, none => inconsistent (.noLocation v value.description)

def moveTo (v : ValueId) (target : Position) (ty : Ty) : Gen Unit := do
  copyTo v target ty
  discard (consume v)

def targetRegister (target : Position) (bank : Bank) : Gen Register :=
  match target with
  | .register dst => return dst
  | _ => obtainRegister bank

def copyAddress (v : ValueId) (target : Position) : Gen Unit := do
  let home ← settle v
  let r ← targetRegister target .int
  holding r do
    loadAddress r home
    store r target .u64

/-- Writes `v` to a place, converted to `ty`. Arrays become the address of their first
element, and scalars of one bank are fitted to the width and form of the new type. -/
def copyConverted (v : ValueId) (target : Position) (ty : Ty) : Gen Unit := do
  let source := (← valueOf v).ty
  if source.isArray && ty.isPointer then copyAddress v target
  else
    let scalar := source.isScalar && ty.isScalar
    if scalar && source.bank ≠ ty.bank then unsupported (.reinterpretation source ty)
    if !scalar && source.size ≠ ty.size then unsupported (.implicitConversion source ty)
    let toBool := ty.isBool && !source.isBool
    let retyped := scalar && ty.bank == .int && source.unqualified != ty.unqualified
    let sameWidth := source.size == ty.size
    if !toBool && (!scalar || (sameWidth && !(retyped && target.isRegister))) then
      copyTo v target ty
    else
      holdingRegisterOf v do
        let r ← targetRegister target ty.bank
        holding r do
          loadValue r v
          if toBool then
            emit (.cmpImm r 0 .ne)
          else if source.isFloat then
            -- A store of four bytes rounds by itself.
            if target.isRegister && ty.size < source.size then narrowFloat r ty
          else if ty.size < source.size || target.isRegister then
            canonicalize r ty
          store r target ty

end Gen

end RegisterBackend
