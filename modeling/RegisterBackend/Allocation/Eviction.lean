import RegisterBackend.Allocation.State

/-!
Making room in registers. A dirty static needs a scratch pointer, which may evict again; that always
happens with one more register locked, so eviction ends.
-/
namespace RegisterBackend

namespace Value

/-- Nothing will read the value again; named values never die. -/
def isDead (v : Value) : Bool := !v.isNamed && v.references == 0

def isClean (v : Value) : Bool := v.isNamed && v.home?.isSome && !v.isDirty

/-- Emptying the register of the value takes a store. -/
def needsStore (v : Value) : Bool :=
  match v.kind with
  | .constant _ => false
  | .named data => data.home.isNone || data.dirty
  | .temporary => 0 < v.references
  | .reference => 0 < v.references

end Value

namespace Context

def candidates (c : Context) (bank : Bank) : List (Register × ValueId) :=
  (c.registers.occupied bank).filter fun (r, _) => !c.registers.isLocked r

def findCandidate (c : Context) (p : Value → Bool) :
    List (Register × ValueId) → Except Fault (Option Register)
  | [] => .ok none
  | (r, v) :: rest =>
    match c.values.get? v with
    | none => .error (.noSuchValue v)
    | some value => if p value then .ok (some r) else c.findCandidate p rest

def touchedAt (c : Context) (v : ValueId) : Nat :=
  ((c.values.get? v).map Value.lastTouched).getD 0

/-- The candidate touched longest ago, the first of several. -/
def oldest (c : Context) : (first : Register × ValueId) → List (Register × ValueId) → Register
  | best, [] => best.1
  | best, next :: rest =>
    if c.touchedAt next.2 < c.touchedAt best.2 then c.oldest next rest else c.oldest best rest

inductive Choice where
  | free (r : Register)
  | drop (r : Register)
  | evict (r : Register)
  deriving DecidableEq, Repr

def choose (c : Context) (bank : Bank) : Except Fault Choice :=
  match c.registers.free bank with
  | r :: _ => .ok (.free r)
  | [] =>
    match c.candidates bank with
    | [] => .error (.failed (.inconsistent (.everyRegisterLocked bank)))
    | first :: rest =>
      match c.findCandidate Value.isDead (first :: rest) with
      | .error fault => .error fault
      | .ok (some r) => .ok (.drop r)
      | .ok none =>
        match c.findCandidate Value.isClean (first :: rest) with
        | .error fault => .error fault
        | .ok (some r) => .ok (.drop r)
        | .ok none => .ok (.evict (c.oldest first rest))

end Context

namespace Gen

def loadAddress (dst : Register) : Position → Gen Unit
  | .stack slot => emit (.leaStack dst slot)
  | .static offset => do
    emit (.runtimeParam dst .stackBase)
    emit (.aluImm .add dst (.value (BitVec.ofNat 64 offset)))
  | .constant id => do
    emit (.runtimeParam dst .codeBase)
    emit (.aluImm .add dst (.constantAddress id))
  | .register r => inconsistent (.registerAddress r)

/-- The home of a named value, chosen now if it has none: the code segment for what never
changes, the static segment for statics, the current frame for the rest. -/
def homeOf (v : ValueId) : Gen Position := do
  let value ← valueOf v
  match value.named? with
  | none => inconsistent (.notNamed v value.description)
  | some named =>
    match named.home with
    | some home => return home
    | none =>
      let home ← chooseHome value.ty named.storage
      setHome v named home
      return home
where
  chooseHome (ty : Ty) (storage : StorageClass) : Gen Position := do
    if ty.isConst || storage == .readOnly then
      let blob := List.replicate (alignUp (max ty.size 1) wordSize) 0
      let (id, constants) := (← get).constants.add blob
      modify fun c => { c with constants }
      return .constant id
    else if storage == .static then
      return .static (← allocateStatic ty.size ty.align)
    else
      return .stack (← allocateSlot ty.size)

/-- Stores a register as a value of type `ty`. Places without a stack address are reached
through a pointer in a register that `scratch` supplies while `src` is locked. -/
def storeVia (scratch : Gen Register) (src : Register) (target : Position) (ty : Ty) :
    Gen Unit := do
  let size := ty.size.toUInt8
  match target with
  | .register dst => if src ≠ dst then emit (.mov dst src)
  | .stack slot => emit (.storeStack src slot size)
  | .static _ | .constant _ =>
    holding src do
      let ptr ← scratch
      loadAddress ptr target
      emit (.storePtr ptr src size)

def writeBackVia (scratch : Gen Register) (v : ValueId) (r : Register) : Gen Unit := do
  let home ← homeOf v
  let value ← valueOf v
  storeVia scratch r home value.ty
  updateValue v (·.setDirty false)
  record .addSpill

def spill (v : ValueId) (r : Register) : Gen Unit := do
  let value ← valueOf v
  let slot ← allocateSlot value.ty.size
  emit (.storeStack r slot value.ty.size.toUInt8)
  discard (fileUnbind r)
  setPosition v (some (.stack slot))
  record .addSpill

/-- Empties a register; what is still needed goes to memory. -/
def vacateVia (scratch : Gen Register) (r : Register) : Gen Unit := do
  match ← occupantOf r with
  | none => inconsistent (.believedOccupied r)
  | some v =>
    let value ← valueOf v
    if !value.needsStore then
      discard (unbindRegister r)
    else if value.isNamed then
      writeBackVia scratch v r
      discard (unbindRegister r)
    else
      spill v r

/-- Finds a register of the bank that may be overwritten, emptying one if need be. A pointer
for the eviction is looked for only after the evicted register was locked, so the test on
the number of unlocked registers never fails. -/
def obtainFrom (bank : Bank) (c : Context) : Except Fault Register × Context :=
  match c.choose bank with
  | .error fault => (.error fault, c)
  | .ok (.free r) => (.ok r, c)
  | .ok (.drop r) => (do discard (unbindRegister r); return r : Gen Register) c
  | .ok (.evict r) =>
    let bound := c.registers.unlockedCount
    let scratch : Gen Register := fun inner =>
      if inner.registers.unlockedCount < bound then obtainFrom .int inner
      else (.error (.failed (.inconsistent (.everyRegisterLocked .int))), inner)
    (do vacateVia scratch r; return r : Gen Register) c
termination_by c.registers.unlockedCount

/-- An empty, unlocked register of the bank. It has to be locked or bound before the next
register is asked for. -/
def obtainRegister (bank : Bank) : Gen Register := obtainFrom bank

def store (src : Register) (target : Position) (ty : Ty) : Gen Unit :=
  storeVia (obtainRegister .int) src target ty

def writeBack (v : ValueId) (r : Register) : Gen Unit :=
  writeBackVia (obtainRegister .int) v r

def vacate (r : Register) : Gen Unit := vacateVia (obtainRegister .int) r

def moveOccupant (source target : Register) : Gen Unit := do
  match ← occupantOf source with
  | none => inconsistent (.believedOccupied source)
  | some v =>
    emit (.mov target source)
    discard (fileUnbind source)
    fileBind target v
    setPosition v (some (.register target))
    touch v
    markLocation v

def displace (r : Register) : Gen Unit := do
  if (← occupantOf r).isSome then
    match (← get).registers.free r.bank |>.find? (· ≠ r) with
    | some other => moveOccupant r other
    | none => vacate r

def flush (v : ValueId) : Gen Unit := do
  let value ← valueOf v
  if value.isDirty then
    match value.register? with
    | none => inconsistent (.dirtyOutsideRegister v)
    | some r => holding r (writeBack v r)

def flushAll : Gen Unit := do
  for (_, v) in (← get).registers.allOccupied do
    flush v

def releaseEscaped : Gen Unit := do
  for (r, v) in (← get).registers.allOccupied do
    if (← valueOf v).isEscaped then
      flush v
      discard (unbindRegister r)

def vacateAll : Gen Unit := do
  for (r, v) in (← get).registers.allOccupied do
    if (← occupantOf r) = some v then vacate r

/-- Forgets every register at a point that control can reach in several ways. When `strict`,
a temporary that is still needed must not be in a register. -/
def dropAll (strict : Bool) : Gen Unit := do
  for (r, v) in (← get).registers.allOccupied do
    let value ← valueOf v
    if strict && value.isUnnamed && 0 < value.references then
      inconsistent (.referencedAtLabel v value.description r)
    discard (unbindRegister r)

end Gen

end RegisterBackend
