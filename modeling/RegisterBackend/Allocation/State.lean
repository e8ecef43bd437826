import RegisterBackend.Allocation.RegisterFile
import RegisterBackend.Allocation.Value
import RegisterBackend.Machine.Instr
import RegisterBackend.Options
import RegisterBackend.Report.Statistics
import RegisterBackend.Storage.Areas

/-!
The state of code generation and its elementary steps. A step that stops keeps what it did before.
-/
namespace RegisterBackend

structure Context where
  options : Options := {}
  values : ValueStore := .empty
  registers : RegisterFile := .empty
  frames : Frames := {}
  statics : StaticSegment := {}
  constants : ConstantPool := {}
  code : Array Instr := #[]
  currentFrame : Option FrameId := none
  loc : Location := .builtin
  statistics : Statistics := {}
  deriving Inhabited

abbrev Gen := ExceptT Fault (StateM Context)

namespace Gen

def inconsistent {α : Type} (cause : Inconsistency) : Gen α :=
  throw (.failed (.inconsistent cause))

def unsupported {α : Type} (cause : Unsupported) : Gen α :=
  throw (.failed (.unsupported cause))

def rejected {α : Type} (loc : Location) (cause : Rejection) : Gen α :=
  throw (.failed (.rejected loc cause))

def emit (instr : Instr) : Gen Unit :=
  modify fun c => { c with code := c.code.push instr }

def comment (text : String) : Gen Unit := do
  if (← get).options.emitComments then emit (.comment text)

def setLocation (loc : Location) : Gen Unit :=
  modify fun c => { c with loc }

def record (f : Statistics → Statistics) : Gen Unit :=
  modify fun c => { c with statistics := f c.statistics }

def valueOf (v : ValueId) : Gen Value := do
  match (← get).values.get? v with
  | some value => return value
  | none => throw (.noSuchValue v)

def updateValue (v : ValueId) (f : Value → Value) : Gen Unit := do
  discard (valueOf v)
  modify fun c => { c with values := c.values.modify v f }

def setPosition (v : ValueId) (position : Option Position) : Gen Unit :=
  updateValue v ({ · with position })

def touch (v : ValueId) : Gen Unit := do
  discard (valueOf v)
  modify fun c => { c with values := c.values.touch v }

/-- Uses up one of the uses counted for `v` and gives the number of those left. -/
def consume (v : ValueId) : Gen Nat := do
  match (← get).values.consume v with
  | .ok (left, values) =>
    modify fun c => { c with values }
    return left
  | .error fault => throw fault

def setHome (v : ValueId) (named : Named) (home : Position) : Gen Unit := do
  match named.setHome home with
  | .ok named => updateValue v (·.mapNamed fun _ => named)
  | .error cause => inconsistent cause

def enterFrame (frame : FrameId) : Gen Unit :=
  modify fun c => { c with currentFrame := some frame }

def leaveFrame : Gen Unit :=
  modify fun c => { c with currentFrame := none }

def currentFrame : Gen FrameId := do
  match (← get).currentFrame with
  | some frame => return frame
  | none => inconsistent .outsideFunction

def allocateSlot (size : Nat) : Gen StackSlot := do
  let frame ← currentFrame
  match (← get).frames.allocate frame size with
  | .ok (slot, frames) =>
    modify fun c => { c with frames }
    return slot
  | .error (.tooLarge _) => rejected (← get).loc (.frameFull size)
  | .error (.unknownFrame frame) => inconsistent (.unknownFrame frame)

def startFrame (taken : Nat) : Gen FrameId :=
  modifyGet fun c =>
    let (frame, frames) := c.frames.start taken
    (frame, { c with frames })

def allocateStatic (size align : Nat) : Gen Nat := do
  match (← get).statics.allocate size align with
  | some (offset, statics) =>
    modify fun c => { c with statics }
    return offset
  | none => throw .overflow

def addBlob (bytes : List UInt8) : Gen ConstantId :=
  modifyGet fun c =>
    let (id, constants) := c.constants.add bytes
    (id, { c with constants })

def markLocation (v : ValueId) : Gen Unit := do
  if (← get).options.emitLocations then
    let value ← valueOf v
    match value.named?, value.position with
    | some named, some position =>
      emit (.location named.name position (position.slot?.bind StackSlot.frame?))
    | _, _ => return

def occupantOf (r : Register) : Gen (Option ValueId) := do
  match (← get).registers.occupant r with
  | .ok occupant => return occupant
  | .error fault => throw fault

def fileBind (r : Register) (v : ValueId) : Gen Unit := do
  match (← get).registers.bind r v with
  | .ok registers => modify fun c => { c with registers }
  | .error cause => inconsistent cause

def fileUnbind (r : Register) : Gen ValueId := do
  match (← get).registers.unbind r with
  | .ok (v, registers) =>
    modify fun c => { c with registers }
    return v
  | .error cause => inconsistent cause

/-- Puts `v`, which is in no register, into an empty register of its bank. -/
def bindRegister (r : Register) (v : ValueId) : Gen Unit := do
  let value ← valueOf v
  if value.ty.bank ≠ r.bank then inconsistent (.wrongBank v value.description r)
  if let some owned := value.register? then inconsistent (.alreadyOwning v r owned)
  fileBind r v
  setPosition v (some (.register r))
  touch v
  record .addRegister
  markLocation v

/-- Empties a register without code. A named value, which must not be dirty, falls back to
its home; any other loses its position. -/
def unbindRegister (r : Register) : Gen ValueId := do
  match ← occupantOf r with
  | none => inconsistent (.releasedEmpty r)
  | some v =>
    let value ← valueOf v
    if value.position ≠ some (.register r) then inconsistent (.heldElsewhere r v value.position)
    if value.isDirty then inconsistent (.dirtyDropped v value.description r)
    discard (fileUnbind r)
    setPosition v value.home?
    if value.home?.isSome then markLocation v
    return v

def setLocked (r : Register) (locked : Bool) : Gen Bool := do
  let previous := (← get).registers.isLocked r
  modify fun c => { c with registers := c.registers.setLocked r locked }
  return previous

/-- Runs a block while `r` is locked. Whether the block ends or stops, the lock of `r` is put
back to what it was. -/
def holding {α : Type} (r : Register) (block : Gen α) : Gen α := fun c =>
  let previous := c.registers.isLocked r
  let (result, c) := block { c with registers := c.registers.setLocked r true }
  (result, { c with registers := c.registers.setLocked r previous })

def holdingAll {α : Type} (rs : List Register) (block : Gen α) : Gen α :=
  match rs with
  | [] => block
  | r :: rest => holding r (holdingAll rest block)

def holdingRegisterOf {α : Type} (v : ValueId) (block : Gen α) : Gen α := do
  holdingAll (← valueOf v).register?.toList block

end Gen

end RegisterBackend
