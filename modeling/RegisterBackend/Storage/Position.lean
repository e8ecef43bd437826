import RegisterBackend.Identifier
import RegisterBackend.Machine.Register

/-!
Where a value can be. Stack offsets run forward; the displacement from the stack pointer is known
only when the frame has its final size.
-/
namespace RegisterBackend

inductive StackBase where
  | frame (id : FrameId)
  /-- The stack pointer at a call, where the callee's frame will start. -/
  | outgoing
  deriving DecidableEq, Repr, Hashable, Inhabited

structure StackSlot where
  base : StackBase
  offset : Nat
  deriving DecidableEq, Repr, Hashable, Inhabited

namespace StackSlot

def inFrame (frame : FrameId) (offset : Nat) : StackSlot := ⟨.frame frame, offset⟩

def outgoing (offset : Nat) : StackSlot := ⟨.outgoing, offset⟩

def advanced (slot : StackSlot) (delta : Nat) : StackSlot :=
  { slot with offset := slot.offset + delta }

/-- Distance from the stack pointer once the frame has `frameSize` bytes. -/
def displacement (slot : StackSlot) (frameSize : Nat) : Int :=
  match slot.base with
  | .frame _ => (slot.offset : Int) - frameSize
  | .outgoing => slot.offset

def frame? (slot : StackSlot) : Option FrameId :=
  match slot.base with
  | .frame id => some id
  | .outgoing => none

def text (slot : StackSlot) : String :=
  match slot.base with
  | .frame id => "frame" ++ toString id.index ++ "[" ++ toString slot.offset ++ "]"
  | .outgoing => "out[" ++ toString slot.offset ++ "]"

end StackSlot

inductive Position where
  | register (r : Register)
  | stack (slot : StackSlot)
  | static (offset : Nat)
  | constant (id : ConstantId)
  deriving DecidableEq, Repr, Hashable, Inhabited

namespace Position

def register? : Position → Option Register
  | .register r => some r
  | _ => none

def slot? : Position → Option StackSlot
  | .stack slot => some slot
  | _ => none

def static? : Position → Option Nat
  | .static offset => some offset
  | _ => none

def constant? : Position → Option ConstantId
  | .constant id => some id
  | _ => none

def isRegister (p : Position) : Bool := p.register?.isSome

/-- The position is reached through an address that the machine supplies at run time. -/
def needsBasePointer : Position → Bool
  | .static _ => true
  | .constant _ => true
  | _ => false

def sameKind : Position → Position → Bool
  | .register _, .register _ => true
  | .stack _, .stack _ => true
  | .static _, .static _ => true
  | .constant _, .constant _ => true
  | _, _ => false

def text : Position → String
  | .register r => r.text
  | .stack slot => slot.text
  | .static offset => "static[" ++ toString offset ++ "]"
  | .constant id => "const" ++ toString id.index

def ofText? (s : String) : Option Position :=
  match indexed? s.toList with
  | some (head, offset) =>
    if head = "out".toList then some (.stack (.outgoing offset))
    else if head = "static".toList then some (.static offset)
    else
      match "frame".toList.isPrefixOf? head with
      | some digits => (number? digits).map fun n => .stack (.inFrame ⟨n⟩ offset)
      | none => none
  | none =>
    match "const".toList.isPrefixOf? s.toList with
    | some digits => (number? digits).map fun n => .constant ⟨n⟩
    | none => (Register.ofText? s).map .register

/-- The fields of a position spelled out, as reports of broken bookkeeping show it. -/
def detail : Position → String
  | .register r =>
    "Register(AsmReg \x7b bank: " ++ r.bank.name ++ ", id: " ++ toString r.id.toNat ++ " \x7d)"
  | .stack ⟨.frame id, offset⟩ =>
    "Stack(StackSlot \x7b base: Frame(FrameId(" ++ toString id.index ++ ")), offset: "
      ++ toString offset ++ " \x7d)"
  | .stack ⟨.outgoing, offset⟩ =>
    "Stack(StackSlot \x7b base: Outgoing, offset: " ++ toString offset ++ " \x7d)"
  | .static offset => "Static(" ++ toString offset ++ ")"
  | .constant id => "CodeConstant(ConstId(" ++ toString id.index ++ "))"

def claimDetail : Option Position → String
  | none => "None"
  | some p => "Some(" ++ p.detail ++ ")"

end Position

end RegisterBackend
