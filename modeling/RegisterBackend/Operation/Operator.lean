import RegisterBackend.Machine.Opcode

/-!
The operators of mid-level operations and the machine operations that carry them out.
-/
namespace RegisterBackend

inductive BinaryOp where
  | add | sub | mul | div | rem | and | or | xor | shl | shr
  deriving DecidableEq, Repr, Hashable, Inhabited

namespace BinaryOp

def all : List BinaryOp := [.add, .sub, .mul, .div, .rem, .and, .or, .xor, .shl, .shr]

def mnemonic : BinaryOp → String
  | .add => "add"
  | .sub => "sub"
  | .mul => "mul"
  | .div => "div"
  | .rem => "rem"
  | .and => "and"
  | .or => "or"
  | .xor => "xor"
  | .shl => "shl"
  | .shr => "shr"

def aluOp : BinaryOp → (signed : Bool) → AluOp
  | .add, _ => .add
  | .sub, _ => .sub
  | .mul, _ => .mul
  | .div, true => .divS
  | .div, false => .divU
  | .rem, true => .remS
  | .rem, false => .remU
  | .and, _ => .and
  | .or, _ => .or
  | .xor, _ => .xor
  | .shl, _ => .shl
  | .shr, true => .shrS
  | .shr, false => .shrU

def floatOp? : BinaryOp → Option FloatOp
  | .add => some .add
  | .sub => some .sub
  | .mul => some .mul
  | .div => some .div
  | _ => none

def isCommutative (op : BinaryOp) : Bool := (op.aluOp false).isCommutative

def isDivision : BinaryOp → Bool
  | .div => true
  | .rem => true
  | _ => false

def isBitwise : BinaryOp → Bool
  | .and => true
  | .or => true
  | .xor => true
  | _ => false

def isShift : BinaryOp → Bool
  | .shl => true
  | .shr => true
  | _ => false

end BinaryOp

inductive CompareOp where
  | eq | ne | lt | le | gt | ge
  deriving DecidableEq, Repr, Hashable, Inhabited

namespace CompareOp

def all : List CompareOp := [.eq, .ne, .lt, .le, .gt, .ge]

def mnemonic : CompareOp → String
  | .eq => "eq"
  | .ne => "ne"
  | .lt => "lt"
  | .le => "le"
  | .gt => "gt"
  | .ge => "ge"

/-- The machine's condition; floats are compared with the signed ones. -/
def cond : CompareOp → (signed : Bool) → Cond
  | .eq, _ => .eq
  | .ne, _ => .ne
  | .lt, true => .ltS
  | .le, true => .leS
  | .gt, true => .gtS
  | .ge, true => .geS
  | .lt, false => .ltU
  | .le, false => .leU
  | .gt, false => .gtU
  | .ge, false => .geU

end CompareOp

inductive UnaryOp where
  | neg | bitNot | logicalNot
  deriving DecidableEq, Repr, Hashable, Inhabited

namespace UnaryOp

def all : List UnaryOp := [.neg, .bitNot, .logicalNot]

def mnemonic : UnaryOp → String
  | .neg => "neg"
  | .bitNot => "not"
  | .logicalNot => "lnot"

end UnaryOp

end RegisterBackend
