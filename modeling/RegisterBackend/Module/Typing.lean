import RegisterBackend.Report.Cause
import RegisterBackend.Ty.Layout

/-!
The typing rules of the construction interface.
-/
namespace RegisterBackend

namespace Ty

/-- Brings a pattern into the form in which a register holds an integer of the type: zero or
one for truth values, the low bytes extended by zero or by sign for the rest. -/
def canonicalBits (ty : Ty) (bits : Word) : Word :=
  if ty.isBool then (if bits = 0 then 0 else 1)
  else if ty.size = 0 ∨ wordSize ≤ ty.size then bits
  else
    let low := bits.setWidth (ty.size * 8)
    if ty.isSigned then low.signExtend 64 else low.setWidth 64

/-- The number that a canonical pattern of the type stands for. -/
def numberOf (ty : Ty) (bits : Word) : Int := if ty.isSigned then bits.toInt else bits.toNat

/-- Narrowing the constant `bits` from `source` to `target` keeps its number. -/
def keepsConstant (source target : Ty) (bits : Word) : Bool :=
  target.numberOf (target.canonicalBits bits) == source.numberOf bits

/-- An integer of type `source` may lose digits in `target`; a known constant may not. -/
def narrows (source target : Ty) (constant : Option Word) : Bool :=
  source.isInteger && target.isInteger && target.size < source.size
    && !(constant.any (source.keepsConstant target))

def pointeesDiffer (source target : Ty) : Bool :=
  match source.pointee?, target.pointee? with
  | some a, some b => a.unqualified != b.unqualified && !a.isVoid && !b.isVoid
  | _, _ => false

/-- What there is to say about using a value of type `source`, whose constant may be known,
as a `target`. -/
def caution? (source target : Ty) (constant : Option Word) (usage : Usage) : Option Caution :=
  if source.narrows target constant then some (.narrowing source target usage)
  else if source.pointeesDiffer target then some (.pointees source target usage)
  else none

def promoted (ty : Ty) : Ty := if ty.isBool then u8 else ty.unqualified

def wider (a b : Ty) : Ty := if a.size < b.size then b else a

def isStorable (ty : Ty) : Bool := !ty.isVoid && !ty.isFunction

end Ty

namespace BinaryOp

def floatResult (op : BinaryOp) (lhs rhs : Ty) : Except Rejection Ty :=
  match op.floatOp? with
  | none => .error (.floatOperator op)
  | some _ => .ok (lhs.wider rhs).unqualified

def differenceResult (op : BinaryOp) (lhs rhs a b : Ty) : Except Rejection Ty :=
  if op ≠ .sub then .error (.operands op lhs rhs)
  else if a.unqualified ≠ b.unqualified ∨ a.size = 0 then .error (.pointerDifference lhs rhs)
  else .ok .i64

/-- One operand is a pointer to `pointee`. It moves by whole elements. -/
def displacementResult (op : BinaryOp) (lhs rhs pointee : Ty) : Except Rejection Ty :=
  let pointer := if lhs.isPointer then lhs else rhs
  if !(op = .add || (op = .sub && lhs.isPointer)) then .error (.operands op lhs rhs)
  else if pointee.size = 0 then .error (.pointerArithmetic pointer)
  else .ok pointer.unqualified

/-- Both operands are integers. A shift keeps the type on its left, and bitwise operators
keep truth values. -/
def integerResult (op : BinaryOp) (lhs rhs : Ty) (divisor : Option Word) : Except Rejection Ty :=
  if op.isDivision && divisor == some 0 then .error .divisionByZero
  else if op.isShift then .ok lhs.unqualified
  else if op.isBitwise && lhs.isBool && rhs.isBool then .ok .bool
  else .ok (lhs.wider rhs).promoted

/-- The type of a binary operation; `divisor` is the right operand's constant if known. -/
def result (op : BinaryOp) (lhs rhs : Ty) (divisor : Option Word) : Except Rejection Ty :=
  if !lhs.isScalar || !rhs.isScalar then .error (.operands op lhs rhs)
  else if lhs.isFloat != rhs.isFloat then .error (.mixedOperands op lhs rhs)
  else if lhs.isFloat then op.floatResult lhs rhs
  else
    match lhs.pointee?, rhs.pointee? with
    | some a, some b => op.differenceResult lhs rhs a b
    | some pointee, none => op.displacementResult lhs rhs pointee
    | none, some pointee => op.displacementResult lhs rhs pointee
    | none, none => op.integerResult lhs rhs divisor

end BinaryOp

namespace UnaryOp

def result (op : UnaryOp) (ty : Ty) : Except Rejection Ty :=
  match op with
  | .neg =>
    if (ty.isInteger && !ty.isBool) || ty.isFloat then .ok ty.unqualified
    else .error (.unaryOperand op ty)
  | .bitNot =>
    if ty.isInteger && !ty.isBool then .ok ty.unqualified else .error (.unaryOperand op ty)
  | .logicalNot => if ty.isScalar then .ok .bool else .error (.unaryOperand op ty)

end UnaryOp

def Ty.comparable (lhs rhs : Ty) : Bool :=
  (lhs.isInteger && rhs.isInteger) || (lhs.isFloat && rhs.isFloat)
    || (lhs.isPointer && rhs.isPointer)

end RegisterBackend
