import RegisterBackend.Ty.Layout

/-!
The calling convention. The first six arguments of each bank travel in registers, everything else in
words of the callee's frame above its header.
-/
namespace RegisterBackend

inductive PassingClass where
  | integer
  | float
  | memory
  deriving DecidableEq, Repr, Inhabited

namespace PassingClass

def ofTy (ty : Ty) : PassingClass :=
  if ty.isFloat && ty.fitsRegister then .float
  else if (ty.isInteger || ty.isPointer) && ty.fitsRegister then .integer
  else .memory

def all : List PassingClass := [.integer, .float, .memory]

def name : PassingClass → String
  | .integer => "Integer"
  | .float => "Float"
  | .memory => "Memory"

end PassingClass

inductive ArgumentPlace where
  | register (r : Register)
  | stack (offset : Nat)
  deriving DecidableEq, Repr, Inhabited

inductive ResultPlace where
  | void
  | register (r : Register)
  | memory
  deriving DecidableEq, Repr, Inhabited

namespace Convention

def registerArguments : Nat := 6

/-- Where the header keeps the address of the result buffer. -/
def returnPointerOffset : Nat := 8

/-- How far the places of a signature have been handed out. -/
structure Cursor where
  ints : Nat := 0
  floats : Nat := 0
  stack : Nat
  deriving DecidableEq, Repr, Inhabited

namespace Cursor

def start (header : Nat) : Cursor := { stack := header }

/-- The sum is exact here; `CallLayout.ofSignature?` has no layout for one past 32 bits. -/
def takeStack (c : Cursor) (size : Nat) : ArgumentPlace × Cursor :=
  let offset := alignUp c.stack wordSize
  (.stack offset, { c with stack := offset + alignUp (max size 1) wordSize })

def take (c : Cursor) (cls : PassingClass) (size : Nat) : ArgumentPlace × Cursor :=
  match cls with
  | .integer =>
    if c.ints < registerArguments then
      (.register (.int (UInt8.ofNat c.ints)), { c with ints := c.ints + 1 })
    else c.takeStack size
  | .float =>
    if c.floats < registerArguments then
      (.register (.float (UInt8.ofNat c.floats)), { c with floats := c.floats + 1 })
    else c.takeStack size
  | .memory => c.takeStack size

end Cursor

def resultRegister? : PassingClass → Option Register
  | .integer => some (.int 0)
  | .float => some (.float 0)
  | .memory => none

/-- The convention keeps the size of an argument in 32 bits. -/
def passedSize (ty : Ty) : Nat := ty.size % 0x100000000

/-- Places of the arguments in order, and where the last one leaves the cursor. -/
def placeArguments : List Ty → Cursor → List ArgumentPlace × Cursor
  | [], c => ([], c)
  | ty :: rest, c =>
    let (place, c) := c.take (.ofTy ty) (passedSize ty)
    let (places, c) := placeArguments rest c
    (place :: places, c)

/-- A struct that fits a register comes back in an integer register. -/
def placeResult (ty : Ty) : ResultPlace :=
  if ty.isVoid then .void
  else
    let cls := if ty.isStruct && ty.fitsRegister then .integer else PassingClass.ofTy ty
    match resultRegister? cls with
    | some r => .register r
    | none => .memory

end Convention

structure CallLayout where
  arguments : List ArgumentPlace
  result : ResultPlace
  headerSize : Nat
  argumentsEnd : Nat
  deriving DecidableEq, Repr, Inhabited

namespace CallLayout

def headerSizeFor : ResultPlace → Nat
  | .memory => Convention.returnPointerOffset + wordSize
  | _ => wordSize

def ofSignature (signature : Signature) : CallLayout :=
  let result := Convention.placeResult signature.result
  let headerSize := headerSizeFor result
  let (arguments, cursor) := Convention.placeArguments signature.params (.start headerSize)
  { arguments, result, headerSize, argumentsEnd := cursor.stack }

/-- The layout of a signature whose types can be measured and whose arguments end within 32 bits,
the range of their offsets. -/
def ofSignature? (signature : Signature) : Option CallLayout :=
  let layout := ofSignature signature
  if (signature.result :: signature.params).all Ty.isMeasurable
      && layout.argumentsEnd < 0x100000000 then some layout
  else none

def resultBank? (layout : CallLayout) : Option Bank :=
  match layout.result with
  | .register r => some r.bank
  | _ => none

end CallLayout

end RegisterBackend
