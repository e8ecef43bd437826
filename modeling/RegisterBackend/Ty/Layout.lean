import RegisterBackend.Machine.Word
import RegisterBackend.Ty.Basic

/-!
Sizes, natural alignments and field offsets, and which types fit one register.
-/
namespace RegisterBackend

structure Field where
  name : String
  ty : Ty
  offset : Nat
  deriving Repr, Inhabited

namespace Ty

mutual
def align : Ty → Nat
  | .void => 1
  | .bool => 1
  | .int size _ => max size 1
  | .float size => max size 1
  | .pointer _ => wordSize
  | .array element _ => element.align
  | .struct _ fields => fieldsAlign fields
  | .function _ _ => wordSize
  | .const t => t.align

def fieldsAlign : List (String × Ty) → Nat
  | [] => 1
  | (_, t) :: rest => max t.align (fieldsAlign rest)
end

mutual
/-- Size in bytes. A struct's size is rounded up to its alignment. -/
def size : Ty → Nat
  | .void => 0
  | .bool => 1
  | .int size _ => size
  | .float size => size
  | .pointer _ => wordSize
  | .array element length => element.size * length
  | .struct _ fields => alignUp (fieldsEnd fields 0) (fieldsAlign fields)
  | .function _ _ => wordSize
  | .const t => t.size

def fieldsEnd : List (String × Ty) → Nat → Nat
  | [], start => start
  | (_, t) :: rest, start => fieldsEnd rest (alignUp start t.align + t.size)
end

/-- Fields in declaration order, each at the next multiple of its own alignment. -/
def placeFields : List (String × Ty) → Nat → List Field
  | [], _ => []
  | (name, t) :: rest, start =>
    let offset := alignUp start t.align
    ⟨name, t, offset⟩ :: placeFields rest (offset + t.size)

end Ty

structure StructLayout where
  name : String
  fields : List Field
  size : Nat
  align : Nat
  deriving Repr, Inhabited

def StructLayout.field? (layout : StructLayout) (name : String) : Option Field :=
  layout.fields.find? (·.name == name)

namespace Ty

def layout? : Ty → Option StructLayout
  | .struct name fields =>
    some ⟨name, placeFields fields 0, size (.struct name fields), fieldsAlign fields⟩
  | .const t => t.layout?
  | _ => none

/-- The size is a word, and so is that of every element. Whoever asks for a larger one stops. -/
def isMeasurable : Ty → Bool
  | .array element length => element.isMeasurable && element.size * length < wordLimit
  | .const t => t.isMeasurable
  | t => t.size < wordLimit

/-- One register can hold a value of the type. Arrays never fit. -/
def fitsRegister (t : Ty) : Bool :=
  !t.isArray && !t.isVoid && (t.size == 1 || t.size == 2 || t.size == 4 || t.size == 8)

/-- A value of type `source` may be stored into `target` without an explicit conversion. -/
def assignable (source target : Ty) : Bool :=
  match source.unqualified, target.unqualified with
  | .int _ _, t => t.isInteger
  | .bool, t => t.isInteger
  | .float _, .float _ => true
  | .pointer _, .pointer _ => true
  | .array element _, .pointer pointee => element.unqualified == pointee.unqualified
  | .array element length, .array element' length' => element == element' && length == length'
  | .struct name fields, .struct name' fields' => Ty.struct name fields == .struct name' fields'
  | .function params result, .pointer pointee =>
    pointee.ownSignature? == some ⟨params, result⟩
  | _, _ => false

end Ty

end RegisterBackend
