import RegisterBackend.Machine.Register

/-!
The front end's types. Equality is structural and includes the marks of constants below the top.
-/
namespace RegisterBackend

/-- A type. Integer and float sizes are in bytes; a struct lists its fields in order. -/
inductive Ty where
  | void
  | bool
  | int (size : Nat) (signed : Bool)
  | float (size : Nat)
  | pointer (target : Ty)
  | array (element : Ty) (length : Nat)
  | struct (name : String) (fields : List (String × Ty))
  | function (params : List Ty) (result : Ty)
  | const (ty : Ty)
  deriving Repr, Inhabited

structure Signature where
  params : List Ty
  result : Ty
  deriving Repr, Inhabited

namespace Ty

mutual
def same : Ty → Ty → Bool
  | .void, .void => true
  | .bool, .bool => true
  | .int s g, .int s' g' => s == s' && g == g'
  | .float s, .float s' => s == s'
  | .pointer t, .pointer t' => same t t'
  | .array t n, .array t' n' => same t t' && n == n'
  | .struct a fs, .struct b fs' => a == b && sameFields fs fs'
  | .function ps r, .function ps' r' => sameList ps ps' && same r r'
  | .const t, .const t' => same t t'
  | _, _ => false

def sameList : List Ty → List Ty → Bool
  | [], [] => true
  | t :: ts, t' :: ts' => same t t' && sameList ts ts'
  | _, _ => false

def sameFields : List (String × Ty) → List (String × Ty) → Bool
  | [], [] => true
  | (a, t) :: fs, (b, t') :: fs' => a == b && same t t' && sameFields fs fs'
  | _, _ => false
end

mutual
theorem same_iff : (a b : Ty) → (same a b = true ↔ a = b)
  | .void, b => by cases b <;> simp [same]
  | .bool, b => by cases b <;> simp [same]
  | .int _ _, b => by cases b <;> simp [same]
  | .float _, b => by cases b <;> simp [same]
  | .pointer t, b => by cases b <;> simp [same, same_iff t]
  | .array t _, b => by cases b <;> simp [same, same_iff t]
  | .struct _ fs, b => by cases b <;> simp [same, sameFields_iff fs]
  | .function ps r, b => by cases b <;> simp [same, same_iff r, sameList_iff ps]
  | .const t, b => by cases b <;> simp [same, same_iff t]

theorem sameList_iff : (as bs : List Ty) → (sameList as bs = true ↔ as = bs)
  | [], bs => by cases bs <;> simp [sameList]
  | t :: ts, bs => by cases bs <;> simp [sameList, same_iff t, sameList_iff ts]

theorem sameFields_iff :
    (as bs : List (String × Ty)) → (sameFields as bs = true ↔ as = bs)
  | [], bs => by cases bs <;> simp [sameFields]
  | (a, t) :: fs, bs => by
    cases bs with
    | nil => simp [sameFields]
    | cons head rest =>
      obtain ⟨b, t'⟩ := head
      simp [sameFields, same_iff t, sameFields_iff fs]
end

instance : DecidableEq Ty := fun a b => decidable_of_iff _ (same_iff a b)

def u8 : Ty := .int 1 false
def u64 : Ty := .int 8 false
def i64 : Ty := .int 8 true

def ofName? : String → Option Ty
  | "void" => some .void
  | "bool" => some .bool
  | "u8" => some u8
  | "u16" => some (.int 2 false)
  | "u32" => some (.int 4 false)
  | "u64" => some u64
  | "i8" => some (.int 1 true)
  | "i16" => some (.int 2 true)
  | "i32" => some (.int 4 true)
  | "i64" => some i64
  | "f32" => some (.float 4)
  | "f64" => some (.float 8)
  | _ => none

def constant : Ty → Ty
  | .const t => .const t
  | t => .const t

def unqualified : Ty → Ty
  | .const t => t.unqualified
  | t => t

def isConst : Ty → Bool
  | .const _ => true
  | _ => false

def isVoid : Ty → Bool
  | .void => true
  | .const t => t.isVoid
  | _ => false

def isBool : Ty → Bool
  | .bool => true
  | .const t => t.isBool
  | _ => false

def isInteger : Ty → Bool
  | .int _ _ => true
  | .bool => true
  | .const t => t.isInteger
  | _ => false

def isFloat : Ty → Bool
  | .float _ => true
  | .const t => t.isFloat
  | _ => false

def isPointer : Ty → Bool
  | .pointer _ => true
  | .const t => t.isPointer
  | _ => false

def isArray : Ty → Bool
  | .array _ _ => true
  | .const t => t.isArray
  | _ => false

def isStruct : Ty → Bool
  | .struct _ _ => true
  | .const t => t.isStruct
  | _ => false

def isFunction : Ty → Bool
  | .function _ _ => true
  | .const t => t.isFunction
  | _ => false

def isScalar (t : Ty) : Bool := t.isInteger || t.isFloat || t.isPointer

def isSigned : Ty → Bool
  | .int _ signed => signed
  | .const t => t.isSigned
  | _ => false

def classes (t : Ty) : List String :=
  ([("void", t.isVoid), ("bool", t.isBool), ("integer", t.isInteger), ("float", t.isFloat),
    ("pointer", t.isPointer), ("array", t.isArray), ("struct", t.isStruct),
    ("function", t.isFunction), ("scalar", t.isScalar), ("signed", t.isSigned),
    ("const", t.isConst)].filter Prod.snd).map Prod.fst

def pointee? : Ty → Option Ty
  | .pointer target => some target
  | .const t => t.pointee?
  | _ => none

def element? : Ty → Option Ty
  | .array element _ => some element
  | .const t => t.element?
  | _ => none

def ownSignature? : Ty → Option Signature
  | .function params result => some ⟨params, result⟩
  | .const t => t.ownSignature?
  | _ => none

/-- The signature of a function type or of a pointer to one. -/
def signature? : Ty → Option Signature
  | .function params result => some ⟨params, result⟩
  | .pointer target => target.ownSignature?
  | .const t => t.signature?
  | _ => none

def bank (t : Ty) : Bank := if t.isFloat then .float else .int

mutual
def text : Ty → String
  | .void => "void"
  | .bool => "bool"
  | .int size signed => (if signed then "i" else "u") ++ toString (size * 8)
  | .float size => "f" ++ toString (size * 8)
  | .pointer target => "*" ++ target.text
  | .array element length => "[" ++ element.text ++ "; " ++ toString length ++ "]"
  | .struct name _ => "struct " ++ name
  | .function params result => "func(" ++ textList params ++ ") -> " ++ result.text
  | .const t => "const " ++ t.text

def textList : List Ty → String
  | [] => ""
  | t :: ts => t.text ++ textRest ts

def textRest : List Ty → String
  | [] => ""
  | t :: ts => ", " ++ t.text ++ textRest ts
end

end Ty

instance : DecidableEq Signature := fun a b =>
  decidable_of_iff (a.params = b.params ∧ a.result = b.result) (by
    cases a; cases b; simp)

namespace Signature

def toTy (s : Signature) : Ty := .function s.params s.result

def returnsValue (s : Signature) : Bool := !s.result.isVoid

def text (s : Signature) : String := s.toTy.text

end Signature

end RegisterBackend
