import RegisterBackend.Report.Diagnostics
import RegisterBackend.Ty.Layout

/-!
The values of a module. A named value has a home, chosen once; temporaries and references have none.
Each value counts the uses still to come.
-/
namespace RegisterBackend

/-- How long a named value lives, which decides where its home is. -/
inductive StorageClass where
  | auto
  | static
  | readOnly
  deriving DecidableEq, Repr, Inhabited

namespace StorageClass

def all : List StorageClass := [.auto, .static, .readOnly]

def name : StorageClass → String
  | .auto => "Auto"
  | .static => "Static"
  | .readOnly => "ReadOnly"

end StorageClass

structure Named where
  name : String
  storage : StorageClass
  home : Option Position := none
  /-- A register holds newer contents than the home. -/
  dirty : Bool := false
  /-- Its address was taken, so memory may change behind a register copy. -/
  escaped : Bool := false
  deriving DecidableEq, Repr, Inhabited

/-- Fixes the home, which is never a register and never changes. -/
def Named.setHome (n : Named) (home : Position) : Except Inconsistency Named :=
  if home.isRegister then .error (.homeInRegister n.name)
  else match n.home with
    | some _ => .error (.homeTwice n.name)
    | none => .ok { n with home := some home }

inductive ValueKind where
  | constant (bits : Word)
  | named (data : Named)
  | temporary
  /-- The result of taking an address. -/
  | reference
  deriving DecidableEq, Repr, Inhabited

structure Value where
  ty : Ty
  kind : ValueKind
  description : String
  position : Option Position := none
  initialized : Bool := true
  references : Nat := 0
  lastTouched : Nat := 0
  deriving DecidableEq, Repr, Inhabited

namespace Value

def named? (v : Value) : Option Named :=
  match v.kind with
  | .named data => some data
  | _ => none

def constant? (v : Value) : Option Word :=
  match v.kind with
  | .constant bits => some bits
  | _ => none

def register? (v : Value) : Option Register := v.position.bind Position.register?

def isConstant (v : Value) : Bool := v.constant?.isSome

def isNamed (v : Value) : Bool := v.named?.isSome

def isReference (v : Value) : Bool :=
  match v.kind with
  | .reference => true
  | _ => false

def isUnnamed (v : Value) : Bool :=
  match v.kind with
  | .temporary => true
  | .reference => true
  | _ => false

def home? (v : Value) : Option Position := v.named?.bind Named.home

def isDirty (v : Value) : Bool :=
  match v.named? with
  | some data => data.dirty
  | none => false

def isEscaped (v : Value) : Bool :=
  match v.named? with
  | some data => data.escaped
  | none => false

def atHome (v : Value) : Bool :=
  match v.home?, v.position with
  | some home, some position => home == position
  | _, _ => false

def mapNamed (v : Value) (f : Named → Named) : Value :=
  match v.kind with
  | .named data => { v with kind := .named (f data) }
  | _ => v

def setDirty (v : Value) (dirty : Bool) : Value := v.mapNamed ({ · with dirty })

def setEscaped (v : Value) (escaped : Bool) : Value := v.mapNamed ({ · with escaped })

end Value

structure ValueStore where
  values : Array Value := #[]
  /-- Counts touches, so that later touches have larger numbers. -/
  clock : Nat := 0
  deriving DecidableEq, Repr, Inhabited

namespace ValueStore

def empty : ValueStore := {}

def size (s : ValueStore) : Nat := s.values.size

def get? (s : ValueStore) (v : ValueId) : Option Value := s.values[v.index]?

def add (s : ValueStore) (value : Value) : ValueId × ValueStore :=
  (⟨s.values.size⟩, { s with values := s.values.push value })

def addConstant (s : ValueStore) (ty : Ty) (bits : Word) (description : String) :
    ValueId × ValueStore :=
  s.add { ty, kind := .constant bits, description }

/-- A named value is described by its name and starts without contents. -/
def addNamed (s : ValueStore) (ty : Ty) (name : String) (storage : StorageClass) :
    ValueId × ValueStore :=
  s.add { ty, kind := .named { name, storage }, description := name, initialized := false }

def addTemporary (s : ValueStore) (ty : Ty) (description : String) : ValueId × ValueStore :=
  s.add { ty, kind := .temporary, description }

def addReference (s : ValueStore) (ty : Ty) (description : String) : ValueId × ValueStore :=
  s.add { ty, kind := .reference, description }

def modify (s : ValueStore) (v : ValueId) (f : Value → Value) : ValueStore :=
  { s with values := s.values.modify v.index f }

def touch (s : ValueStore) (v : ValueId) : ValueStore :=
  let clock := s.clock + 1
  { s with clock }.modify v ({ · with lastTouched := clock })

def noteUse (s : ValueStore) (v : ValueId) : ValueStore :=
  s.modify v fun value => { value with references := value.references + 1 }

def consume (s : ValueStore) (v : ValueId) : Except Fault (Nat × ValueStore) :=
  match s.get? v with
  | none => .error (.noSuchValue v)
  | some value =>
    match value.references with
    | 0 => .error (.failed (.inconsistent (.referenceUnderflow v value.description)))
    | left + 1 => .ok (left, s.modify v ({ · with references := left }))

def toList (s : ValueStore) : List (ValueId × Value) :=
  s.values.toList.mapIdx fun i value => (⟨i⟩, value)

end ValueStore

end RegisterBackend
