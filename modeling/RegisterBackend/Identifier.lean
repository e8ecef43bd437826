/-!
Handles for the things a module numbers. Each kind has a type of its own.
-/
namespace RegisterBackend

structure ValueId where
  index : Nat
  deriving DecidableEq, Repr, Hashable, Inhabited

def ValueId.text (v : ValueId) : String := "v" ++ toString v.index

structure FunctionId where
  index : Nat
  deriving DecidableEq, Repr, Hashable, Inhabited

def FunctionId.text (f : FunctionId) : String := "fn" ++ toString f.index

/-- A jump or call target; its place in the image is fixed by assembly. -/
structure LabelId where
  index : Nat
  deriving DecidableEq, Repr, Hashable, Inhabited

def LabelId.text (l : LabelId) : String := "L" ++ toString l.index

structure FrameId where
  index : Nat
  deriving DecidableEq, Repr, Hashable, Inhabited

structure ConstantId where
  index : Nat
  deriving DecidableEq, Repr, Hashable, Inhabited

end RegisterBackend
