import RegisterBackend.Convention
import RegisterBackend.Operation.Basic
import RegisterBackend.Report.Diagnostics

/-!
Declared functions: their signature, how they are called and, once it is known, their body.
-/
namespace RegisterBackend

inductive Linkage where
  | internal
  | external (handle : Word)
  deriving DecidableEq, Repr, Inhabited

structure BodyItem where
  operation : Operation
  loc : Location
  deriving DecidableEq, Repr, Inhabited

structure Declaration where
  name : String
  signature : Signature
  linkage : Linkage
  loc : Location
  /-- Internal functions have a frame. -/
  frame : Option FrameId
  start : LabelId
  epilogue : LabelId
  params : List ValueId := []
  /-- Holds the address of the caller's buffer when the result is returned in memory. -/
  returnPointer : Option ValueId := none
  body : Option (List BodyItem) := none
  deriving DecidableEq, Repr, Inhabited

namespace Declaration

def layout (d : Declaration) : CallLayout := .ofSignature d.signature

def isExternal (d : Declaration) : Bool :=
  match d.linkage with
  | .internal => false
  | .external _ => true

def isDefined (d : Declaration) : Bool := d.body.isSome

end Declaration

end RegisterBackend
