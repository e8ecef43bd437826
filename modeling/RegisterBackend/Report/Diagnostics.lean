import RegisterBackend.Report.Cause

/-!
Located errors and warnings. A `Fault` is what stops a single step.
-/
namespace RegisterBackend

structure Location where
  file : String
  line : Nat
  deriving DecidableEq, Repr, Inhabited

namespace Location

def builtin : Location := ⟨"<builtin>", 0⟩

def text (loc : Location) : String := s!"{loc.file}:{loc.line}"

end Location

inductive CompileError where
  | rejected (loc : Location) (cause : Rejection)
  | escalated (loc : Location) (cause : Caution)
  | inconsistent (cause : Inconsistency)
  | unsupported (cause : Unsupported)
  deriving DecidableEq, Repr, Inhabited

namespace CompileError

def message : CompileError → String
  | .rejected loc cause => s!"{loc.text}: error: {cause.message}"
  | .escalated loc cause => s!"{loc.text}: error (from warning): {cause.message}"
  | .inconsistent cause => s!"internal compiler error: {cause.message}"
  | .unsupported cause => s!"internal compiler error: unsupported operation: {cause.message}"

/-- The error is the backend's fault, not the front end's. -/
def isInternal : CompileError → Bool
  | .rejected _ _ => false
  | .escalated _ _ => false
  | .inconsistent _ => true
  | .unsupported _ => true

def location? : CompileError → Option Location
  | .rejected loc _ => some loc
  | .escalated loc _ => some loc
  | .inconsistent _ => none
  | .unsupported _ => none

end CompileError

/-- How a step stops: with an error to report, or because a handle that it was given names
nothing or a sum leaves the range it is counted in, which leaves nothing sensible to report. -/
inductive Fault where
  | failed (error : CompileError)
  | overflow
  | noSuchValue (v : ValueId)
  | noSuchRegister (r : Register)
  deriving DecidableEq, Repr, Inhabited

structure Warning where
  loc : Location
  cause : Caution
  deriving DecidableEq, Repr, Inhabited

def Warning.text (w : Warning) : String := s!"{w.loc.text}: warning: {w.cause.message}"

structure Diagnostics where
  escalate : Bool
  warnings : List Warning := []
  deriving DecidableEq, Repr, Inhabited

/-- Records a warning, or gives it back as an error when warnings are escalated. -/
def Diagnostics.warn (d : Diagnostics) (loc : Location) (cause : Caution) :
    Except CompileError Diagnostics :=
  if d.escalate then .error (.escalated loc cause)
  else .ok { d with warnings := d.warnings ++ [⟨loc, cause⟩] }

end RegisterBackend
