import RegisterBackend.Image.Assembly
import RegisterBackend.Lowering.Function
import RegisterBackend.Module.Basic

/-!
A finished module: the instructions of all its functions and what is needed to make an image.
-/
namespace RegisterBackend

/-- Where the instructions of a function are: from `first` up to, but without, `last`. -/
structure ProgramFunction where
  name : String
  start : LabelId
  first : Nat
  last : Nat
  deriving DecidableEq, Repr, Inhabited

structure Program where
  instrs : List Instr
  layout : FrameLayout
  blobs : List (ConstantId × List UInt8)
  functions : List ProgramFunction
  optimize : Bool
  warnings : List Warning
  statistics : Statistics
  deriving Inhabited

namespace Program

def functionInstrs? (p : Program) (name : String) : Option (List Instr) :=
  (p.functions.find? (·.name == name)).map fun f => (p.instrs.take f.last).drop f.first

def assemble (p : Program) : Except AssemblyError Image :=
  Assembler.assemble ⟨p.layout, p.optimize⟩ p.instrs p.blobs

def imageStatistics (p : Program) : Statistics :=
  match p.assemble with
  | .ok image => p.statistics.setCodeSize image.size
  | .error _ => p.statistics

end Program

namespace Module

/-- The first function that is neither defined here nor provided by the host. -/
def undefined? (m : Module) : Option Declaration :=
  m.functions.toList.find? fun decl => !decl.isExternal && !decl.isDefined

def context (m : Module) : Context :=
  { options := m.options
    values := m.values
    frames := m.frames
    statics := m.statics
    constants := m.constants }

def programFunction? (decl : Declaration) : Option (Nat × Nat) → Option ProgramFunction
  | some (first, last) => some ⟨decl.name, decl.start, first, last⟩
  | none => none

def finish (m : Module) : Except Fault Program :=
  match m.undefined? with
  | some decl => .error (.failed (.rejected decl.loc (.neverDefined decl.name)))
  | none =>
    match (Gen.lowerModule m.functions m.entry).run m.context with
    | (.error fault, _) => .error fault
    | (.ok ranges, c) =>
      if wordLimit ≤ c.statics.size then .error .overflow
      else .ok { instrs := c.code.toList
                 layout := ⟨c.frames.sizes, c.statics.size⟩
                 blobs := c.constants.toList
                 functions := (m.functions.toList.zipWith programFunction? ranges).filterMap id
                 optimize := m.options.optimize
                 warnings := m.diagnostics.warnings
                 statistics := c.statistics }

end Module

end RegisterBackend
