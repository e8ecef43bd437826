import RegisterBackend.Image.Encoding

/-!
The first pass of assembly: which instructions are left out, and at which byte each other one
starts.
-/
namespace RegisterBackend

structure FrameLayout where
  frameSizes : Array Nat := #[]
  staticSize : Nat := 0
  deriving DecidableEq, Repr, Inhabited

namespace FrameLayout

def frameSize (layout : FrameLayout) (frame : FrameId) : Except AssemblyError Nat :=
  match layout.frameSizes[frame.index]? with
  | some size => .ok size
  | none => .error (.unknownFrame frame)

def displacement (layout : FrameLayout) (slot : StackSlot) : Except AssemblyError Int :=
  match slot.frame? with
  | some frame => (layout.frameSize frame).map slot.displacement
  | none => .ok (slot.displacement 0)

def stackAmount (layout : FrameLayout) : StackAmount → Except AssemblyError Int
  | .enter frame => (layout.frameSize frame).map fun size => (size : Int) - 8
  | .leave frame => (layout.frameSize frame).map fun size => 8 - (size : Int)
  | .statics => .ok layout.staticSize

end FrameLayout

structure Assembler where
  layout : FrameLayout
  optimize : Bool
  deriving DecidableEq, Repr, Inhabited

structure Placed where
  instr : Instr
  position : Nat
  size : Nat
  deriving DecidableEq, Repr, Inhabited

namespace Assembler

/-- The instruction is left out. Moves of the stack pointer are judged by the final sizes. -/
def elides (a : Assembler) (instr : Instr) : Except AssemblyError Bool :=
  if !a.optimize then .ok false
  else match instr with
    | .stackAdjust amount => (a.layout.stackAmount amount).map (· == 0)
    | instr => .ok instr.isNoop

def sizeOf (a : Assembler) (instr : Instr) : Except AssemblyError Nat :=
  (a.elides instr).map fun elided => if elided then 0 else instr.nominalSize

/-- Places `program` from `position` on; `seen` are the labels before it. -/
def placeFrom (a : Assembler) :
    (program : List Instr) → (position : Nat) → (seen : List LabelId) →
    Except AssemblyError (List Placed)
  | [], _, _ => .ok []
  | instr :: rest, position, seen =>
    match a.sizeOf instr with
    | .error e => .error e
    | .ok size =>
      match instr with
      | .label id =>
        if id ∈ seen then .error (.labelTwice id)
        else (a.placeFrom rest (position + size) (id :: seen)).map (⟨instr, position, size⟩ :: ·)
      | _ => (a.placeFrom rest (position + size) seen).map (⟨instr, position, size⟩ :: ·)

def withBlobs (instrs : List Instr) (blobs : List (ConstantId × List UInt8)) : List Instr :=
  instrs ++ blobs.map fun (id, bytes) => .data id bytes

def place (a : Assembler) (instrs : List Instr) (blobs : List (ConstantId × List UInt8)) :
    Except AssemblyError (List Placed) :=
  a.placeFrom (withBlobs instrs blobs) 0 []

end Assembler

def labelOffsets (placed : List Placed) : List (LabelId × Nat) :=
  placed.filterMap fun p =>
    match p.instr with
    | .label id => some (id, p.position)
    | _ => none

def constantOffsets (placed : List Placed) : List (ConstantId × Nat) :=
  (placed.filterMap fun p =>
    match p.instr with
    | .data id _ => some (id, p.position)
    | _ => none).reverse

end RegisterBackend
