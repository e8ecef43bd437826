import RegisterBackend.Machine.Word
import RegisterBackend.Storage.Position

/-!
The memory that homes and spilled values are taken from. Every area only grows.
-/
namespace RegisterBackend

def maxFrameSize : Nat := 0xFFFFFFFF

inductive FrameError where
  | unknownFrame (frame : FrameId)
  | tooLarge (frame : FrameId)
  deriving DecidableEq, Repr, Inhabited

def FrameError.name : FrameError → String
  | .unknownFrame _ => "UnknownFrame"
  | .tooLarge _ => "TooLarge"

def FrameError.message : FrameError → String
  | .unknownFrame frame => s!"frame {frame.index} does not exist"
  | .tooLarge frame => s!"frame {frame.index} would grow past {maxFrameSize} bytes"

structure Frames where
  sizes : Array Nat := #[]
  deriving DecidableEq, Repr, Inhabited

namespace Frames

/-- Starts a frame whose first bytes are taken; its size is kept in 32 bits. -/
def start (f : Frames) (taken : Nat) : FrameId × Frames :=
  (⟨f.sizes.size⟩, { f with sizes := f.sizes.push (alignUp taken wordSize % 0x100000000) })

def size? (f : Frames) (frame : FrameId) : Option Nat := f.sizes[frame.index]?

/-- Hands out `size` bytes, at least one word, at the end of a frame. -/
def allocate (f : Frames) (frame : FrameId) (size : Nat) : Except FrameError (StackSlot × Frames) :=
  match f.size? frame with
  | none => .error (.unknownFrame frame)
  | some offset =>
    let limit := offset + alignUp (max size 1) wordSize
    if maxFrameSize < limit then .error (.tooLarge frame)
    else .ok (.inFrame frame offset, { f with sizes := f.sizes.setIfInBounds frame.index limit })

end Frames

structure StaticSegment where
  used : Nat := 0
  deriving DecidableEq, Repr, Inhabited

namespace StaticSegment

/-- Hands out `size` bytes, at least one, aligned to at most a word, unless their end is no word. -/
def allocate (s : StaticSegment) (size align : Nat) : Option (Nat × StaticSegment) :=
  let offset := alignUp s.used (min (max align 1) wordSize)
  let used := offset + max size 1
  if used < wordLimit then some (offset, { used }) else none

def size (s : StaticSegment) : Nat := alignUp s.used wordSize

end StaticSegment

/-- Read-only blobs, placed after the code in this order. -/
structure ConstantPool where
  blobs : Array (List UInt8) := #[]
  deriving DecidableEq, Repr, Inhabited

namespace ConstantPool

def add (p : ConstantPool) (bytes : List UInt8) : ConstantId × ConstantPool :=
  (⟨p.blobs.size⟩, { blobs := p.blobs.push bytes })

def get? (p : ConstantPool) (id : ConstantId) : Option (List UInt8) := p.blobs[id.index]?

def toList (p : ConstantPool) : List (ConstantId × List UInt8) :=
  p.blobs.toList.mapIdx fun i bytes => (⟨i⟩, bytes)

end ConstantPool

end RegisterBackend
