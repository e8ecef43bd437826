import RegisterBackend.Report.Diagnostics

/-!
Which value each register holds, and which registers are locked.
-/
namespace RegisterBackend

structure RegisterFile where
  ints : Vector (Option ValueId) Bank.size := Vector.replicate _ none
  floats : Vector (Option ValueId) Bank.size := Vector.replicate _ none
  locked : RegisterSet := .empty
  deriving DecidableEq, Inhabited

namespace RegisterFile

def empty : RegisterFile := {}

def occupants (f : RegisterFile) : Bank → Vector (Option ValueId) Bank.size
  | .int => f.ints
  | .float => f.floats

def withOccupants (f : RegisterFile) (bank : Bank)
    (occupants : Vector (Option ValueId) Bank.size) : RegisterFile :=
  match bank with
  | .int => { f with ints := occupants }
  | .float => { f with floats := occupants }

/-- The value in a register; registers that the machine does not have hold none. -/
def occupant? (f : RegisterFile) (r : Register) : Option ValueId :=
  ((f.occupants r.bank)[r.id.toNat]?).join

def occupant (f : RegisterFile) (r : Register) : Except Fault (Option ValueId) :=
  if r.inRange then .ok (f.occupant? r) else .error (.noSuchRegister r)

def isEmpty (f : RegisterFile) (r : Register) : Bool := (f.occupant? r).isNone

def isLocked (f : RegisterFile) (r : Register) : Bool := f.locked.contains r

def setLocked (f : RegisterFile) (r : Register) (locked : Bool) : RegisterFile :=
  { f with locked := f.locked.put r locked }

def setOccupant (f : RegisterFile) (r : Register) (occupant : Option ValueId) : RegisterFile :=
  f.withOccupants r.bank ((f.occupants r.bank).setIfInBounds r.id.toNat occupant)

def bind (f : RegisterFile) (r : Register) (v : ValueId) : Except Inconsistency RegisterFile :=
  if !r.inRange then .error (.registerOutOfRange r)
  else match f.occupant? r with
    | some holder => .error (.registerHeld r holder)
    | none => .ok (f.setOccupant r (some v))

def unbind (f : RegisterFile) (r : Register) : Except Inconsistency (ValueId × RegisterFile) :=
  if !r.inRange then .error (.registerOutOfRange r)
  else match f.occupant? r with
    | some v => .ok (v, f.setOccupant r none)
    | none => .error (.releasedEmpty r)

def free (f : RegisterFile) (bank : Bank) : List Register :=
  bank.registers.filter fun r => f.isEmpty r && !f.isLocked r

def occupied (f : RegisterFile) (bank : Bank) : List (Register × ValueId) :=
  bank.registers.filterMap fun r => (f.occupant? r).map (r, ·)

def allOccupied (f : RegisterFile) : List (Register × ValueId) :=
  f.occupied .int ++ f.occupied .float

def allLocked (f : RegisterFile) : List Register :=
  (Bank.registers .int ++ Bank.registers .float).filter f.isLocked

def unlockedCount (f : RegisterFile) : Nat :=
  ((Bank.registers .int ++ Bank.registers .float).filter fun r => !f.isLocked r).length

end RegisterFile

end RegisterBackend
