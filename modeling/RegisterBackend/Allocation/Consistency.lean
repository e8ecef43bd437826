import RegisterBackend.Allocation.State

/-!
The check of the allocator's bookkeeping. A temporary without further uses may keep a stale position
outside the registers.
-/
namespace RegisterBackend

namespace Value

def isStale (v : Value) : Bool :=
  v.isUnnamed && v.references == 0 && v.register?.isNone

end Value

namespace Context

/-- Every occupant reports its register and belongs into the register's bank. -/
def checkOccupants (c : Context) : List (Register × ValueId) → Except Fault Unit
  | [] => .ok ()
  | (r, v) :: rest =>
    match c.values.get? v with
    | none => .error (.noSuchValue v)
    | some value =>
      if value.position ≠ some (.register r) then
        .error (.failed (.inconsistent (.occupantElsewhere r v value.position)))
      else if value.ty.bank ≠ r.bank then
        .error (.failed (.inconsistent (.occupantBank v value.ty r)))
      else c.checkOccupants rest

def checkOwnership (c : Context) (v : ValueId) : Position → Except Fault Unit
  | .register r =>
    match c.registers.occupant r with
    | .error fault => .error fault
    | .ok occupant =>
      if occupant = some v then .ok ()
      else .error (.failed (.inconsistent (.registerNotOwned v r)))
  | _ => .ok ()

/-- The positions of the values are their own; `seen` are those of earlier values. -/
def checkPositions (c : Context) :
    List (ValueId × Value) → (seen : List (Position × ValueId)) → Except Fault Unit
  | [], _ => .ok ()
  | (v, value) :: rest, seen =>
    match value.position with
    | none => c.checkPositions rest seen
    | some position =>
      if value.isStale then c.checkPositions rest seen
      else
        match c.checkOwnership v position with
        | .error fault => .error fault
        | .ok () =>
          match seen.lookup position with
          | some first => .error (.failed (.inconsistent (.sharedPosition first v position)))
          | none => c.checkPositions rest ((position, v) :: seen)

def check (c : Context) : Except Fault Unit :=
  match c.checkOccupants c.registers.allOccupied with
  | .error fault => .error fault
  | .ok () => c.checkPositions c.values.toList []

end Context

def Gen.checkConsistency : Gen Unit := do
  match (← get).check with
  | .ok () => return
  | .error fault => throw fault

end RegisterBackend
