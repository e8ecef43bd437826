import RegisterBackend.Allocation.Movement

/-!
Rules for labels, jumps and branches. Before a label or a jump all registers are forgotten; a branch
only writes back.
-/
namespace RegisterBackend

namespace Gen

def settleAtJoin : Gen Unit := do
  flushAll
  dropAll true

def lowerLabel (label : LabelId) : Gen Unit := do
  settleAtJoin
  emit (.label label)

def lowerJump (label : LabelId) : Gen Unit := do
  settleAtJoin
  emit (.jump label)

def lowerBranch (cond : ValueId) (target : LabelId) (jumpIf spillAll : Bool) : Gen Unit := do
  let r ← useInRegister cond
  holding r do
    flushAll
    if spillAll then vacateAll
    emit (.jumpIf r target jumpIf)

/-- Forgets one dirty variable on the way out of a function: a local dies with its frame,
anything else is written back. -/
def retireOccupant (v : ValueId) : Gen Unit := do
  let value ← valueOf v
  match value.named? with
  | none => return
  | some named =>
    if named.dirty then
      if named.storage = .auto then updateValue v (·.setDirty false)
      else flush v

def retireRegisters : Gen Unit := do
  for (_, v) in (← get).registers.allOccupied do
    retireOccupant v
  dropAll false

end Gen

end RegisterBackend
