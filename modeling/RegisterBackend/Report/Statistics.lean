/-!
Counters of a compilation and their text.
-/
namespace RegisterBackend

structure Statistics where
  functions : Nat := 0
  operations : Nat := 0
  kinds : List (String × Nat) := []
  largestName : String := ""
  largestSize : Nat := 0
  registers : Nat := 0
  spills : Nat := 0
  calls : Nat := 0
  codeSize : Nat := 0
  deriving DecidableEq, Repr, Inhabited

namespace Statistics

def bump (kind : String) : List (String × Nat) → List (String × Nat)
  | [] => [(kind, 1)]
  | (name, n) :: rest => if name = kind then (name, n + 1) :: rest else (name, n) :: bump kind rest

/-- A function of `size` instructions was lowered; a strictly larger one becomes the largest. -/
def addFunction (s : Statistics) (name : String) (size : Nat) : Statistics :=
  let s := { s with functions := s.functions + 1 }
  if s.largestSize < size then { s with largestName := name, largestSize := size } else s

def addOperation (s : Statistics) (kind : String) : Statistics :=
  { s with operations := s.operations + 1, kinds := bump kind s.kinds }

def addRegister (s : Statistics) : Statistics := { s with registers := s.registers + 1 }

def addSpill (s : Statistics) : Statistics := { s with spills := s.spills + 1 }

def addCall (s : Statistics) : Statistics := { s with calls := s.calls + 1 }

def setCodeSize (s : Statistics) (size : Nat) : Statistics := { s with codeSize := size }

def listedBefore (a b : String × Nat) : Bool :=
  b.2 < a.2 || (a.2 == b.2 && !(b.1 < a.1))

def shownKinds (s : Statistics) : List (String × Nat) :=
  (s.kinds.mergeSort listedBefore).take 10

def lines (s : Statistics) : List String :=
  ["Compilation Session Statistics:",
   s!"  Functions lowered: {s.functions}",
   s!"  Operations lowered: {s.operations}",
   s!"  Code size: {s.codeSize} bytes",
   s!"  Registers allocated: {s.registers}",
   s!"  Spills generated: {s.spills}",
   s!"  Calls lowered: {s.calls}"]
  ++ (if s.largestName = "" then []
      else [s!"  Largest function: {s.largestName} ({s.largestSize} instructions)"])
  ++ (if s.kinds.isEmpty then []
      else "  Operation breakdown:" :: s.shownKinds.map fun (kind, n) => s!"    {kind}: {n}")

def text (s : Statistics) : String := String.join (s.lines.map (· ++ "\n"))

end Statistics

end RegisterBackend
