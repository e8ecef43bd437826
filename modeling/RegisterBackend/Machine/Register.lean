import RegisterBackend.Text.Numeral

/-!
The two register banks of the machine and finite sets of registers. A set holds 64 flags for each
bank.
-/
namespace RegisterBackend

inductive Bank where
  | int
  | float
  deriving DecidableEq, Repr, Hashable, Inhabited

def Bank.all : List Bank := [.int, .float]

def Bank.name : Bank → String
  | .int => "Int"
  | .float => "Float"

def Bank.size : Nat := 16

structure Register where
  bank : Bank
  id : UInt8
  deriving DecidableEq, Repr, Hashable, Inhabited

namespace Register

def int (id : UInt8) : Register := ⟨.int, id⟩

def float (id : UInt8) : Register := ⟨.float, id⟩

def isFloat (r : Register) : Bool := r.bank == .float

def inRange (r : Register) : Bool := r.id.toNat < Bank.size

def text (r : Register) : String :=
  match r.bank with
  | .int => "r" ++ toString r.id.toNat
  | .float => "f" ++ toString r.id.toNat

def ofText? (s : String) : Option Register :=
  match s.toList with
  | 'r' :: digits => (number? digits).map fun n => .int (UInt8.ofNat n)
  | 'f' :: digits => (number? digits).map fun n => .float (UInt8.ofNat n)
  | _ => none

end Register

def Bank.registers (bank : Bank) : List Register :=
  (List.range Bank.size).map fun i => ⟨bank, UInt8.ofNat i⟩

structure RegisterSet where
  ints : BitVec 64 := 0
  floats : BitVec 64 := 0
  deriving DecidableEq, Repr, Inhabited

namespace RegisterSet

def empty : RegisterSet := {}

def flags (s : RegisterSet) : Bank → BitVec 64
  | .int => s.ints
  | .float => s.floats

def withFlags (s : RegisterSet) (bank : Bank) (flags : BitVec 64) : RegisterSet :=
  match bank with
  | .int => { s with ints := flags }
  | .float => { s with floats := flags }

def contains (s : RegisterSet) (r : Register) : Bool :=
  (s.flags r.bank).getLsbD r.id.toNat

def insert (s : RegisterSet) (r : Register) : RegisterSet :=
  s.withFlags r.bank (s.flags r.bank ||| BitVec.twoPow 64 r.id.toNat)

def erase (s : RegisterSet) (r : Register) : RegisterSet :=
  s.withFlags r.bank (s.flags r.bank &&& ~~~(BitVec.twoPow 64 r.id.toNat))

def put (s : RegisterSet) (r : Register) (present : Bool) : RegisterSet :=
  if present then s.insert r else s.erase r

def toList (s : RegisterSet) (bank : Bank) : List Register :=
  ((List.range 64).filter fun i => (s.flags bank).getLsbD i).map fun i => ⟨bank, UInt8.ofNat i⟩

def count (s : RegisterSet) (bank : Bank) : Nat :=
  (s.toList bank).length

end RegisterSet

end RegisterBackend
