/-!
Machine words: 64-bit patterns and their eight little-endian bytes.
-/
namespace RegisterBackend

abbrev Word := BitVec 64

def wordSize : Nat := 8

/-- The first number that is no word. -/
def wordLimit : Nat := 0x10000000000000000

/-- The least multiple of `align` that is not below `n`, for a positive `align`. -/
def alignUp (n align : Nat) : Nat :=
  (n + (align - 1)) / align * align

def Word.bytes (w : Word) : List UInt8 :=
  (List.range 8).map fun i => UInt8.ofNat (w.toNat >>> (8 * i))

def littleEndian : List UInt8 → Nat
  | [] => 0
  | b :: rest => b.toNat + 256 * littleEndian rest

def Word.ofBytes (bytes : List UInt8) : Word :=
  BitVec.ofNat 64 (littleEndian bytes)

def Word.signedText (w : Word) : String :=
  toString w.toInt

end RegisterBackend
