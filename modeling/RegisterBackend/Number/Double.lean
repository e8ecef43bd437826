import RegisterBackend.Machine.Word

/-!
Double-precision numbers as bit patterns, and rounding to single precision.
-/
namespace RegisterBackend

/-- What a double stands for. A finite one is `mantissa * 2 ^ exponent` with a sign. -/
inductive Double where
  | nan
  | infinity (negative : Bool)
  | finite (negative : Bool) (mantissa : Nat) (exponent : Int)
  deriving DecidableEq, Repr, Inhabited

namespace Double

def isNegative (bits : Word) : Bool := bits.getLsbD 63

def exponentField (bits : Word) : Nat := (bits.toNat >>> 52) % 2048

def fractionField (bits : Word) : Nat := bits.toNat % (1 <<< 52)

def ofBits (bits : Word) : Double :=
  let fraction := fractionField bits
  match exponentField bits with
  | 0 => .finite (isNegative bits) fraction (-1074)
  | 2047 => if fraction = 0 then .infinity (isNegative bits) else .nan
  | e => .finite (isNegative bits) (fraction + 1 <<< 52) ((e : Int) - 1075)

def bitLength (n : Nat) : Nat := if n = 0 then 0 else n.log2 + 1

/-- `n / d` rounded to the nearest integer, a tie to the even one. -/
def roundDiv (n d : Nat) : Nat :=
  let q := n / d
  let r := n % d
  if 2 * r < d then q
  else if d < 2 * r then q + 1
  else if q % 2 = 0 then q else q + 1

/-- `n * 2 ^ e` for an `e` that may be negative, rounded to an integer. -/
def scaleRound (n : Nat) (e : Int) : Nat :=
  if 0 ≤ e then n <<< e.toNat else roundDiv n (1 <<< (-e).toNat)

def signBit (negative : Bool) : Word := if negative then BitVec.twoPow 64 63 else 0

/-- The bits of `n * 2 ^ u`, where `n` has at most 53 digits and the result is normal. -/
def normalBits (negative : Bool) (n : Nat) (u : Int) : Word :=
  if n = 0 then signBit negative
  else
    let length := bitLength n
    let exponent := (u + length + 1022).toNat
    let fraction := n <<< (53 - length) - 1 <<< 52
    signBit negative ||| BitVec.ofNat 64 (exponent <<< 52 + fraction)

def infinityBits (negative : Bool) : Word :=
  signBit negative ||| BitVec.ofNat 64 (2047 <<< 52)

/-- The double nearest to `bits` among those of single precision. A single has 24 binary
digits, none below `2 ^ -149`, and overflows at `2 ^ 128`. A value that is not a number keeps
its sign and the upper part of its fraction and becomes quiet. -/
def roundToSingle (bits : Word) : Word :=
  match ofBits bits with
  | .nan =>
    let kept := (fractionField bits >>> 29) % (1 <<< 22) + 1 <<< 22
    infinityBits (isNegative bits) ||| BitVec.ofNat 64 (kept <<< 29)
  | .infinity _ => bits
  | .finite negative mantissa exponent =>
    let unit := max (exponent + bitLength mantissa - 24) (-149)
    let n := scaleRound mantissa (exponent - unit)
    if 128 < unit + bitLength n then infinityBits negative
    else normalBits negative n unit

end Double

end RegisterBackend
