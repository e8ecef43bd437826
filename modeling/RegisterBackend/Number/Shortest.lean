import RegisterBackend.Number.Double

/-!
Decimal text of doubles: the fewest digits that read back as the same double.
-/
namespace RegisterBackend

structure Decimal where
  digits : Nat
  exponent : Int
  deriving DecidableEq, Repr, Inhabited

namespace Decimal

/-- The numbers that read back as a double: those between `low` and `high`, which are counted
in units of `1 / denominator` as `value` is. The ends belong to them if `closed`. -/
structure Interval where
  low : Nat
  value : Nat
  high : Nat
  denominator : Nat
  closed : Bool
  deriving DecidableEq, Repr, Inhabited

/-- Halfway to the neighbours of a positive double. Below a power of two they are half as far
apart as above it. Halves are read as the even neighbour. -/
def Interval.ofFinite (mantissa : Nat) (exponent : Int) : Interval :=
  let scale := 1 <<< (exponent - 2).toNat
  { low := (4 * mantissa - if mantissa = 1 <<< 52 then 1 else 2) * scale
    value := 4 * mantissa * scale
    high := (4 * mantissa + 2) * scale
    denominator := 1 <<< (2 - exponent).toNat
    closed := mantissa % 2 = 0 }

def Interval.inUnits (i : Interval) (e : Int) : Interval :=
  let scale := Nat.pow 10 (-e).toNat
  { i with
    low := i.low * scale
    value := i.value * scale
    high := i.high * scale
    denominator := i.denominator * Nat.pow 10 e.toNat }

def Interval.contains (i : Interval) (n : Nat) : Bool :=
  let scaled := n * i.denominator
  if i.closed then i.low ≤ scaled && scaled ≤ i.high
  else i.low < scaled && scaled < i.high

/-- The integer of the interval that is nearest to the value, the upper one of two. -/
def Interval.nearest? (i : Interval) : Option Nat :=
  let below := i.value / i.denominator
  let above := below + 1
  let up := i.denominator ≤ 2 * (i.value % i.denominator)
  match i.contains below, i.contains above with
  | true, true => some (if up then above else below)
  | true, false => some below
  | false, true => some above
  | false, false => none

/-- The number of digits before the point; for a number below one, less the zeros that
follow the point. -/
def Interval.magnitude (i : Interval) : Int :=
  if i.denominator ≤ i.value then (Nat.toDigits 10 (i.value / i.denominator)).length
  else
    match (List.range 400).find? fun j => i.denominator ≤ i.value * Nat.pow 10 j with
    | some j => 1 - (j : Int)
    | none => 0

/-- The shortest decimal in the interval. Seventeen digits always suffice. -/
def Interval.shortest (i : Interval) : Decimal :=
  let found := (List.range 17).findSome? fun count =>
    let e := i.magnitude - (count + 1 : Nat)
    ((i.inUnits e).nearest?).map fun digits => (⟨digits, e⟩ : Decimal)
  found.getD ⟨0, 0⟩

def text (d : Decimal) : String :=
  let cs := Nat.toDigits 10 d.digits
  if 0 ≤ d.exponent then String.ofList (cs ++ List.replicate d.exponent.toNat '0')
  else
    let places := (-d.exponent).toNat
    let padded := List.replicate (places + 1 - cs.length) '0' ++ cs
    let whole := padded.take (padded.length - places)
    let fraction := (padded.drop (padded.length - places)).reverse.dropWhile (· == '0')
    if fraction.isEmpty then String.ofList whole
    else String.ofList (whole ++ '.' :: fraction.reverse)

end Decimal

def Double.text : Double → String
  | .nan => "NaN"
  | .infinity negative => if negative then "-inf" else "inf"
  | .finite negative mantissa exponent =>
    let digits :=
      if mantissa = 0 then "0"
      else (Decimal.Interval.ofFinite mantissa exponent).shortest.text
    if negative then "-" ++ digits else digits

end RegisterBackend
