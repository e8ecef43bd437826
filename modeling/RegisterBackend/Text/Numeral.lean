/-!
Numbers as text: reading decimal numbers, and bytes as pairs of hexadecimal digits.
-/
namespace RegisterBackend

def number? (cs : List Char) : Option Nat :=
  if cs.isEmpty || !cs.all Char.isDigit then none
  else some (cs.foldl (fun n c => n * 10 + (c.toNat - '0'.toNat)) 0)

/-- A number below `2 ^ 64`, which may have a plus sign in front. -/
def count? (cs : List Char) : Option Nat :=
  let digits := match cs with
    | '+' :: rest => rest
    | _ => cs
  (number? digits).filter (· < 0x10000000000000000)

/-- A head followed by a number in brackets, as in `frame0[8]`. -/
def indexed? (cs : List Char) : Option (List Char × Nat) :=
  match cs.dropWhile (· != '[') with
  | '[' :: inside =>
    match inside.reverse with
    | ']' :: digits => (number? digits.reverse).map (cs.takeWhile (· != '['), ·)
    | _ => none
  | _ => none

def hexText (width n : Nat) : String :=
  let digits := Nat.toDigits 16 n
  String.ofList (List.replicate (width - digits.length) '0' ++ digits)

def byteText (b : UInt8) : String := hexText 2 b.toNat

def hexDigit? (c : Char) : Option Nat :=
  if c.isDigit then some (c.toNat - '0'.toNat)
  else if 'a' ≤ c ∧ c ≤ 'f' then some (c.toNat - 'a'.toNat + 10)
  else none

def bytesOfHex? : List Char → Option (List UInt8)
  | [] => some []
  | [_] => none
  | a :: b :: rest =>
    match hexDigit? a, hexDigit? b, bytesOfHex? rest with
    | some high, some low, some bytes => some (UInt8.ofNat (high * 16 + low) :: bytes)
    | _, _, _ => none

end RegisterBackend
