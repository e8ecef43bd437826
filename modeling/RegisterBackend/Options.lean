/-!
Switches of the backend and how they are read from named settings.
-/
namespace RegisterBackend

structure Options where
  optimize : Bool := true
  escalateWarnings : Bool := false
  emitComments : Bool := false
  emitLocations : Bool := true
  verify : Bool := true
  deriving DecidableEq, Repr, Inhabited

/-- The code points with the Unicode property `White_Space`. -/
def isBlank (c : Char) : Bool :=
  let n := c.toNat
  (0x9 ≤ n && n ≤ 0xD) || n == 0x20 || n == 0x85 || n == 0xA0 || n == 0x1680
    || (0x2000 ≤ n && n ≤ 0x200A) || n == 0x2028 || n == 0x2029 || n == 0x202F
    || n == 0x205F || n == 0x3000

def trimBlanks (cs : List Char) : List Char :=
  ((cs.dropWhile isBlank).reverse.dropWhile isBlank).reverse

namespace Options

/-- Reads a truth value; blanks around it and the case of its letters do not matter. -/
def readFlag? (raw : String) : Option Bool :=
  let word := String.ofList ((trimBlanks raw.toList).map Char.toLower)
  if ["1", "true", "on", "yes"].contains word then some true
  else if ["0", "false", "off", "no"].contains word then some false
  else none

def setting (lookup : String → Option String) (name : String) (current : Bool) : Bool :=
  ((lookup name).bind readFlag?).getD current

def ofSettings (lookup : String → Option String) : Options :=
  let base : Options := {}
  { optimize := setting lookup "OPT" base.optimize
    escalateWarnings := setting lookup "WERROR" base.escalateWarnings
    emitComments := setting lookup "COMMENTS" base.emitComments
    emitLocations := setting lookup "DEBUG_LOCATIONS" base.emitLocations
    verify := setting lookup "VERIFY" base.verify }

end Options

end RegisterBackend
