import RegisterBackend.Image.Decoding

/-!
The listing command: one line for each instruction of an image.
-/
namespace RegisterBackend

structure Listing where
  imagePath : String := ""
  limit : Option Nat := none
  showBytes : Bool := false
  deriving DecidableEq, Repr, Inhabited

structure CommandResult where
  exitCode : UInt32
  output : String
  errors : String
  deriving DecidableEq, Repr, Inhabited

namespace Listing

/-- Reads the arguments of the command; `none` if they make no sense. -/
def ofArguments? (l : Listing) : List String → Option Listing
  | [] => if l.imagePath = "" then none else some l
  | "-b" :: rest => { l with showBytes := true }.ofArguments? rest
  | "--bytes" :: rest => { l with showBytes := true }.ofArguments? rest
  | "-l" :: n :: rest => withLimit n.toList rest
  | "--limit" :: n :: rest => withLimit n.toList rest
  | argument :: rest =>
    match argument.toList with
    | '-' :: '-' :: 'l' :: 'i' :: 'm' :: 'i' :: 't' :: '=' :: n => withLimit n rest
    | '-' :: 'l' :: '=' :: n => withLimit n rest
    | '-' :: 'l' :: n => withLimit n rest
    | '-' :: _ => none
    | _ => if l.imagePath = "" then { l with imagePath := argument }.ofArguments? rest else none
where
  withLimit (n : List Char) (rest : List String) : Option Listing :=
    match count? n with
    | some limit => { l with limit := some limit }.ofArguments? rest
    | none => none

def padRight (width : Nat) (text : String) : String :=
  text ++ String.ofList (List.replicate (width - text.length) ' ')

def line (l : Listing) (code : List UInt8) (d : Decoded) : Except Fault String :=
  d.text.map fun text =>
    if l.showBytes then
      let raw := (code.drop d.offset).take d.size
      padRight 48 text ++ " ; " ++ String.intercalate " " (raw.map RegisterBackend.byteText)
    else text

/-- The lines up to the first instruction that cannot be shown, and what stopped there. -/
def lines (l : Listing) (code : List UInt8) : List Decoded → List String × Option Fault
  | [] => ([], none)
  | d :: rest =>
    match l.line code d with
    | .error fault => ([], some fault)
    | .ok line =>
      let (lines, fault) := l.lines code rest
      (line :: lines, fault)

def run (l : Listing) (image : Except String (List UInt8)) : CommandResult :=
  match image with
  | .error reason => ⟨1, "", s!"Error reading image '{l.imagePath}': {reason}\n"⟩
  | .ok code =>
    let (found, stopped) := decode code (l.limit.getD code.length)
    let (lines, fault) := l.lines code found
    let output := String.join (lines.map (· ++ "\n"))
    match fault, stopped with
    | some _, _ => ⟨101, output, "attempt to add with overflow\n"⟩
    | none, none => ⟨0, output, ""⟩
    | none, some e => ⟨1, output, s!"Disassembly error: {e.message}\n"⟩

def missingFile : String := "No such file or directory (os error 2)"

end Listing

end RegisterBackend
