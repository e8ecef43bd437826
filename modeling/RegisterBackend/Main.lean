import RegisterBackend.Image.Listing

/-!
The command line of the listing tool: it prints the instructions of an image file.
-/
namespace RegisterBackend

def readImage (path : String) : IO (Except String (List UInt8)) := do
  try
    let bytes ← IO.FS.readBinFile path
    return .ok bytes.toList
  catch
    | .noFileOrDirectory .. => return .error Listing.missingFile
    | e => return .error (toString e)

def usage : String := "Usage: [-b|--bytes] [-l|--limit N] IMAGE\n"

def runListing (arguments : List String) : IO UInt32 := do
  match Listing.ofArguments? {} arguments with
  | none =>
    (← IO.getStderr).putStr usage
    return 2
  | some listing =>
    let result := listing.run (← readImage listing.imagePath)
    (← IO.getStdout).putStr result.output
    (← IO.getStderr).putStr result.errors
    return result.exitCode

end RegisterBackend

def main (arguments : List String) : IO UInt32 := RegisterBackend.runListing arguments
