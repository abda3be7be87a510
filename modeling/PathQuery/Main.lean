import PathQuery.CommandLine.Run
import PathQuery.CommandLine.Words
import PathQuery.Double.Layout

/-! # The program

Reads what a run needs and prints how it ends.
-/

namespace PathQuery
namespace CommandLine

/-- The number of a system error. -/
def codeOf : IO.Error → Nat
  | .noFileOrDirectory _ code _ => code.toNat
  | .permissionDenied _ code _ => code.toNat
  | .inappropriateType _ code _ => code.toNat
  | .invalidArgument _ code _ => code.toNat
  | .otherError code _ => code.toNat
  | _ => 0

/-- Reads the bytes of a document. -/
def readBytes (file : Option String) : IO ByteArray := do
  match file with
  | some name => IO.FS.readBinFile name
  | none => (← IO.getStdin).readBinToEnd

/-- Reads the text of a document. -/
def readText (file : Option String) : IO (Except ReadError String) := do
  try
    let bytes ← readBytes file
    return match String.fromUTF8? bytes with
      | some text => .ok text
      | none => .error .notText
  catch e => return .error (.ofCode (codeOf e))

/-- Prints the end of a run and gives its exit code. -/
def report (outcome : Outcome) : IO UInt32 := do
  IO.print outcome.output
  match outcome with
  | .failed message => IO.eprintln ("lpath: " ++ message)
  | .usage => IO.eprint usageText
  | .finished .. => pure ()
  return outcome.code.toUInt32

end CommandLine
end PathQuery

open PathQuery.CommandLine in
/-- The program itself. -/
def main (words : List String) : IO UInt32 := do
  match start .standard readArguments words with
  | .done outcome => report outcome
  | .reading file resume => report (resume (← readText file))
