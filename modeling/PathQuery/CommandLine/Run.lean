import PathQuery.CommandLine.Arguments
import PathQuery.TextInterface

/-! # Runs of the program

A run compiles its path, then reads its document from a file or from standard
input, and then does what its arguments say.  What it does before it needs the document
is separate from what it does with it (`Plan`), so that the program around it has
nothing to do but to read and to print.  How JSON texts and the words of the command line
are read is left open (`JsonTexts`, `ArgumentReader`).
-/

namespace PathQuery
namespace CommandLine

/-- The end of a run. -/
inductive Outcome
  /-- The run printed a text and ends with this code. -/
  | finished (code : Nat) (output : String)
  /-- The run ends with a message and without output. -/
  | failed (message : String)
  /-- The arguments are wrong. -/
  | usage
deriving DecidableEq, Repr

namespace Outcome

/-- The exit code of the program. -/
def code : Outcome → Nat
  | .finished code _ => code
  | .failed _ | .usage => 2

/-- What the program prints on standard output. -/
def output : Outcome → String
  | .finished _ output => output
  | .failed _ | .usage => ""

end Outcome

/-- Why a document cannot be read. -/
inductive ReadError
  /-- There is nothing with that name. -/
  | missing
  /-- Reading is not permitted. -/
  | denied
  /-- Something on the way is no directory. -/
  | notDirectory
  /-- It is a directory. -/
  | directory
  /-- It is no text in UTF-8. -/
  | notText
  /-- Another error of the system. -/
  | other (code : Nat)
deriving DecidableEq, Repr

namespace ReadError

/-- The error that the system numbers so. -/
def ofCode (code : Nat) : ReadError :=
  if code = 2 then .missing
  else if code = 13 then .denied
  else if code = 20 then .notDirectory
  else if code = 21 then .directory
  else .other code

/-- What an error says. -/
def text : ReadError → String
  | .missing => "No such file or directory (os error 2)"
  | .denied => "Permission denied (os error 13)"
  | .notDirectory => "Not a directory (os error 20)"
  | .directory => "Is a directory (os error 21)"
  | .notText => "stream did not contain valid UTF-8"
  | .other code => "os error " ++ String.ofList (Nat.toDigits 10 code)

end ReadError

/-- What a run still needs. -/
inductive Plan
  /-- Nothing. -/
  | done (outcome : Outcome)
  /-- The text of its document, from a file or from standard input, or the reason why
  that cannot be read. -/
  | reading (file : Option String) (resume : Except ReadError String → Outcome)

variable [DoubleText] (texts : JsonTexts)

/-- Prints a document. -/
def printed (compact : Bool) (doc : Json) : Outcome :=
  match if compact then texts.compact doc else texts.pretty doc with
  | .ok text => .finished 0 (text ++ "\n")
  | .error e => .failed ("error serializing output: " ++ e)

/-- The end of a run whose path cannot be applied. -/
def notApplied (e : EvalError) : Outcome :=
  .failed (TextInterface.wording e)

/-- Prints the document after an edit. -/
def edited (compact : Bool) (edit : Edit) : Outcome :=
  match TextInterface.documentOf edit with
  | .ok doc => printed texts compact doc
  | .error message => .failed message

/-- Does what the arguments say with a document. -/
def apply (arguments : Arguments) (p : Path) (doc : Json) : Outcome :=
  let options : Options := ⟨arguments.maxDepth⟩
  if arguments.exist then
    match p.contains options doc with
    | .ok true => .finished 0 "true\n"
    | .ok false => .finished 1 "false\n"
    | .error e => notApplied e
  else
    match arguments.set with
    | some json =>
      match texts.read json with
      | .ok value => edited texts arguments.compact (p.set options value.always doc)
      | .error e => .failed ("error parsing --set value: " ++ e)
    | none =>
      if arguments.remove then edited texts arguments.compact (p.remove options doc)
      else
        match p.query options doc with
        | .ok found =>
          let shown := if arguments.paths then TextInterface.locationsOf else TextInterface.valuesOf
          printed texts arguments.compact (shown found)
        | .error e => notApplied e

/-- Goes on with the text of the document. -/
def resume (arguments : Arguments) (p : Path) (input : Except ReadError String) : Outcome :=
  match input with
  | .error e =>
    match arguments.file with
    | some file => .failed ("error reading file '" ++ file ++ "': " ++ e.text)
    | none => .failed ("error reading stdin: " ++ e.text)
  | .ok text =>
    match texts.read text with
    | .ok doc => apply texts arguments p doc
    | .error e => .failed ("error parsing JSON: " ++ e)

/-- Compiles the path of a run and says what it needs then. -/
def plan (arguments : Arguments) : Plan :=
  match Path.compile ⟨arguments.maxDepth⟩ arguments.path with
  | .error e => .done (.failed ("error compiling path: " ++ e.text))
  | .ok p =>
    if arguments.canonical then .done (.finished 0 (p.canonical ++ "\n"))
    else .reading arguments.file (resume texts arguments p)

variable (read : ArgumentReader)

/-- Starts the program with the words of its command line. -/
def start (words : List String) : Plan :=
  match read words with
  | .ok arguments => plan texts arguments
  | .error .usage => .done .usage
  | .error (.shown text) => .done (.finished 0 text)

/-- Runs the program, given its standard input and the files around it. -/
def run (words : List String) (input : String) (files : String → Except ReadError String) :
    Outcome :=
  match start texts read words with
  | .done outcome => outcome
  | .reading (some file) resume => resume (files file)
  | .reading none resume => resume (.ok input)

end CommandLine
end PathQuery
