import PathQuery.CommandLine.Arguments
import PathQuery.Text.Integer

/-! # Reading the words of a command line

Words are read from left to right, and the first thing that is wrong by itself, or given
twice, or that asks for the version or for help, decides.  Options come in a long
form, or one-letter options in one word behind a single hyphen; two hyphens alone
end them.  What the words say together is looked at when all are read: there has
to be a path, and at most one mode.
-/

namespace PathQuery
namespace CommandLine

/-- The text of the version. -/
def versionText : String := "lpath 0.1.0\n"

/-- How the program is called. -/
def usageText : String := "Usage: lpath [OPTIONS] <QUERY> [FILE]\n"

/-- The text of the help. -/
def helpText : String :=
  "Query and edit JSON documents with path expressions\n\n" ++ usageText ++ "\n" ++
  "Arguments:\n" ++
  "  <QUERY>  Path query, e.g. \"$.store.book[?(@.price < 10)].title\"\n" ++
  "  [FILE]   Input JSON file (reads from stdin if omitted)\n\n" ++
  "Options:\n" ++
  "      --paths          Print the location of each match instead of its value\n" ++
  "      --exists         Print whether anything matches; exit with status 1 when nothing does\n" ++
  "      --set <JSON>     Replace the matched values (or create the last step) " ++
  "and print the document\n" ++
  "      --remove         Delete the matched values and print the document\n" ++
  "      --canonical      Print the canonical text of the compiled path and exit\n" ++
  "  -c, --compact        Print JSON on a single line\n" ++
  "      --max-depth <N>  Maximum filter nesting and deep-scan document depth [default: 128]\n" ++
  "  -v, --verbose        Log at debug level (RUST_LOG overrides)\n" ++
  "  -h, --help           Print help\n" ++
  "  -V, --version        Print version\n"

/-- What an option asks the program to do with the matches. -/
inductive Mode
  | paths
  | exist
  | set (json : String)
  | remove
  | canonical
deriving DecidableEq, Repr

/-- The arguments of a run in a mode. -/
def Mode.onto (arguments : Arguments) : Mode → Arguments
  | .paths => { arguments with paths := true }
  | .exist => { arguments with exist := true }
  | .set json => { arguments with set := some json }
  | .remove => { arguments with remove := true }
  | .canonical => { arguments with canonical := true }

/-- What the words so far have given, the last one first: the modes, by the names
of their options, and the positional arguments. -/
structure Draft where
  modes : List (String × Mode) := []
  compact : Bool := false
  verbose : Bool := false
  maxDepth : Option Nat := none
  positional : List String := []
deriving DecidableEq, Repr

/-- Reads a limit: digits, behind a plus or not, that fit a word. -/
def readLimit? (text : String) : Option Nat :=
  let digits := match text.toList with
    | '+' :: rest => rest
    | all => all
  (Text.readNat? digits).filter fun n => n < UInt64.size

namespace Draft

/-- Asks for a mode by the name of its option. -/
def addMode (draft : Draft) (name : String) (mode : Mode) : Except Stop Draft :=
  if (draft.modes.map Prod.fst).contains name then .error .usage
  else .ok { draft with modes := (name, mode) :: draft.modes }

/-- Asks for output on a single line. -/
def addCompact (draft : Draft) : Except Stop Draft :=
  if draft.compact then .error .usage else .ok { draft with compact := true }

/-- Asks for a log. -/
def addVerbose (draft : Draft) : Except Stop Draft :=
  if draft.verbose then .error .usage else .ok { draft with verbose := true }

/-- Sets the limit on nesting. -/
def addMaxDepth (draft : Draft) (text : String) : Except Stop Draft :=
  match draft.maxDepth, readLimit? text with
  | none, some n => .ok { draft with maxDepth := some n }
  | _, _ => .error .usage

/-- Adds a path or a file; there is no third positional argument. -/
def addPositional (draft : Draft) (text : String) : Except Stop Draft :=
  if draft.positional.length < 2 then .ok { draft with positional := text :: draft.positional }
  else .error .usage

/-- A one-letter option. -/
def addLetter (draft : Draft) (letter : Char) : Except Stop Draft :=
  if letter = 'c' then draft.addCompact
  else if letter = 'v' then draft.addVerbose
  else if letter = 'V' then .error (.shown versionText)
  else if letter = 'h' then .error (.shown helpText)
  else .error .usage

/-- A long option that takes no value. -/
def addFlag (draft : Draft) (name : String) : Except Stop Draft :=
  if name = "paths" then draft.addMode name .paths
  else if name = "exists" then draft.addMode name .exist
  else if name = "remove" then draft.addMode name .remove
  else if name = "canonical" then draft.addMode name .canonical
  else if name = "compact" then draft.addCompact
  else if name = "verbose" then draft.addVerbose
  else if name = "version" then .error (.shown versionText)
  else if name = "help" then .error (.shown helpText)
  else .error .usage

/-- A long option with its value. -/
def addOption (draft : Draft) (name value : String) : Except Stop Draft :=
  if name = "set" then draft.addMode name (.set value)
  else if name = "max-depth" then draft.addMaxDepth value
  else .error .usage

/-- A long option that takes a value. -/
def takesValue (name : String) : Bool :=
  name = "set" || name = "max-depth"

/-- The one mode that is asked for, if there is one. -/
def mode (draft : Draft) : Except Stop (Option Mode) :=
  match draft.modes with
  | [] => .ok none
  | [(_, mode)] => .ok (some mode)
  | _ => .error .usage

/-- The path and the file. -/
def operands (draft : Draft) : Except Stop (String × Option String) :=
  match draft.positional with
  | [path] => .ok (path, none)
  | [file, path] => .ok (path, some file)
  | _ => .error .usage

/-- The arguments that the words describe. -/
def finish (draft : Draft) : Except Stop Arguments := do
  let (path, file) ← draft.operands
  let mode ← draft.mode
  let limits : Options := draft.maxDepth.elim {} Options.mk
  let plain : Arguments :=
    { path, file, compact := draft.compact, maxDepth := limits.maxDepth }
  return mode.elim plain (Mode.onto plain)

end Draft

/-- The kinds of a word, as it stands by itself. -/
inductive Word
  /-- Two hyphens. -/
  | endOfOptions
  /-- A long option, with a value behind an equals sign or without. -/
  | long (name : String) (value : Option String)
  /-- Letters behind a hyphen. -/
  | short (letters : List Char)
  /-- Anything else; a single hyphen, too. -/
  | plain
deriving DecidableEq, Repr

/-- The kind of a word. -/
def Word.of (text : String) : Word :=
  match text.toList with
  | '-' :: '-' :: [] => .endOfOptions
  | '-' :: '-' :: rest =>
    let name := String.ofList (rest.takeWhile (· != '='))
    match rest.dropWhile (· != '=') with
    | _ :: value => .long name (some (String.ofList value))
    | [] => .long name none
  | '-' :: c :: rest => .short (c :: rest)
  | _ => .plain

/-- Reads words into a draft. -/
def readWords (draft : Draft) : List String → Except Stop Draft
  | [] => .ok draft
  | text :: rest =>
    match Word.of text with
    | .endOfOptions => rest.foldlM Draft.addPositional draft
    | .plain => do readWords (← draft.addPositional text) rest
    | .short letters => do readWords (← letters.foldlM Draft.addLetter draft) rest
    | .long name (some value) => do readWords (← draft.addOption name value) rest
    | .long name none =>
      if Draft.takesValue name then
        match rest with
        | value :: rest =>
          if Word.of value = .plain then do readWords (← draft.addOption name value) rest
          else .error .usage
        | [] => .error .usage
      else do readWords (← draft.addFlag name) rest

/-- Reads the arguments of the program. -/
def readArguments : ArgumentReader := fun words => do
  (← readWords {} words).finish

end CommandLine
end PathQuery
