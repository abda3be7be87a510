import PathQuery.Path.Compiler

/-! # Command-line arguments

The arguments of the program are a path text, optionally a file, and options.  How they are
read from the words of a command line is left open; of a reader it is asked only that it take
a path behind two hyphens, alone or behind one option (`ArgumentReader.Lawful`).
-/

namespace PathQuery
namespace CommandLine

/-- The arguments of a run. -/
structure Arguments where
  path : String
  file : Option String := none
  /-- The run prints locations, not values. -/
  paths : Bool := false
  /-- It prints whether there are matches. -/
  exist : Bool := false
  /-- It replaces the matches by the value with this JSON text and prints the document. -/
  set : Option String := none
  /-- It deletes the matches and prints the document. -/
  remove : Bool := false
  /-- It prints the canonical text of the path and needs no document. -/
  canonical : Bool := false
  /-- It prints JSON on a single line. -/
  compact : Bool := false
  /-- The limit of the compiler and of the evaluator. -/
  maxDepth : Nat := ({} : Options).maxDepth
deriving DecidableEq, Repr

/-- What comes of words that describe no run. -/
inductive Stop
  /-- They are wrong. -/
  | usage
  /-- They ask for a text about the program. -/
  | shown (text : String)
deriving DecidableEq, Repr

/-- A reader of the words of a command line. -/
abbrev ArgumentReader := List String → Except Stop Arguments

/-- **What is asked of a reader of arguments**: two hyphens end the options, and what stands
behind them is the path, whatever it looks like; an option before them sets what it is named
for, the one with a value takes all that is behind its equals sign, and everything else stays
as it is without options. -/
structure ArgumentReader.Lawful (read : ArgumentReader) : Prop where
  values : ∀ path, read ["--", path] = .ok { path }
  paths : ∀ path, read ["--paths", "--", path] = .ok { path, paths := true }
  exist : ∀ path, read ["--exists", "--", path] = .ok { path, exist := true }
  set : ∀ json path, read ["--set=" ++ json, "--", path] = .ok { path, set := some json }
  remove : ∀ path, read ["--remove", "--", path] = .ok { path, remove := true }

end CommandLine
end PathQuery
