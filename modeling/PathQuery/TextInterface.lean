import PathQuery.Edit
import PathQuery.Json.Texts

/-! # Texts in, texts out

Four operations for callers that have only texts: each takes the text of a path and
of a document, and answers with a pretty JSON text or with the wording of an error.
The document is read first, then the path is compiled, with the usual limits, and
then a new value is read.
-/

namespace PathQuery
namespace TextInterface

/-- The values of matches as one JSON array. -/
def valuesOf (found : List Match) : Json :=
  .array (found.map Match.value)

/-- The locations of matches as one JSON array. -/
def locationsOf (found : List Match) : Json :=
  .array (found.map fun m => .string m.location.text)

variable [DoubleText]

/-- The wording of an evaluation error. -/
def wording (e : EvalError) : String :=
  (Failure.evaluation e).message

/-- The document after an edit. -/
def documentOf (edit : Edit) : Except String Json :=
  match edit.result with
  | .ok _ => .ok edit.document
  | .error failure => .error failure.message

variable (texts : JsonTexts)

/-- Reads a JSON text. -/
def readJson (text : String) : Except String Json :=
  (texts.read text).mapError ("JSON parse error: " ++ ·)

/-- Writes an answer. -/
def writeJson (v : Json) : Except String String :=
  (texts.pretty v).mapError ("Serialization error: " ++ ·)

/-- Reads a document and compiles a path. -/
def readInput (path doc : String) : Except String (Path × Json) := do
  let v ← readJson texts doc
  let p ← (Path.compile {} path).mapError SyntaxError.text
  return (p, v)

/-- The matched values. -/
def query (path doc : String) : Except String String := do
  let (p, v) ← readInput texts path doc
  let found ← (p.query {} v).mapError wording
  writeJson texts (valuesOf found)

/-- The locations of the matches. -/
def paths (path doc : String) : Except String String := do
  let (p, v) ← readInput texts path doc
  let found ← (p.query {} v).mapError wording
  writeJson texts (locationsOf found)

/-- The document with every match replaced by a value. -/
def set (path doc value : String) : Except String String := do
  let (p, v) ← readInput texts path doc
  let new ← readJson texts value
  let changed ← documentOf (p.set {} new.always v)
  writeJson texts changed

/-- The document without the matches. -/
def remove (path doc : String) : Except String String := do
  let (p, v) ← readInput texts path doc
  let changed ← documentOf (p.remove {} v)
  writeJson texts changed

end TextInterface
end PathQuery
