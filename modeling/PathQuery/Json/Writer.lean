import PathQuery.Json.Basic

/-! # JSON texts of documents

A document has a compact text, without white space, and a pretty one, with one
element or member on a line and two spaces for each level.  Both write strings
alike: quotes, backslashes and the characters below the space are escaped, the
common ones among these with a letter, and every other character is written as it
is.
-/

namespace PathQuery
namespace Json

variable [DoubleText]

/-- The digit for a number below sixteen, in lower case. -/
def hexDigit (n : Nat) : Char :=
  Nat.digitChar n

/-- Writes one character of a string. -/
def writeChar (out : String) (c : Char) : String :=
  if c = '"' then out ++ "\\\""
  else if c = '\\' then out ++ "\\\\"
  else if c = '\n' then out ++ "\\n"
  else if c = '\r' then out ++ "\\r"
  else if c = '\t' then out ++ "\\t"
  else if c = '\x08' then out ++ "\\b"
  else if c = '\x0C' then out ++ "\\f"
  else if c.toNat < 0x20 then
    ((out ++ "\\u00").push (hexDigit (c.toNat / 16))).push (hexDigit (c.toNat % 16))
  else out.push c

/-- Writes a string in its quotes. -/
def writeString (out text : String) : String :=
  (text.toList.foldl writeChar (out.push '"')).push '"'

/-- Writes a value that has no parts. -/
def writeAtom (out : String) : Json → String
  | .null => out ++ "null"
  | .bool true => out ++ "true"
  | .bool false => out ++ "false"
  | .number n => out ++ String.ofList n.chars
  | .string text => writeString out text
  | .array _ => out ++ "[]"
  | .object _ => out ++ "\x7b\x7d"

/-! ## Compact text -/

mutual

/-- Writes a value without white space. -/
def writeCompact (out : String) : Json → String
  | .array items => (writeItems (out.push '[') true items).push ']'
  | .object members => (writeMembers (out.push '\x7b') true members).push '\x7d'
  | atom => writeAtom out atom

/-- Writes the elements of an array, with a comma before all but the first. -/
def writeItems (out : String) (first : Bool) : List Json → String
  | [] => out
  | v :: rest =>
    writeItems (writeCompact (if first then out else out.push ',') v) false rest

/-- Writes the members of an object, with a comma before all but the first. -/
def writeMembers (out : String) (first : Bool) : List (String × Json) → String
  | [] => out
  | (key, v) :: rest =>
    let out := (writeString (if first then out else out.push ',') key).push ':'
    writeMembers (writeCompact out v) false rest

end

/-- The compact text of a document. -/
def compact (v : Json) : String :=
  writeCompact "" v

/-! ## Pretty text -/

/-- Starts a new line at a level. -/
def writeLine (out : String) (level : Nat) : String :=
  (List.replicate level "  ").foldl (· ++ ·) (out.push '\n')

mutual

/-- Writes a value whose lines stand at a level. -/
def writePretty (out : String) (level : Nat) : Json → String
  | .array (v :: rest) =>
    let out := writePretty (writeLine (out.push '[') (level + 1)) (level + 1) v
    (writeLine (writePrettyItems out (level + 1) rest) level).push ']'
  | .object ((key, v) :: rest) =>
    let out := writeString (writeLine (out.push '\x7b') (level + 1)) key ++ ": "
    let out := writePretty out (level + 1) v
    (writeLine (writePrettyMembers out (level + 1) rest) level).push '\x7d'
  | atom => writeAtom out atom

/-- Writes further elements of an array, each on a line of its own. -/
def writePrettyItems (out : String) (level : Nat) : List Json → String
  | [] => out
  | v :: rest =>
    writePrettyItems (writePretty (writeLine (out.push ',') level) level v) level rest

/-- Writes further members of an object, each on a line of its own. -/
def writePrettyMembers (out : String) (level : Nat) : List (String × Json) → String
  | [] => out
  | (key, v) :: rest =>
    let out := writeString (writeLine (out.push ',') level) key ++ ": "
    writePrettyMembers (writePretty out level v) level rest

end

/-- The pretty text of a document. -/
def pretty (v : Json) : String :=
  writePretty "" 0 v

end Json
end PathQuery
