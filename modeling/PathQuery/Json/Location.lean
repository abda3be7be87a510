import PathQuery.Json.Basic

/-! # Locations in a document

A location is the list of keys and indexes that lead from the root of a document
to one of its values.  Locations are ordered lexicographically, keys by code
points and before indexes, indexes by value; in descending order a value comes
before the values that contain it, and a later element of an array before an
earlier one.

`updateAt?` is the only way in which a document changes below its root: it
rebuilds the values on the way to a location and fails if that does not exist.
-/

namespace PathQuery

/-- One step into a value. -/
inductive Accessor
  | key (name : String)
  | index (position : Nat)
deriving DecidableEq, Repr

/-- The way from the root of a document to a value. -/
abbrev Location := List Accessor

namespace Accessor

/-- The order of accessors. -/
def le : Accessor → Accessor → Bool
  | .key a, .key b => a ≤ b
  | .key _, .index _ => true
  | .index _, .key _ => false
  | .index i, .index j => i ≤ j

/-- A character within the quotes of a key. -/
def escaped (c : Char) : List Char :=
  if c = '\'' ∨ c = '\\' then ['\\', c] else [c]

/-- The text of an accessor; within the quotes of a key only a quote and a
backslash are escaped. -/
def chars : Accessor → List Char
  | .key name => '[' :: '\'' :: (name.toList.flatMap escaped ++ ['\'', ']'])
  | .index i => '[' :: (Nat.toDigits 10 i ++ [']'])

end Accessor

namespace Location

/-- The lexicographic order of locations. -/
def le : Location → Location → Bool
  | [], _ => true
  | _ :: _, [] => false
  | a :: as, b :: bs => if a = b then le as bs else a.le b

/-- The text of a location: a path that leads to it. -/
def chars (location : Location) : List Char :=
  '$' :: location.flatMap Accessor.chars

/-- The text of a location as a string. -/
def text (location : Location) : String :=
  String.ofList (chars location)

example : text [.key "it's", .index 2] = "$['it\\'s'][2]" := by decide +kernel

/-- Keeps one of several equal neighbours. -/
def dropRepeats : List Location → List Location
  | a :: b :: rest => if a = b then dropRepeats (b :: rest) else a :: dropRepeats (b :: rest)
  | short => short

/-- The distinct locations of a list in descending order. -/
def distinctDescending (locations : List Location) : List Location :=
  dropRepeats (locations.mergeSort fun a b => le b a)

end Location

namespace Json

/-- The value behind one accessor. -/
def get? (target : Json) : Accessor → Option Json
  | .key name => target.getKey? name
  | .index i => target.getIndex? i

/-- The value with what is behind an accessor replaced; a key may be new. -/
def put? (target : Json) (a : Accessor) (value : Json) : Option Json :=
  match a with
  | .key name => target.setKey? name value
  | .index i => target.setIndex? i value

/-- The value without what is behind an accessor. -/
def remove? (target : Json) : Accessor → Option Json
  | .key name => target.removeKey? name
  | .index i => target.removeIndex? i

/-- The value at a location. -/
def valueAt? (doc : Json) : Location → Option Json
  | [] => some doc
  | a :: rest => (doc.get? a).bind fun child => valueAt? child rest

/-- The document with the value at a location changed by `f`. -/
def updateAt? (doc : Json) (location : Location) (f : Json → Option Json) : Option Json :=
  match location with
  | [] => f doc
  | a :: rest => do
    let child ← doc.get? a
    let changed ← updateAt? child rest f
    doc.put? a changed

end Json
end PathQuery
