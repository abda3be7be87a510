import PathQuery.Json.Number

/-! # JSON documents

A document is a JSON value.  The members of an object are an ordered list; a
document that was read from a text has no key twice in one object, and the
operations below keep it so: writing to a key replaces the value in its place, or
adds the key at the end, and removing a key keeps the order of the others.
-/

namespace PathQuery

/-- A JSON value. -/
inductive Json
  | null
  | bool (value : Bool)
  | number (value : Number)
  | string (value : String)
  | array (items : List Json)
  | object (members : List (String × Json))

/-- The shape of a value. -/
inductive Kind
  | object
  | array
  | primitive
  | null
deriving DecidableEq, Repr

/-- The word for a shape. -/
def Kind.name : Kind → String
  | .object => "object"
  | .array => "array"
  | .primitive => "primitive"
  | .null => "null"

namespace Json

instance : Inhabited Json := ⟨.null⟩

/-- The shape of a value. -/
def kind : Json → Kind
  | .null => .null
  | .bool _ | .number _ | .string _ => .primitive
  | .array _ => .array
  | .object _ => .object

/-! ## Members of an object -/

/-- The value of a key. -/
def lookup (key : String) : List (String × Json) → Option Json
  | [] => none
  | (k, v) :: rest => if k = key then some v else lookup key rest

/-- Gives a key a value, in place or at the end. -/
def insert (key : String) (value : Json) : List (String × Json) → List (String × Json)
  | [] => [(key, value)]
  | (k, v) :: rest => if k = key then (k, value) :: rest else (k, v) :: insert key value rest

/-- Takes a key out. -/
def erase (key : String) : List (String × Json) → List (String × Json)
  | [] => []
  | (k, v) :: rest => if k = key then rest else (k, v) :: erase key rest

/-- The keys of an object in their order; none of any other value. -/
def keys : Json → List String
  | .object members => members.map Prod.fst
  | _ => []

/-- The value of a key of an object. -/
def getKey? (target : Json) (key : String) : Option Json :=
  match target with
  | .object members => lookup key members
  | _ => none

/-- The object with a key set; nothing for other values. -/
def setKey? (target : Json) (key : String) (value : Json) : Option Json :=
  match target with
  | .object members => some (.object (insert key value members))
  | _ => none

/-- The object without a key that it has. -/
def removeKey? (target : Json) (key : String) : Option Json :=
  match target with
  | .object members =>
    if (lookup key members).isSome then some (.object (erase key members)) else none
  | _ => none

/-! ## Elements of an array -/

/-- The length of an array. -/
def length? : Json → Option Nat
  | .array items => some items.length
  | _ => none

/-- The element at an index. -/
def getIndex? (target : Json) (index : Nat) : Option Json :=
  match target with
  | .array items => items[index]?
  | _ => none

/-- The array with an element that it has replaced. -/
def setIndex? (target : Json) (index : Nat) (value : Json) : Option Json :=
  match target with
  | .array items => if index < items.length then some (.array (items.set index value)) else none
  | _ => none

/-- The array without an element that it has; the later ones move down. -/
def removeIndex? (target : Json) (index : Nat) : Option Json :=
  match target with
  | .array items => if index < items.length then some (.array (items.eraseIdx index)) else none
  | _ => none

/-- The array with one more element at the end. -/
def append? (target value : Json) : Option Json :=
  match target with
  | .array items => some (.array (items ++ [value]))
  | _ => none

/-! ## Primitive values -/

/-- The number that a value is. -/
def asNumber? : Json → Option Number
  | .number n => some n
  | _ => none

/-- The string that a value is. -/
def asString? : Json → Option String
  | .string s => some s
  | _ => none

/-- The truth value that a value is. -/
def asBool? : Json → Option Bool
  | .bool b => some b
  | _ => none

/-! ## Size -/

mutual

/-- The number of values in a document, itself included. -/
def size : Json → Nat
  | .array items => itemsSize items + 1
  | .object members => membersSize members + 1
  | _ => 1

/-- The sizes of the elements of an array together. -/
def itemsSize : List Json → Nat
  | [] => 0
  | v :: rest => size v + itemsSize rest

/-- The sizes of the values of an object together. -/
def membersSize : List (String × Json) → Nat
  | [] => 0
  | (_, v) :: rest => size v + membersSize rest

end

theorem size_pos (v : Json) : 0 < v.size := by
  cases v <;> simp [size]

end Json
end PathQuery
