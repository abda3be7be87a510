import PathQuery.Query.Error

/-! # Matches

A match is a value of a document together with its location.  Matches arise from
matches: the children of a match are found one step further down.
-/

namespace PathQuery

/-- A value and where it was found. -/
structure Match where
  location : Location
  value : Json

namespace Match

instance : Inhabited Match := ⟨⟨[], .null⟩⟩

/-- The match one step below. -/
def below (m : Match) (a : Accessor) (value : Json) : Match :=
  ⟨m.location ++ [a], value⟩

/-- The value of a key. -/
def childByKey? (m : Match) (key : String) : Option Match :=
  (m.value.getKey? key).map (m.below (.key key))

/-- The element at an index. -/
def childAt? (m : Match) (index : Nat) : Option Match :=
  (m.value.getIndex? index).map (m.below (.index index))

/-- The values of an object and the elements of an array, in their order. -/
def children (m : Match) : List Match :=
  match m.value with
  | .object members => members.map fun (key, value) => m.below (.key key) value
  | .array items => items.mapIdx fun i value => m.below (.index i) value
  | _ => []

/-- The last step of the location is a given key. -/
def endsWithKey (m : Match) (key : String) : Bool :=
  m.location.getLast? == some (.key key)

end Match

/-- Runs a search from each start and lines up what is found, up to the first
error. -/
def gather {ε α β : Type} (search : α → Except ε (List β)) (starts : List α) :
    Except ε (List β) :=
  (starts.mapM search).map List.flatten

@[simp] theorem gather_nil {ε α β : Type} (search : α → Except ε (List β)) :
    gather search [] = .ok [] := rfl

end PathQuery
