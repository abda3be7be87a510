import PathQuery.Query.Match

/-! # Deep scans

A deep scan visits the values below a match in pre-order: a value before those
within it, and those in the order of their keys or indexes.  It keeps a stack of
values still to be visited, the next one on top, each with its depth below the
start, and refuses a document in which a value lies deeper than the limit.
-/

namespace PathQuery
namespace DeepScan

/-- A value still to be visited and how deep below the start it lies. -/
structure Pending where
  target : Match
  depth : Nat

/-- The number of values on a stack and below them. -/
def load : List Pending → Nat
  | [] => 0
  | p :: rest => p.target.value.size + load rest

theorem load_append (a b : List Pending) : load (a ++ b) = load a + load b := by
  induction a with
  | nil => simp [load]
  | cons p rest ih => simp [load, ih, Nat.add_assoc]

theorem load_members (m : Match) (depth : Nat) (members : List (String × Json)) :
    load (members.map fun (key, value) => ⟨m.below (.key key) value, depth⟩) =
      Json.membersSize members := by
  induction members with
  | nil => rfl
  | cons p rest ih =>
    simp only [List.map_cons, load, ih, Json.membersSize]
    rfl

theorem load_items (depth : Nat) (items : List Json) (place : Nat → Json → Match)
    (h : ∀ i v, (place i v).value = v) :
    load ((items.mapIdx place).map (⟨·, depth⟩)) = Json.itemsSize items := by
  induction items generalizing place with
  | nil => rfl
  | cons v rest ih =>
    simp only [List.mapIdx_cons, List.map_cons, load, Json.itemsSize, h]
    rw [ih (fun i => place (i + 1)) fun i v => h (i + 1) v]

/-- The children of a value have one value less in them than the value. -/
theorem load_children (m : Match) (depth : Nat) :
    load (m.children.map (⟨·, depth⟩)) + 1 = m.value.size := by
  unfold Match.children
  split
  · rename_i members hm
    rw [List.map_map, hm, Json.size]
    exact congrArg (· + 1) (load_members m depth members)
  · rename_i items hi
    rw [hi, Json.size]
    exact congrArg (· + 1) (load_items depth items _ fun _ _ => rfl)
  · rename_i hobject harray
    cases hv : m.value with
    | array items => exact absurd hv (harray items)
    | object members => exact absurd hv (hobject members)
    | _ => rfl

/-- Visits what is on the stack; `visited` holds the values visited so far, the
last one first. -/
def visit (limit : Nat) (visited : List Pending) (stack : List Pending) :
    Except EvalError (List Pending) :=
  match stack with
  | [] => .ok visited.reverse
  | p :: rest =>
    if limit < p.depth then .error (.tooDeep limit p.target.location)
    else visit limit (p :: visited) (p.target.children.map (⟨·, p.depth + 1⟩) ++ rest)
termination_by load stack
decreasing_by
  rw [load_append, load]
  have := load_children p.target (p.depth + 1)
  omega

end DeepScan

/-- The values below a match in pre-order, and the match itself before them if it
is to be included. -/
def Match.descendants (limit : Nat) (includeSelf : Bool) (m : Match) :
    Except EvalError (List Match) :=
  (DeepScan.visit limit [] [⟨m, 0⟩]).map fun visited =>
    (visited.filter fun p => includeSelf || 0 < p.depth).map DeepScan.Pending.target

end PathQuery
