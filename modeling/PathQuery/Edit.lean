import PathQuery.Query.Evaluator

/-! # Changing a document

`set` replaces every match of a path, `remove` deletes every match.  Both work
through the distinct matched locations in descending order, one change after the
other, so that a change never moves a location that is still to come.  When nothing
matches, `set` creates the last step of the path in every match of the path without
that step.

New values come from a supply that is asked once for each write; an edit records
how often it was asked, together with the document as it is at the end.
-/

namespace PathQuery

/-- The outcome of an edit: the document at its end, the number of values taken from
the supply, and the number of changes or the reason why they did not all happen. -/
structure Edit where
  document : Json
  taken : Nat
  result : Except Failure Nat

/-- A supply that gives the same value for every write. -/
def Json.always (value : Json) : Nat → Json :=
  fun _ => value

/-- The number one more than the number of writes before it. -/
def Json.counting (taken : Nat) : Json :=
  ((Number.ofInt? (taken + 1)).map Json.number).getD .null

/-- Where an edit makes changes: the distinct locations of the matches, in descending
order. -/
def Path.targets (options : Options) (p : Path) (doc : Json) : Except EvalError (List Location) :=
  (p.query options doc).map fun found =>
    Location.distinctDescending (found.map Match.location)

theorem Path.targets_of_query {options : Options} {p : Path} {doc : Json} {found : List Match}
    (h : p.query options doc = .ok found) :
    p.targets options doc = .ok (Location.distinctDescending (found.map Match.location)) := by
  rw [targets, h]
  rfl

namespace Json

/-- The document with a value put at a location that exists, up to its last step. -/
def write? (doc : Json) (location : Location) (value : Json) : Option Json :=
  match location.getLast? with
  | none => some value
  | some last => doc.updateAt? location.dropLast fun parent => parent.put? last value

/-- The document without the value at a location. -/
def delete? (doc : Json) (location : Location) : Option Json :=
  match location.getLast? with
  | none => none
  | some last => doc.updateAt? location.dropLast fun parent => parent.remove? last

/-- The value with a new entry; an index stands for the end of an array. -/
def extend? (target : Json) (entry : NewEntry) (value : Json) : Option Json :=
  match entry with
  | .key name => target.setKey? name value
  | .index _ => target.append? value

/-- A new entry can be created in the value: a key in an object, an index that is
not before the end in an array. -/
def hasRoomFor (target : Json) (entry : NewEntry) : Bool :=
  match entry, target with
  | .key _, .object _ => true
  | .index i, .array items => 0 ≤ i.toInt && (items.length : Int) ≤ i.toInt
  | _, _ => false

end Json

namespace Edit

/-- An edit that fails before it changes anything. -/
def refused (doc : Json) (failure : Failure) : Edit :=
  ⟨doc, 0, .error failure⟩

/-- Puts values from the supply at locations, one after the other; `taken` values
were put before. -/
def writeAll (supply : Nat → Json) (taken : Nat) (doc : Json) : List Location → Edit
  | [] => ⟨doc, taken, .ok taken⟩
  | location :: rest =>
    match doc.write? location (supply taken) with
    | some changed => writeAll supply (taken + 1) changed rest
    | none => ⟨doc, taken, .error (.evaluation (.vanished location))⟩

/-- Adds an entry with a value from the supply at locations, one after the other;
`taken` values were added before. -/
def extendAll (entry : NewEntry) (supply : Nat → Json) (taken : Nat) (doc : Json) :
    List Location → Edit
  | [] => ⟨doc, taken, .ok taken⟩
  | location :: rest =>
    match doc.valueAt? location with
    | none => ⟨doc, taken, .error (.evaluation (.vanished location))⟩
    | some _ =>
      match doc.updateAt? location fun parent => parent.extend? entry (supply taken) with
      | some changed => extendAll entry supply (taken + 1) changed rest
      | none => ⟨doc, taken + 1, .error (.evaluation (.refused entry location))⟩

/-- Deletes locations one after the other and counts those that were there. -/
def deleteAll (removed : Nat) (doc : Json) : List Location → Edit
  | [] => ⟨doc, 0, .ok removed⟩
  | location :: rest =>
    match doc.delete? location with
    | some changed => deleteAll (removed + 1) changed rest
    | none => deleteAll removed doc rest

end Edit

namespace Segment

/-- The entry that a segment names, if it is a single name or a single index. -/
def entry? : Segment → Option NewEntry
  | .mk [.name key] => some (.key key)
  | .mk [.index i] => some (.index i)
  | _ => none

end Segment

namespace Path

/-- The path without its last step, and the entry that the last step names.  There
is none if the last step is a deep scan, a wildcard, a union, a slice or a filter,
or if the path has no step. -/
def creation? : Path → Option (Path × NewEntry)
  | .mk origin segments steps source =>
    match steps.getLast? with
    | none =>
      segments.getLast?.bind fun last =>
        last.entry?.map fun entry => (.mk origin segments.dropLast [] source, entry)
    | some (.mk head inner) =>
      match head, inner.getLast? with
      | .descend _, _ => none
      | head, some last =>
        last.entry?.map fun entry =>
          (.mk origin segments (steps.dropLast ++ [.mk head inner.dropLast]) source, entry)
      | .child (.name key), none => some (.mk origin segments steps.dropLast source, .key key)
      | _, none => none

/-- The first match that has no room for an entry. -/
def firstWithoutRoom? (entry : NewEntry) (parents : List Match) : Option Match :=
  parents.find? fun m => !m.value.hasRoomFor entry

/-- Creates the last step of a path that matches nothing. -/
def create (options : Options) (p : Path) (supply : Nat → Json) (doc : Json) : Edit :=
  match p.creation? with
  | none => .refused doc (.notFound p.source)
  | some (parent, entry) =>
    match parent.query options doc with
    | .error e => .refused doc (.evaluation e)
    | .ok [] => .refused doc (.notFound p.source)
    | .ok parents =>
      match firstWithoutRoom? entry parents with
      | some m => .refused doc (.evaluation (.noRoom entry m.value.kind m.location))
      | none =>
        Edit.extendAll entry supply 0 doc
          (Location.distinctDescending (parents.map Match.location))

/-- Replaces every match of a path, or creates its last step if there is none. -/
def set (options : Options) (p : Path) (supply : Nat → Json) (doc : Json) : Edit :=
  match p.targets options doc with
  | .error e => .refused doc (.evaluation e)
  | .ok [] => p.create options supply doc
  | .ok targets => Edit.writeAll supply 0 doc targets

/-- Deletes every match of a path; the root of a document cannot be deleted. -/
def remove (options : Options) (p : Path) (doc : Json) : Edit :=
  match p.targets options doc with
  | .error e => .refused doc (.evaluation e)
  | .ok targets =>
    if targets.contains [] then .refused doc (.evaluation .rootRemoval)
    else Edit.deleteAll 0 doc targets

end Path
end PathQuery
