import PathQuery.Edit

/-! # Sessions

A session runs steps one after the other on one document.  A step applies a
compiled path: it looks at the document, or it edits it and leaves the result to
the steps after it.
-/

namespace PathQuery

/-- What a step does with the matches of its path. -/
inductive Action
  /-- Lists them with their locations. -/
  | query
  /-- Lists their values, of which there must be one. -/
  | get
  /-- Says whether there are any. -/
  | contains
  /-- Replaces them by values from a supply. -/
  | set (supply : Nat → Json)
  /-- Deletes them. -/
  | remove

/-- A step of a session. -/
structure SessionStep where
  action : Action
  path : Path
  options : Options := {}

/-- What a step answers. -/
inductive Answer
  | matches (found : List Match)
  | values (found : List Json)
  | found (any : Bool)
  | count (changes : Nat)
  | failed (failure : Failure)

namespace Answer

/-- The answer of a step that looks at the document. -/
def ofQuery {α : Type} (answer : α → Answer) : Except EvalError α → Answer
  | .ok a => answer a
  | .error e => .failed (.evaluation e)

/-- The answer of a step that has values, or none. -/
def ofValues : Except Failure (List Json) → Answer
  | .ok list => .values list
  | .error failure => .failed failure

/-- The answer of a step that edits the document. -/
def ofEdit (edit : Edit) : Answer :=
  match edit.result with
  | .ok changes => .count changes
  | .error failure => .failed failure

end Answer

namespace SessionStep

/-- Runs a step: its answer and the document after it. -/
def run (step : SessionStep) (doc : Json) : Answer × Json :=
  match step.action with
  | .query => (.ofQuery .matches (step.path.query step.options doc), doc)
  | .get => (.ofValues (step.path.get step.options doc), doc)
  | .contains => (.ofQuery .found (step.path.contains step.options doc), doc)
  | .set supply =>
    let edit := step.path.set step.options supply doc
    (.ofEdit edit, edit.document)
  | .remove =>
    let edit := step.path.remove step.options doc
    (.ofEdit edit, edit.document)

/-- Runs steps in their order: their answers and the document after the last. -/
def runAll (steps : List SessionStep) (doc : Json) : List Answer × Json :=
  match steps with
  | [] => ([], doc)
  | step :: rest =>
    let (answer, doc) := step.run doc
    let (answers, doc) := runAll rest doc
    (answer :: answers, doc)

end SessionStep

end PathQuery
