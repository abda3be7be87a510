import PathQuery.Path.Compiler
import PathQuery.Query.DeepScan
import PathQuery.Query.Operand
import PathQuery.Query.Slice

/-! # Applying a path

A path is applied to matches from left to right: from its origin through its
segments, and then through its steps.  A step or a segment lines up what it finds
from each match, so the order of the matches is kept, and a union lines up what its
selectors find in the order in which they are written.

A bare name is strict at the top level of a path: it fails on a value that is no
object.  Within a filter it finds nothing there.
-/

namespace PathQuery

/-- What a bare name does with a value that is no object. -/
inductive Names
  /-- It fails. -/
  | strict
  /-- It finds nothing. -/
  | lenient
deriving DecidableEq, Repr

/-- The value of a bare name. -/
def Match.named (names : Names) (key : String) (m : Match) : Except EvalError (List Match) :=
  match m.value.kind, names with
  | .object, _ => .ok (m.childByKey? key).toList
  | _, .lenient => .ok []
  | kind, .strict => .error (.notAnObject key kind m.location)

/-- What a selector other than a filter finds below a match. -/
def Match.select (m : Match) : Selector → List Match
  | .wildcard => m.children
  | .name key => (m.childByKey? key).toList
  | .index position =>
    match m.value.length? with
    | some length => ((placeOf position length).bind m.childAt?).toList
    | none => []
  | .slice bounds =>
    match m.value.length? with
    | some length => (bounds.places length).filterMap m.childAt?
    | none => []
  | .filter _ => []

/-- Where a step goes from given matches; `segmented` says that segments follow. -/
def Head.go (limit : Nat) (names : Names) (segmented : Bool) (head : Head)
    (starts : List Match) : Except EvalError (List Match) :=
  match head with
  | .here => .ok starts
  | .child .any => .ok (starts.flatMap Match.children)
  | .child (.name key) => gather (Match.named names key) starts
  | .descend (some (.name key)) =>
    gather (fun m => (m.descendants limit false).map fun found =>
      found.filter fun visited => visited.endsWithKey key) starts
  | .descend (some .any) => gather (Match.descendants limit false) starts
  | .descend none => gather (Match.descendants limit segmented) starts

/-- The operand that a path with one match gives, and a missing one otherwise. -/
def Operand.ofMatches (source : String) : List Match → Except EvalError Operand
  | [m] =>
    match Scalar.ofJson? m.value with
    | some s => .ok (some s)
    | none => .error (.notComparable source m.value.kind)
  | _ => .ok none

section
variable (limit : Nat) (root : Json)

mutual

/-- What a path leads to, with `current` as the current value. -/
def Path.resolve (names : Names) (current : Match) : Path → Except EvalError (List Match)
  | .mk origin segments steps _ => do
    let start : Match := match origin with
      | .root => ⟨[], root⟩
      | .current => current
    let found ← Segment.through segments [start]
    Step.through names steps found

/-- What steps lead to from given matches. -/
def Step.through (names : Names) (steps : List Step) (starts : List Match) :
    Except EvalError (List Match) :=
  match steps with
  | [] => .ok starts
  | .mk head segments :: rest => do
    let reached ← head.go limit names (!segments.isEmpty) starts
    let found ← Segment.through segments reached
    Step.through names rest found

/-- What segments lead to from given matches. -/
def Segment.through (segments : List Segment) (starts : List Match) :
    Except EvalError (List Match) :=
  match segments with
  | [] => .ok starts
  | .mk selectors :: rest => do
    let found ← gather (fun m => Selector.union selectors m) starts
    Segment.through rest found

/-- What the alternatives of a segment find below a match. -/
def Selector.union (selectors : List Selector) (m : Match) : Except EvalError (List Match) :=
  match selectors with
  | [] => .ok []
  | s :: rest => do
    let first ← Selector.find s m
    let others ← Selector.union rest m
    return first ++ others

/-- What a selector finds below a match. -/
def Selector.find (selector : Selector) (m : Match) : Except EvalError (List Match) :=
  match selector with
  | .filter condition =>
    gather (fun child => (Filter.holds condition child).map fun holds =>
      if holds then [child] else []) m.children
  | other => .ok (m.select other)

/-- Whether an expression holds of a value. -/
def Filter.holds (condition : Filter) (current : Match) : Except EvalError Bool :=
  match condition with
  | .existence path inverted =>
    (Path.resolve .lenient current path).map fun found => found.isEmpty == inverted
  | .reference path => (Path.resolve .lenient current path).map fun found => !found.isEmpty
  | .negation inner => (Filter.holds inner current).map not
  | .logical op left right => do
    let first ← Filter.holds left current
    match op, first with
    | .and, true | .or, false => Filter.holds right current
    | .and, false => return false
    | .or, true => return true
  | .comparison op left right => do
    let a ← Filter.operand left current
    let b ← Filter.operand right current
    return a.compare op b
  | .literal (.bool b) => .ok b
  | .literal value => .error (.literalCondition value)
  | .arithmetic op left right => .error (.arithmeticCondition (.arithmetic op left right))

/-- The value of an expression. -/
def Filter.operand (expression : Filter) (current : Match) : Except EvalError Operand :=
  match expression with
  | .literal value => .ok (some (.ofLiteral value))
  | .reference path => do
    let found ← Path.resolve .lenient current path
    Operand.ofMatches path.source found
  | .arithmetic op left right => do
    let a ← Filter.operand left current
    let b ← Filter.operand right current
    a.arithmetic op b
  | other => .error (.notAValue other)

end

end

namespace Path

/-- Every match of a path in a document. -/
def query (options : Options) (p : Path) (doc : Json) : Except EvalError (List Match) :=
  p.resolve options.maxDepth doc .strict ⟨[], doc⟩

/-- The values that match, of which there must be one. -/
def get (options : Options) (p : Path) (doc : Json) : Except Failure (List Json) :=
  match p.query options doc with
  | .error e => .error (.evaluation e)
  | .ok [] => .error (.notFound p.source)
  | .ok found => .ok (found.map Match.value)

/-- Whether anything matches. -/
def contains (options : Options) (p : Path) (doc : Json) : Except EvalError Bool :=
  (p.query options doc).map fun found => !found.isEmpty

/-- Compiles a path text and applies it, both with the usual limits. -/
def queryText (text : String) (doc : Json) : Except Failure (List Json) := do
  let p ← (Path.compile {} text).mapError .malformed
  let found ← (p.query {} doc).mapError .evaluation
  return found.map Match.value

end Path
end PathQuery
