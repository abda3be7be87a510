import PathQuery.Json.Number

/-! # Paths

A path starts at the root of a document, or at the current value inside a filter,
narrows that down by bracket segments, and then goes on by steps.  A step goes to
children or to descendants, or stays where it is, and has segments of its own.  A
segment is a list of selectors, several of which form a union.  A filter selects
the children for which an expression holds; the references in the expression are
paths again, which is why all these types are defined together.

The first node of a path is its `origin` and its first `segments`, so a marker of
the origin can only stand at the front and never has a name; that part of the
form of a path needs no proof.
-/

namespace PathQuery

/-- Where a path starts. -/
inductive Origin
  /-- The root of the document, written `$`. -/
  | root
  /-- The value under test in a filter, written `@`. -/
  | current
deriving DecidableEq, Repr

/-- The marker of an origin. -/
def Origin.marker : Origin → Char
  | .root => '$'
  | .current => '@'

/-- The keys that a step goes to. -/
inductive KeyTest
  /-- One key. -/
  | name (key : String)
  /-- Every key and every index, written `*`. -/
  | any
deriving DecidableEq, Repr

/-- Where a step goes. -/
inductive Head
  /-- Nowhere: only the segments of the step count. -/
  | here
  /-- To children. -/
  | child (key : KeyTest)
  /-- To descendants, written with two dots. -/
  | descend (key : Option KeyTest)
deriving DecidableEq, Repr

/-- Bounds and step of an array slice. -/
structure Slice where
  start : Option Int64
  stop : Option Int64
  step : Option Int64
deriving DecidableEq, Repr

/-- The step of a slice; one, unless it is given. -/
def Slice.stride (s : Slice) : Int64 :=
  s.step.getD 1

/-- Arithmetic operators. -/
inductive ArithmeticOp
  | add
  | subtract
  | multiply
  | divide
  | modulo
deriving DecidableEq, Repr

/-- Comparison operators. -/
inductive ComparisonOp
  | eq
  | ne
  | lt
  | le
  | gt
  | ge
deriving DecidableEq, Repr

/-- Logical operators. -/
inductive LogicalOp
  | and
  | or
deriving DecidableEq, Repr

/-- A binary operator of a filter expression. -/
inductive Operator
  | logical (op : LogicalOp)
  | comparison (op : ComparisonOp)
  | arithmetic (op : ArithmeticOp)
deriving DecidableEq, Repr

/-- The symbol of an operator. -/
def Operator.symbol : Operator → String
  | .logical .and => "&&"
  | .logical .or => "||"
  | .comparison .eq => "=="
  | .comparison .ne => "!="
  | .comparison .lt => "<"
  | .comparison .le => "<="
  | .comparison .gt => ">"
  | .comparison .ge => ">="
  | .arithmetic .add => "+"
  | .arithmetic .subtract => "-"
  | .arithmetic .multiply => "*"
  | .arithmetic .divide => "/"
  | .arithmetic .modulo => "%"

/-- How tightly an operator binds, the loosest first. -/
def Operator.tier : Operator → Nat
  | .logical .or => 0
  | .logical .and => 1
  | .comparison .eq | .comparison .ne => 2
  | .comparison _ => 3
  | .arithmetic .add | .arithmetic .subtract => 4
  | .arithmetic _ => 5

/-- A constant of a filter expression. -/
inductive Literal
  | null
  | bool (value : Bool)
  | number (value : Number)
  | string (value : String)
deriving DecidableEq

mutual

/-- A path, with the text that it was compiled from. -/
inductive Path where
  | mk (origin : Origin) (segments : List Segment) (steps : List Step) (source : String)

/-- One step of a path. -/
inductive Step where
  | mk (head : Head) (segments : List Segment)

/-- A bracketed clause. -/
inductive Segment where
  | mk (selectors : List Selector)

/-- An alternative of a bracketed clause. -/
inductive Selector where
  /-- Every child. -/
  | wildcard
  /-- An element of an array, counted from the end if negative. -/
  | index (position : Int64)
  /-- A key of an object. -/
  | name (key : String)
  /-- A range of elements of an array. -/
  | slice (bounds : Slice)
  /-- The children for which an expression holds. -/
  | filter (condition : Filter)

/-- A filter expression. -/
inductive Filter where
  | literal (value : Literal)
  /-- The one value that a path leads to. -/
  | reference (path : Path)
  /-- Whether a path leads to any value, or, if inverted, to none. -/
  | existence (path : Path) (inverted : Bool)
  | negation (operand : Filter)
  | arithmetic (op : ArithmeticOp) (left right : Filter)
  | comparison (op : ComparisonOp) (left right : Filter)
  | logical (op : LogicalOp) (left right : Filter)

end

namespace Path

/-- Where the path starts. -/
def origin : Path → Origin
  | .mk origin _ _ _ => origin

/-- The segments that stand directly after the origin. -/
def segments : Path → List Segment
  | .mk _ segments _ _ => segments

/-- The steps after the first node. -/
def steps : Path → List Step
  | .mk _ _ steps _ => steps

/-- The text that the path was compiled from. -/
def source : Path → String
  | .mk _ _ _ source => source

end Path

/-- Where the step goes. -/
def Step.head : Step → Head
  | .mk head _ => head

/-- The segments of the step. -/
def Step.segments : Step → List Segment
  | .mk _ segments => segments

/-- The alternatives of the segment. -/
def Segment.selectors : Segment → List Selector
  | .mk selectors => selectors

/-- The segment is a union of several alternatives. -/
def Segment.isUnion (s : Segment) : Bool :=
  1 < s.selectors.length

/-- The expression is a binary operation. -/
def Filter.isBinary : Filter → Bool
  | .arithmetic .. | .comparison .. | .logical .. => true
  | _ => false

end PathQuery
