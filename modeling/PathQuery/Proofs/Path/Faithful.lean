import PathQuery.Path.Operators
import PathQuery.Text.Blank

/-! # Paths that their canonical texts stand for

A canonical text loses three things.  White space at the ends of a bare name is trimmed,
though it was escaped when the name was compiled.  An arithmetic operator behind an
operand that ends like an operator is not found.  The parentheses that are written around
expressions count as levels of nesting, whether they were written before or not.

`Path.isFaithful` leaves the first two out, and `Path.levels` counts the third.
-/

namespace PathQuery

/-! ## Operands that end like an operator -/

/-- The last character of the name is one of an operator's. -/
def KeyTest.endsLikeOperator : KeyTest → Bool
  | .any => true
  | .name key => key.toList.getLast?.any Occurrence.isOperatorChar

/-- The step has such a name, which is not empty. -/
def Head.endsLikeOperator : Head → Bool
  | .child key | .descend (some key) => key.endsLikeOperator
  | .here | .descend none => false

/-- Nothing follows the name of the step, and it ends like an operator. -/
def Step.endsLikeOperator : Step → Bool
  | .mk head segments => segments.isEmpty && head.endsLikeOperator

/-- The last step of the path ends like an operator. -/
def Path.endsLikeOperator : Path → Bool
  | .mk _ _ steps _ => steps.getLast?.any Step.endsLikeOperator

/-- The operand is a path that ends like an operator. -/
def Filter.endsLikeOperator : Filter → Bool
  | .reference p | .existence p _ => p.endsLikeOperator
  | _ => false

/-! ## Faithful paths -/

/-- The bare name is not empty and has no white space at its ends. -/
def KeyTest.isFaithful : KeyTest → Bool
  | .any => true
  | .name key => !key.toList.isEmpty && Text.trim key.toList == key.toList

/-- So is the name of the step, if it has one. -/
def Head.isFaithful : Head → Bool
  | .child key | .descend (some key) => key.isFaithful
  | .here | .descend none => true

mutual

/-- All bare names keep their characters, and all arithmetic operators are found. -/
def Path.isFaithful : Path → Bool
  | .mk _ segments steps _ => Segment.allFaithful segments && Step.allFaithful steps

/-- So it is for every step. -/
def Step.allFaithful : List Step → Bool
  | [] => true
  | .mk head segments :: rest =>
    (head.isFaithful && Segment.allFaithful segments) && Step.allFaithful rest

/-- So it is for every segment. -/
def Segment.allFaithful : List Segment → Bool
  | [] => true
  | .mk selectors :: rest => Selector.allFaithful selectors && Segment.allFaithful rest

/-- So it is for every selector; only filters have parts. -/
def Selector.allFaithful : List Selector → Bool
  | [] => true
  | .filter f :: rest => Filter.isFaithful f && Selector.allFaithful rest
  | _ :: rest => Selector.allFaithful rest

/-- So it is for the parts of the expression, and an arithmetic operator is not
swallowed by the operand before it. -/
def Filter.isFaithful : Filter → Bool
  | .literal _ => true
  | .reference p | .existence p _ => Path.isFaithful p
  | .negation f => Filter.isFaithful f
  | .arithmetic _ a b => !a.endsLikeOperator && (Filter.isFaithful a && Filter.isFaithful b)
  | .comparison _ a b | .logical _ a b => Filter.isFaithful a && Filter.isFaithful b

end

/-! ## Levels of nesting -/

/-- An operand, one level deeper if it is written in parentheses. -/
def Filter.operandLevels (operand : Filter) (levels : Nat) : Nat :=
  if operand.isBinary then levels + 1 else levels

mutual

/-- How many levels the filters of the canonical text are nested. -/
def Path.levels : Path → Nat
  | .mk _ segments steps _ => max (Segment.listLevels segments) (Step.listLevels steps)

/-- The greatest number of levels of a step. -/
def Step.listLevels : List Step → Nat
  | [] => 0
  | .mk _ segments :: rest => max (Segment.listLevels segments) (Step.listLevels rest)

/-- The greatest number of levels of a segment. -/
def Segment.listLevels : List Segment → Nat
  | [] => 0
  | .mk selectors :: rest => max (Selector.listLevels selectors) (Segment.listLevels rest)

/-- The greatest number of levels of a selector: a filter is one level, and the
parentheses in it are another. -/
def Selector.listLevels : List Selector → Nat
  | [] => 0
  | .filter f :: rest => max (Filter.levels f + 2) (Selector.listLevels rest)
  | _ :: rest => Selector.listLevels rest

/-- How many levels there are below an expression. -/
def Filter.levels : Filter → Nat
  | .literal _ => 0
  | .reference p | .existence p _ => Path.levels p
  | .negation f => Filter.levels f + 1
  | .arithmetic _ a b | .comparison _ a b | .logical _ a b =>
    max (a.operandLevels (Filter.levels a)) (b.operandLevels (Filter.levels b))

end

end PathQuery
