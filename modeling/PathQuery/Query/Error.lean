import PathQuery.Json.Location
import PathQuery.Path.Printer

/-! # Why a path cannot be applied

An evaluation error is about the shape of the document, or about an expression
that has no meaning for its values.  A failure is either that, or that nothing
matched, or that the path did not compile.
-/

namespace PathQuery

/-- The last step of a path, as an entry that is to be created. -/
inductive NewEntry
  | key (name : String)
  | index (position : Int64)
deriving DecidableEq, Repr

/-- The words for a new entry. -/
def NewEntry.text : NewEntry → String
  | .key name => "key '" ++ name ++ "'"
  | .index i => "index " ++ String.ofList (Text.integerChars i.toInt)

/-- What went wrong in applying a path. -/
inductive EvalError
  /-- A bare name is applied to a value that is no object. -/
  | notAnObject (name : String) (kind : Kind) (location : Location)
  /-- A deep scan meets values nested beyond the limit. -/
  | tooDeep (limit : Nat) (location : Location)
  /-- A constant other than a truth value is a condition. -/
  | literalCondition (value : Literal)
  /-- Arithmetic is a condition. -/
  | arithmeticCondition (expression : Filter)
  /-- A condition is an operand. -/
  | notAValue (expression : Filter)
  /-- An operand is an object or an array. -/
  | notComparable (source : String) (kind : Kind)
  /-- An operand of arithmetic is no number. -/
  | notNumeric (op : ArithmeticOp)
  /-- A division by zero. -/
  | zeroDivisor (op : ArithmeticOp)
  /-- The root of a document is to be removed. -/
  | rootRemoval
  /-- A value has no room for a new entry. -/
  | noRoom (entry : NewEntry) (kind : Kind) (location : Location)
  /-- A location that matched is no longer there. -/
  | vanished (location : Location)
  /-- A value did not take a new entry. -/
  | refused (entry : NewEntry) (location : Location)

namespace EvalError

/-- An expression in back quotes. -/
def cited (text : String) : String :=
  "`" ++ text ++ "`"

/-- What an error says. -/
def message [DoubleText] : EvalError → String
  | .notAnObject name kind location =>
    "cannot select '" ++ name ++ "' from the " ++ kind.name ++ " at " ++ location.text
  | .tooDeep limit location =>
    "document nesting exceeds maximum depth of " ++ String.ofList (Nat.toDigits 10 limit) ++
      " at " ++ location.text
  | .literalCondition value => "literal " ++ cited value.text ++ " is not a boolean"
  | .arithmeticCondition expression => cited expression.text ++ " is not a boolean expression"
  | .notAValue expression => cited expression.text ++ " cannot be used as a value"
  | .notComparable source kind =>
    cited source ++ " resolves to an " ++ kind.name ++ ", which cannot be compared"
  | .notNumeric op =>
    "operator '" ++ (Operator.arithmetic op).symbol ++ "' requires numeric operands"
  | .zeroDivisor op => "operator '" ++ (Operator.arithmetic op).symbol ++ "' with a zero divisor"
  | .rootRemoval => "cannot remove the document root"
  | .noRoom entry kind location =>
    "cannot create " ++ entry.text ++ " in the " ++ kind.name ++ " at " ++ location.text
  | .vanished location => location.text ++ " no longer exists"
  | .refused entry location => "cannot create " ++ entry.text ++ " at " ++ location.text

end EvalError

/-- Why an operation has no result. -/
inductive Failure
  /-- The path did not compile. -/
  | malformed (error : SyntaxError)
  /-- Nothing matched the path with this text. -/
  | notFound (source : String)
  /-- The path cannot be applied to the document. -/
  | evaluation (error : EvalError)

/-- What a failure says. -/
def Failure.message [DoubleText] : Failure → String
  | .malformed e => "syntax error: " ++ e.text
  | .notFound source => "no match for " ++ EvalError.cited source
  | .evaluation e => "evaluation error: " ++ e.message

end PathQuery
