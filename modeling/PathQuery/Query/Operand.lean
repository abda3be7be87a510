import PathQuery.Double.Float
import PathQuery.Query.Error

/-! # Operands of comparisons and arithmetic

An operand is a primitive value or is missing.  Numbers are integers of 128 bits as
long as that is exact, and floats otherwise: two integers give an integer if the
exact result is one of 128 bits, and any other pair is computed, or compared, as
floats.  A missing operand compares with nothing and makes arithmetic missing;
values of different kinds are unequal, and only numbers have an order.
-/

namespace PathQuery

/-- A number in a computation. -/
inductive Numeric
  | integer (value : Int)
  | float (value : Float)

namespace Numeric

/-- A number of a document or a path. -/
def ofNumber : Number → Numeric
  | .integer n _ => .integer n
  | .float x => .float x.toFloat

/-- The nearest float. -/
def toFloat : Numeric → Float
  | .integer n => Arithmetic.floatOfInt n
  | .float x => x

/-- The number is zero. -/
def isZero : Numeric → Bool
  | .integer n => n == 0
  | .float x => x == 0.0

/-- Equality: of integers exactly, otherwise of floats. -/
def equal : Numeric → Numeric → Bool
  | .integer a, .integer b => a == b
  | a, b => a.toFloat == b.toFloat

/-- Less than: of integers exactly, otherwise of floats. -/
def less : Numeric → Numeric → Bool
  | .integer a, .integer b => a < b
  | a, b => a.toFloat < b.toFloat

/-- Less than or equal: of integers exactly, otherwise of floats. -/
def lessEqual : Numeric → Numeric → Bool
  | .integer a, .integer b => a ≤ b
  | a, b => a.toFloat ≤ b.toFloat

/-- The integers of 128 bits. -/
def FitsExact (n : Int) : Prop :=
  -0x80000000000000000000000000000000 ≤ n ∧ n < 0x80000000000000000000000000000000

instance (n : Int) : Decidable (FitsExact n) :=
  inferInstanceAs (Decidable (_ ∧ _))

/-- An integer, if it is one of 128 bits. -/
def fit (n : Int) : Option Int :=
  if FitsExact n then some n else none

/-- The exact result of an operation on integers, if that is an integer of 128
bits.  A division, or a remainder, needs a divisor and a quotient that fits; a
quotient is exact only without a remainder. -/
def exact (op : ArithmeticOp) (a b : Int) : Option Int :=
  match op with
  | .add => fit (a + b)
  | .subtract => fit (a - b)
  | .multiply => fit (a * b)
  | .divide => if b ≠ 0 ∧ a.tmod b = 0 then fit (a.tdiv b) else none
  | .modulo => if b ≠ 0 ∧ FitsExact (a.tdiv b) then some (a.tmod b) else none

/-- The result of an operation on floats. -/
def inexact (op : ArithmeticOp) (a b : Float) : Float :=
  match op with
  | .add => a + b
  | .subtract => a - b
  | .multiply => a * b
  | .divide => a / b
  | .modulo => Arithmetic.remainder a b

/-- The result of an operation: exact on integers where it can be. -/
def apply (a : Numeric) (op : ArithmeticOp) (b : Numeric) : Numeric :=
  let float := Numeric.float (inexact op a.toFloat b.toFloat)
  match a, b with
  | .integer m, .integer n => ((exact op m n).map .integer).getD float
  | _, _ => float

end Numeric

/-- A primitive value. -/
inductive Scalar
  | null
  | bool (value : Bool)
  | number (value : Numeric)
  | string (value : String)

namespace Scalar

/-- A constant as a value. -/
def ofLiteral : Literal → Scalar
  | .null => .null
  | .bool b => .bool b
  | .number n => .number (.ofNumber n)
  | .string s => .string s

/-- A value of a document, if it is primitive. -/
def ofJson? : Json → Option Scalar
  | .null => some .null
  | .bool b => some (.bool b)
  | .number n => some (.number (.ofNumber n))
  | .string s => some (.string s)
  | .array _ | .object _ => none

/-- The number that a value is. -/
def asNumber? : Scalar → Option Numeric
  | .number n => some n
  | _ => none

/-- Equality of values. -/
def equal : Scalar → Scalar → Bool
  | .null, .null => true
  | .bool a, .bool b => a == b
  | .number a, .number b => a.equal b
  | .string a, .string b => a == b
  | _, _ => false

/-- The order of two values; there is one only of numbers. -/
def ordered (before : Numeric → Numeric → Bool) : Scalar → Scalar → Bool
  | .number a, .number b => before a b
  | _, _ => false

/-- A comparison of two values. -/
def compare (a : Scalar) (op : ComparisonOp) (b : Scalar) : Bool :=
  match op with
  | .eq => a.equal b
  | .ne => !a.equal b
  | .lt => ordered Numeric.less a b
  | .le => ordered Numeric.lessEqual a b
  | .gt => ordered Numeric.less b a
  | .ge => ordered Numeric.lessEqual b a

/-- An arithmetic operation on two values. -/
def arithmetic (a : Scalar) (op : ArithmeticOp) (b : Scalar) : Except EvalError Scalar :=
  match a.asNumber?, b.asNumber? with
  | some x, some y =>
    if (op = .divide ∨ op = .modulo) ∧ y.isZero then .error (.zeroDivisor op)
    else .ok (.number (x.apply op y))
  | _, _ => .error (.notNumeric op)

end Scalar

/-- A value, or nothing. -/
abbrev Operand := Option Scalar

namespace Operand

/-- A comparison; with a missing operand it does not hold. -/
def compare (a : Operand) (op : ComparisonOp) (b : Operand) : Bool :=
  match a, b with
  | some a, some b => Scalar.compare a op b
  | _, _ => false

/-- Arithmetic; with a missing operand the result is missing. -/
def arithmetic (a : Operand) (op : ArithmeticOp) (b : Operand) : Except EvalError Operand :=
  match a, b with
  | some a, some b => (Scalar.arithmetic a op b).map some
  | _, _ => .ok none

end Operand
end PathQuery
