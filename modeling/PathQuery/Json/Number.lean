import PathQuery.Double.Text
import PathQuery.Text.Integer
import PathQuery.Text.Numeral

/-! # JSON numbers

A JSON number is an exact integer, if it fits a signed or an unsigned word of 64
bits, or a finite double.  The two kinds are never equal as numbers of a document,
and the two zeros among the doubles are.
-/

namespace PathQuery

/-- An integer that fits 64 bits, with or without a sign. -/
def FitsWord (n : Int) : Prop :=
  -0x8000000000000000 ≤ n ∧ n < 0x10000000000000000

instance (n : Int) : Decidable (FitsWord n) :=
  inferInstanceAs (Decidable (_ ∧ _))

/-- A number of a document or of a path. -/
inductive Number
  | integer (value : Int) (fits : FitsWord value)
  | float (value : Double)
deriving DecidableEq

namespace Number

instance : Inhabited Number := ⟨.integer 0 (by decide)⟩

/-- The number that is an integer, if that fits. -/
def ofInt? (n : Int) : Option Number :=
  if h : FitsWord n then some (.integer n h) else none

/-- A word as a number. -/
def ofInt64 (n : Int64) : Number :=
  .integer n.toInt ⟨Int64.le_toInt n, Int.lt_trans (Int64.toInt_lt n) (by decide)⟩

/-- Equality of numbers. -/
def same : Number → Number → Bool
  | .integer a _, .integer b _ => a == b
  | .float x, .float y => x.sameValue y
  | _, _ => false

/-- The text of a number. -/
def chars [DoubleText] : Number → List Char
  | .integer n _ => Text.integerChars n
  | .float x => x.chars

/-- The integer that a numeral without fraction and exponent writes. -/
def integerOf (n : Numeral) : Int :=
  if n.negative then -(n.mantissa : Int) else n.mantissa

/-- The number that a numeral of ASCII digits writes: an exact integer if the
numeral has the form of one and the integer fits, and otherwise the nearest
double, unless that is infinite. -/
def ofNumeral? (n : Numeral) : Option Number :=
  let float := (Double.ofDecimal? n.negative n.mantissa n.power).map Number.float
  if n.isIntegral then (ofInt? (integerOf n)).or float else float

@[simp] theorem same_self (n : Number) : n.same n = true := by
  cases n <;> simp [same]

theorem same_comm : ∀ a b : Number, a.same b = b.same a
  | .integer m _, .integer n _ => by
    rw [same, same, Bool.eq_iff_iff, beq_iff_eq, beq_iff_eq]
    exact eq_comm
  | .float x, .float y => Double.sameValue_comm x y
  | .integer _ _, .float _ => rfl
  | .float _, .integer _ _ => rfl

end Number
end PathQuery
