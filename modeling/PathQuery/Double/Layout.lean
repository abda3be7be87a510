import PathQuery.Double.Shortest
import PathQuery.Double.Text

/-! # The layout of a double

The program writes a double with the digits of its shortest decimal.  While the exponent
of the first digit stays within the bounds of the layout, the digits are written
positionally, with at least one digit after the point; beyond them the text is
scientific, with one digit before the point, no point without a digit after it,
and a signed exponent.
-/

namespace PathQuery

/-- The exponents of the first digit between which a number is written
positionally. -/
structure DecimalLayout where
  leastPositional : Int
  greatestPositional : Int
deriving DecidableEq, Repr

/-- Numbers from `0.00001` up to, and not including, `1e+16` are positional. -/
def DecimalLayout.standard : DecimalLayout := ⟨-5, 15⟩

namespace DecimalLayout

/-- Digits that stand wholly or partly before the point; the first of them counts
`10 ^ exponent`. -/
def positional (digits : List Char) (exponent : Nat) : List Char :=
  let whole := exponent + 1
  if digits.length ≤ whole then
    digits ++ List.replicate (whole - digits.length) '0' ++ ['.', '0']
  else digits.take whole ++ '.' :: digits.drop whole

/-- Digits that stand wholly after the point, behind `zeros` zeros. -/
def fractional (digits : List Char) (zeros : Nat) : List Char :=
  '0' :: '.' :: (List.replicate zeros '0' ++ digits)

/-- Scientific notation. -/
def scientific (digits : List Char) (exponent : Int) : List Char :=
  let tail := digits.drop 1
  digits.take 1 ++ (if tail.isEmpty then [] else '.' :: tail) ++
    'e' :: (if exponent < 0 then '-' else '+') :: Nat.toDigits 10 exponent.natAbs

/-- The text of a number with given significant digits, the first of which counts
`10 ^ exponent`. -/
def chars (layout : DecimalLayout) (digits : List Char) (exponent : Int) : List Char :=
  if layout.leastPositional ≤ exponent ∧ exponent ≤ layout.greatestPositional then
    if exponent < 0 then fractional digits (-exponent - 1).toNat
    else positional digits exponent.toNat
  else scientific digits exponent

/-! The bounds of the standard layout, from either side. -/

example : String.ofList (standard.chars ['1'] (-5)) = "0.00001" := by decide
example : String.ofList (standard.chars ['1'] (-6)) = "1e-6" := by decide
example : String.ofList (standard.chars ['1', '5'] 15) = "1500000000000000.0" := by decide
example : String.ofList (standard.chars ['1', '5'] 16) = "1.5e+16" := by decide

end DecimalLayout

namespace Decimal

/-- The digits without trailing zeros. -/
def significant (d : Decimal) : List Char :=
  ((Nat.toDigits 10 d.digits).reverse.dropWhile (· == '0')).reverse

/-- The exponent of the first digit. -/
def firstExponent (d : Decimal) : Int :=
  d.power + (Nat.toDigits 10 d.digits).length - 1

end Decimal

namespace Double

/-- The text of the absolute value in the standard layout. -/
def unsignedChars (x : Double) : List Char :=
  if x.isZero then ['0', '.', '0']
  else DecimalLayout.standard.chars x.shortest.significant x.shortest.firstExponent

/-- The text of a double in the standard layout. -/
def standardChars (x : Double) : List Char :=
  if x.negative then '-' :: x.unsignedChars else x.unsignedChars

end Double

instance (priority := low) DoubleText.standard : DoubleText :=
  ⟨Double.standardChars⟩

end PathQuery
