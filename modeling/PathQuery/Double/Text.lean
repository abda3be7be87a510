import PathQuery.Double.Nearest
import PathQuery.Text.Numeral

/-! # The text of a double

How many digits a double is written with, where their point stands and when they have an
exponent is left open.  A path only asks of these texts that each be a numeral that reads
back (`LawfulDoubleText`).
-/

namespace PathQuery

/-- A way to write doubles. -/
class DoubleText where
  chars : Double → List Char

/-- The text of a double. -/
def Double.chars [DoubleText] (x : Double) : List Char :=
  DoubleText.chars x

/-- **What is asked of the texts of doubles**: each spells a numeral of ASCII digits that is
not one of an integer, and the double is the nearest to the value of that numeral. -/
class LawfulDoubleText extends DoubleText where
  spelled : ∀ x : Double, ∃ n : Numeral, n.Spells x.chars ∧ n.isAscii = true ∧
    n.isIntegral = false ∧ Double.ofDecimal? n.negative n.mantissa n.power = some x

end PathQuery
