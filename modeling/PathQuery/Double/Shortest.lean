import PathQuery.Double.Nearest

/-! # The shortest decimal of a double

Of the decimals that read back as a given double, `Double.shortest` takes one with
the fewest digits, and of several with that many digits the one nearest to the
double, of two equally near the one with the even last digit.  For a number of
digits only the two neighbours of the double on that decimal grid can be the
answer; the nearer one is tried first.  Seventeen digits are always enough.  The
exact expansion of the double stands at the end of the search, so that the answer
reads back without an appeal to that fact.
-/

namespace PathQuery

/-- A decimal `digits * 10 ^ power`. -/
structure Decimal where
  digits : Nat
  power : Int
deriving DecidableEq, Repr

namespace Double

/-- The exponent of the first digit of a positive double: the value lies between
`10 ^ firstExponent` and ten times that. -/
def firstExponent (x : Double) : Int :=
  if unit ≤ x.numerator then ((Nat.toDigits 10 (x.numerator / unit)).length : Int) - 1
  else -((Nat.toDigits 10 ((unit - 1) / x.numerator)).length : Int)

/-- The two neighbours of the double among the multiples of `10 ^ power`, the
nearer one first, and of two equally near the even one. -/
def neighbours (x : Double) (power : Int) : List Nat :=
  let num := x.numerator * Nat.pow 10 (-power).toNat
  let den := unit * Nat.pow 10 power.toNat
  let low := num / den
  let twice := 2 * (num % den)
  if twice < den ∨ (twice = den ∧ low % 2 = 0) then [low, low + 1] else [low + 1, low]

/-- The decimal reads back as the double. -/
def readsBack (x : Double) (d : Decimal) : Bool :=
  ofDecimal? x.negative d.digits d.power == some x

/-- The decimal with a given number of digits that reads back, if there is one. -/
def withDigits? (x : Double) (count : Nat) : Option Decimal :=
  let power := x.firstExponent + 1 - count
  ((x.neighbours power).map (⟨·, power⟩)).find? x.readsBack

/-- All digits of the double. -/
def exact (x : Double) : Decimal :=
  ⟨x.numerator * Nat.pow 5 1074, -1074⟩

/-- The shortest decimal that reads back as the double. -/
def shortest (x : Double) : Decimal :=
  ((List.range' 1 17).findSome? x.withDigits?).getD x.exact

end Double
end PathQuery
