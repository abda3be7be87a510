import PathQuery.Double.Basic

/-! # The nearest double

`Double.ofRatio?` rounds a quotient of natural numbers to the nearest double, a
half-way case to the one with the even significand.  With the quotient scaled to
multiples of the least positive double, the number of its leading bits beyond the
53 that a significand holds is the scale; what is rounded is the scaled quotient
divided by that power of two.  A significand that rounds up to the next power of
two carries into the rank, which is then the rank of the right double.
-/

namespace PathQuery

/-- The natural number nearest to `num / den`, the even one of two equally near. -/
def roundHalfEven (num den : Nat) : Nat :=
  let low := num / den
  let twice := 2 * (num % den)
  if twice < den then low
  else if den < twice then low + 1
  else low + low % 2

namespace Double

/-- The scale of the doubles around `num / den`. -/
def scaleOf (num den : Nat) : Nat :=
  (num * unit / den).log2 - 52

/-- The rank of the double nearest to `num / den`. -/
def rankOf (num den : Nat) : Nat :=
  let k := scaleOf num den
  k * binadeSize + roundHalfEven (num * unit) (den <<< k)

/-- The double nearest to `num / den`, with a given sign; none if that is
infinity. -/
def ofRatio? (negative : Bool) (num den : Nat) : Option Double :=
  if h : rankOf num den < infinityRank then some ⟨negative, rankOf num den, h⟩ else none

/-- The double nearest to `mantissa * 10 ^ power`, with a given sign; none if that
is infinity.

A power above 309 takes any positive mantissa beyond the greatest double.  A
mantissa of `b` bits is below `10 ^ b`, so a power under `-330 - b` takes it below
half of the least positive double.  Both are answered without forming the power. -/
def ofDecimal? (negative : Bool) (mantissa : Nat) (power : Int) : Option Double :=
  if mantissa = 0 then some (zero negative)
  else if 309 < power then none
  else if power + (mantissa.log2 + 1) < -330 then some (zero negative)
  else ofRatio? negative (mantissa * Nat.pow 10 power.toNat) (Nat.pow 10 (-power).toNat)

/-- The double nearest to an integer; none if that is infinity. -/
def ofInt? (n : Int) : Option Double :=
  ofRatio? (n < 0) n.natAbs 1

end Double
end PathQuery
