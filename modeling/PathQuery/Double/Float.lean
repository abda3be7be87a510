import PathQuery.Double.Nearest

/-! # Doubles and machine floats

Arithmetic is done on `Float`, where infinities and NaN can arise; a finite
`Float` and a `Double` are two views of one encoding.  The remainder of two floats
is exact: finite doubles are multiples of one unit, so it is the remainder of two
natural numbers, and it takes the sign of the dividend.
-/

namespace PathQuery
namespace Double

/-- The place value of the sign in the encoding. -/
def signBit : Nat := 0x8000000000000000

/-- The float with this value. -/
def toFloat (x : Double) : Float :=
  Float.ofBits (UInt64.ofNat (x.rank + if x.negative then signBit else 0))

/-- A finite float as a double. -/
def ofFloat? (x : Float) : Option Double :=
  let bits := x.toBits.toNat
  if h : bits % signBit < infinityRank then some ⟨signBit ≤ bits, bits % signBit, h⟩ else none

/-- The remainder of the absolute values, with the sign of the dividend. -/
def remainder? (x y : Double) : Option Double :=
  ofRatio? x.negative (x.numerator % y.numerator) unit

end Double

namespace Arithmetic

/-- Not a number. -/
def nan : Float := 0.0 / 0.0

/-- Positive infinity. -/
def infinity : Float := 1.0 / 0.0

/-- The float nearest to an integer. -/
def floatOfInt (n : Int) : Float :=
  match Double.ofInt? n with
  | some x => x.toFloat
  | none => if n < 0 then -infinity else infinity

/-- The remainder of a division rounded toward zero.  There is none of an infinite
dividend or by zero, and an infinite divisor leaves the dividend as it is. -/
def remainder (a b : Float) : Float :=
  match Double.ofFloat? a with
  | none => nan
  | some x =>
    match Double.ofFloat? b with
    | none => if b.isNaN then nan else a
    | some y =>
      if y.isZero then nan
      else
        match x.remainder? y with
        | some r => r.toFloat
        | none => nan

end Arithmetic
end PathQuery
