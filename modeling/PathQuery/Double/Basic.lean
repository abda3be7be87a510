/-! # Finite doubles

A finite double is a sign and a non-negative double, and the non-negative doubles
are numbered in increasing order: `0`, then the least positive one, and so on.
This `rank` is also the content of the lower 63 bits of the double's encoding.

Every finite double is a multiple of the least positive one, `1 / unit`, so its
value is `numerator / unit`.  From a power of two up to the next, in one *binade*,
the doubles stand at equal distances: `significand` counts these distances, and
`scale` says how large they are.
-/

namespace PathQuery

/-- The number of doubles in a binade, two to the power 52. -/
def Double.binadeSize : Nat := 0x10000000000000

/-- The rank that would come after the greatest finite double; it belongs to
infinity. -/
def Double.infinityRank : Nat := 2047 * binadeSize

/-- A finite double. -/
structure Double where
  negative : Bool
  rank : Nat
  rank_lt : rank < Double.infinityRank
deriving DecidableEq, Repr

namespace Double

/-- The double `0.0` or `-0.0`. -/
def zero (negative : Bool) : Double :=
  ⟨negative, 0, by decide⟩

instance : Inhabited Double := ⟨zero false⟩

/-- How many of the least positive doubles make one: two to the power 1074. -/
def unit : Nat := 1 <<< 1074

/-- The number of steps of size `2 ^ scale / unit` that make the absolute value. -/
def significand (x : Double) : Nat :=
  if x.rank < binadeSize then x.rank else binadeSize + x.rank % binadeSize

/-- The exponent of the step size around the double. -/
def scale (x : Double) : Nat :=
  x.rank / binadeSize - 1

/-- The absolute value, counted in units of `1 / unit`. -/
def numerator (x : Double) : Nat :=
  x.significand <<< x.scale

/-- The double is `0.0` or `-0.0`. -/
def isZero (x : Double) : Bool :=
  x.rank == 0

/-- Numeric equality: the two zeros are equal, and otherwise only a double is
equal to itself. -/
def sameValue (x y : Double) : Bool :=
  x.rank == y.rank && (x.negative == y.negative || x.rank == 0)

@[simp] theorem sameValue_self (x : Double) : x.sameValue x = true := by
  simp [sameValue]

theorem sameValue_comm (x y : Double) : x.sameValue y = y.sameValue x := by
  unfold sameValue
  by_cases h : x.rank = y.rank
  · rw [h, Bool.beq_comm (a := x.negative)]
  · rw [beq_eq_false_iff_ne.mpr h, beq_eq_false_iff_ne.mpr (Ne.symm h)]
    rfl

end Double
end PathQuery
