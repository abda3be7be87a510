import PathQuery.Double.Shortest
import PathQuery.Proofs.Double.Rounding

/-! # A double reads back from its shortest decimal

All digits of a double read back as that double (`readsBack_exact`), so the search for
a shorter decimal always has an answer that does (`readsBack_shortest`).
-/

namespace PathQuery
namespace Double

variable {x : Double}

theorem significand_lt (x : Double) : x.significand < 2 ^ 53 := by
  have hbinade : binadeSize = 2 ^ 52 := binadeSize_eq
  unfold significand
  split
  · omega
  · have hmod : x.rank % binadeSize < binadeSize := Nat.mod_lt _ (by decide)
    omega

/-- Beyond the first binade, the leading bit of a significand is set. -/
theorem le_significand (h : x.scale ≠ 0) : 2 ^ 52 ≤ x.significand := by
  have hbinade : binadeSize = 2 ^ 52 := binadeSize_eq
  unfold scale at h
  have hrank : binadeSize ≤ x.rank := by
    by_contra hlt
    rw [Nat.div_eq_of_lt (Nat.lt_of_not_le hlt)] at h
    exact h rfl
  rw [significand, if_neg (Nat.not_lt.mpr hrank)]
  omega

theorem rank_eq (x : Double) : x.scale * binadeSize + x.significand = x.rank := by
  unfold scale significand
  split
  · rename_i h
    rw [Nat.div_eq_of_lt h]
    simp
  · rename_i h
    have hquot : 1 ≤ x.rank / binadeSize :=
      (Nat.one_le_div_iff (by decide)).mpr (Nat.le_of_not_lt h)
    have hsplit := Nat.div_add_mod x.rank binadeSize
    calc (x.rank / binadeSize - 1) * binadeSize + (binadeSize + x.rank % binadeSize)
        = (x.rank / binadeSize - 1 + 1) * binadeSize + x.rank % binadeSize := by ring
      _ = x.rank / binadeSize * binadeSize + x.rank % binadeSize := by
          rw [Nat.sub_add_cancel hquot]
      _ = x.rank := by rw [Nat.mul_comm]; exact hsplit

theorem numerator_eq (x : Double) : x.numerator = x.significand * 2 ^ x.scale :=
  Nat.shiftLeft_eq ..

theorem scaleOf_numerator (x : Double) : scaleOf x.numerator unit = x.scale := by
  rw [scaleOf, Nat.mul_div_cancel _ unit_pos]
  by_cases hscale : x.scale = 0
  · have hlt : x.numerator < 2 ^ 53 := by
      rw [numerator_eq, hscale, Nat.pow_zero, Nat.mul_one]
      exact significand_lt x
    by_cases hzero : x.numerator = 0
    · simp [hzero, hscale]
    · have hlog : x.numerator.log2 < 53 := (Nat.log2_lt hzero).mpr hlt
      omega
  · have hlow := le_significand hscale
    have hpos : x.numerator ≠ 0 := by
      rw [numerator_eq]
      exact Nat.mul_ne_zero (by omega) (Nat.two_pow_pos _).ne'
    have hlog : x.numerator.log2 = 52 + x.scale := by
      rw [Nat.log2_eq_iff hpos, numerator_eq, Nat.pow_add, Nat.add_right_comm, Nat.pow_add]
      exact ⟨Nat.mul_le_mul_right _ hlow,
        (Nat.mul_lt_mul_right (Nat.two_pow_pos _)).mpr (significand_lt x)⟩
    omega

theorem rankOf_numerator (x : Double) : rankOf x.numerator unit = x.rank := by
  have hround : roundHalfEven (x.numerator * unit) (unit <<< x.scale) = x.significand := by
    have hden : unit <<< x.scale = 2 ^ x.scale * unit := by rw [Nat.shiftLeft_eq, Nat.mul_comm]
    have hsplit : roundHalfEven (x.significand * 2 ^ x.scale) (1 * 2 ^ x.scale) =
        roundHalfEven x.significand 1 := roundHalfEven_mul _ _ (Nat.two_pow_pos _)
    rw [hden, roundHalfEven_mul _ _ unit_pos, numerator_eq]
    rw [Nat.one_mul] at hsplit
    rw [hsplit]
    simp [roundHalfEven, Nat.mod_one]
  have hrank : rankOf x.numerator unit = scaleOf x.numerator unit * binadeSize +
      roundHalfEven (x.numerator * unit) (unit <<< scaleOf x.numerator unit) := rfl
  rw [hrank, scaleOf_numerator, hround, rank_eq]

/-- The value of a double is rounded to the double. -/
theorem ofRatio?_numerator (x : Double) : ofRatio? x.negative x.numerator unit = some x := by
  simp only [ofRatio?, rankOf_numerator]
  exact dif_pos x.rank_lt

theorem readsBack_iff {d : Decimal} :
    x.readsBack d = true ↔ ofDecimal? x.negative d.digits d.power = some x := by
  rw [readsBack, beq_iff_eq]

theorem readsBack_exact (x : Double) : x.readsBack x.exact = true := by
  have hten : unit * 5 ^ 1074 = 10 ^ 1074 := by decide +kernel
  have hfive : 0 < 5 ^ 1074 := by decide +kernel
  have hpower : (-(-1074 : Int)).toNat = 1074 := rfl
  have hnum : x.numerator * Nat.pow 5 1074 * 10 ^ (-1074 : Int).toNat =
      x.numerator * 5 ^ 1074 := Nat.mul_one _
  rw [readsBack_iff, exact, ofDecimal?_eq, hnum, hpower, ← hten, ofRatio?_mul _ _ _ hfive]
  exact ofRatio?_numerator x

/-- **The shortest decimal of a double reads back as that double.** -/
theorem readsBack_shortest (x : Double) : x.readsBack x.shortest = true := by
  unfold shortest
  cases hsearch : (List.range' 1 17).findSome? x.withDigits? with
  | none => exact readsBack_exact x
  | some d =>
    obtain ⟨count, _, hcount⟩ := List.exists_of_findSome?_eq_some hsearch
    exact List.find?_some hcount

end Double
end PathQuery
