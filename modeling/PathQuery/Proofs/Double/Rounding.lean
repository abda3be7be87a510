import Mathlib.Data.Nat.Log
import Mathlib.Tactic.Ring
import PathQuery.Double.Nearest

/-! # Rounding depends on the value only

`ofRatio?` looks at a quotient, not at the numbers that form it (`ofRatio?_mul`).
The two short cuts of `ofDecimal?` give what rounding gives (`ofDecimal?_eq`), so
`ofDecimal?` looks at the value `mantissa * 10 ^ power`, and a factor of ten may move
between the mantissa and the power (`ofDecimal?_mul_pow`).
-/

namespace PathQuery

theorem roundHalfEven_mul (num den : Nat) {c : Nat} (hc : 0 < c) :
    roundHalfEven (num * c) (den * c) = roundHalfEven num den := by
  have hquot : num * c / (den * c) = num / den := Nat.mul_div_mul_right num den hc
  have htwice : 2 * (num * c % (den * c)) = 2 * (num % den) * c := by
    rw [Nat.mul_mod_mul_right, Nat.mul_assoc]
  simp only [roundHalfEven, hquot, htwice, Nat.mul_lt_mul_right hc]

theorem le_roundHalfEven (num den : Nat) : num / den ≤ roundHalfEven num den := by
  unfold roundHalfEven
  dsimp only
  split
  · exact Nat.le_refl _
  · split <;> omega

theorem roundHalfEven_of_two_mul_lt {num den : Nat} (h : 2 * num < den) :
    roundHalfEven num den = 0 := by
  have hlow : num / den = 0 := Nat.div_eq_of_lt (by omega)
  have hmod : num % den = num := Nat.mod_eq_of_lt (by omega)
  simp [roundHalfEven, hlow, hmod, h]

namespace Double

theorem binadeSize_eq : binadeSize = 2 ^ 52 := by decide

theorem unit_pos : 0 < unit := by decide +kernel

variable {num den : Nat}

theorem rankOf_mul (num den : Nat) {c : Nat} (hc : 0 < c) :
    rankOf (num * c) (den * c) = rankOf num den := by
  have hscale : scaleOf (num * c) (den * c) = scaleOf num den := by
    rw [scaleOf, Nat.mul_right_comm, Nat.mul_div_mul_right _ _ hc, scaleOf]
  have hround : roundHalfEven (num * c * unit) ((den * c) <<< scaleOf num den) =
      roundHalfEven (num * unit) (den <<< scaleOf num den) := by
    rw [Nat.mul_right_comm, Nat.shiftLeft_eq, Nat.shiftLeft_eq, Nat.mul_right_comm den,
      roundHalfEven_mul _ _ hc]
  simp only [rankOf, hscale, hround]

/-- Rounding looks at a quotient only. -/
theorem ofRatio?_mul (negative : Bool) (num den : Nat) {c : Nat} (hc : 0 < c) :
    ofRatio? negative (num * c) (den * c) = ofRatio? negative num den := by
  simp only [ofRatio?, rankOf_mul num den hc]

/-- A quotient of `e + 53` bits or more, counted in units, has a rank beyond `e` binades. -/
theorem le_rankOf (e : Nat) (h : 2 ^ (e + 52) ≤ num * unit / den) :
    (e + 1) * binadeSize ≤ rankOf num den := by
  set quot := num * unit / den with hquot
  have hpos : quot ≠ 0 := Nat.pos_iff_ne_zero.mp (Nat.lt_of_lt_of_le (Nat.two_pow_pos _) h)
  have hlog : e + 52 ≤ quot.log2 := (Nat.le_log2 hpos).mpr h
  set k := scaleOf num den with hk
  have hk52 : k + 52 = quot.log2 := by
    rw [hk, scaleOf, ← hquot]
    omega
  have hround : binadeSize ≤ roundHalfEven (num * unit) (den <<< k) := by
    refine Nat.le_trans ?_ (le_roundHalfEven _ _)
    rw [Nat.shiftLeft_eq, ← Nat.div_div_eq_div_mul, ← hquot, binadeSize_eq,
      Nat.le_div_iff_mul_le (Nat.two_pow_pos k), ← Nat.pow_add, Nat.add_comm, hk52]
    exact Nat.log2_self_le hpos
  have hrank : rankOf num den = k * binadeSize + roundHalfEven (num * unit) (den <<< k) := rfl
  rw [hrank, Nat.succ_mul]
  exact Nat.add_le_add (Nat.mul_le_mul_right _ (by omega)) hround

/-- From `10 ^ 310` on, there is no double. -/
theorem ofRatio?_eq_none (negative : Bool) (hden : 0 < den) (h : 10 ^ 310 * den ≤ num) :
    ofRatio? negative num den = none := by
  have hbig : 2 ^ (2046 + 52) ≤ num * unit / den := by
    rw [Nat.le_div_iff_mul_le hden]
    calc 2 ^ (2046 + 52) * den
        ≤ 10 ^ 310 * unit * den := Nat.mul_le_mul_right _ (by decide +kernel)
      _ = 10 ^ 310 * den * unit := Nat.mul_right_comm ..
      _ ≤ num * unit := Nat.mul_le_mul_right _ h
  have hrank : infinityRank ≤ rankOf num den := le_rankOf 2046 hbig
  rw [ofRatio?, dif_neg (Nat.not_lt.mpr hrank)]

/-- Below half of the least positive double, all is zero. -/
theorem ofRatio?_eq_zero (negative : Bool) (h : 2 * (num * unit) < den) :
    ofRatio? negative num den = some (zero negative) := by
  have hquot : num * unit / den = 0 := Nat.div_eq_of_lt (by omega)
  have hscale : scaleOf num den = 0 := by rw [scaleOf, hquot]; rfl
  have hrank : rankOf num den = 0 := by
    simp only [rankOf, hscale, Nat.zero_mul, Nat.shiftLeft_zero, Nat.zero_add]
    exact roundHalfEven_of_two_mul_lt h
  simp only [ofRatio?, hrank, zero]
  rfl

/-- The short cuts of `ofDecimal?` do not change its answer. -/
theorem ofDecimal?_eq (negative : Bool) (mantissa : Nat) (power : Int) :
    ofDecimal? negative mantissa power =
      ofRatio? negative (mantissa * 10 ^ power.toNat) (10 ^ (-power).toNat) := by
  unfold ofDecimal?
  split
  · rename_i hzero
    rw [hzero, ofRatio?_eq_zero]
    simp
  · rename_i hzero
    split
    · rename_i hbig
      have hneg : (-power).toNat = 0 := by omega
      rw [ofRatio?_eq_none]
      · exact Nat.pow_pos (by decide)
      · calc 10 ^ 310 * 10 ^ (-power).toNat
            = 10 ^ 310 := by rw [hneg, Nat.pow_zero, Nat.mul_one]
          _ ≤ 10 ^ power.toNat := Nat.pow_le_pow_right (by decide) (by omega)
          _ ≤ mantissa * 10 ^ power.toNat := Nat.le_mul_of_pos_left _ (by omega)
    · split
      · rename_i hsmall
        have hpos : power.toNat = 0 := by omega
        have hmantissa : mantissa < 10 ^ (mantissa.log2 + 1) :=
          Nat.lt_of_lt_of_le Nat.lt_log2_self (Nat.pow_le_pow_left (by decide) _)
        rw [ofRatio?_eq_zero]
        calc 2 * (mantissa * 10 ^ power.toNat * unit)
            = mantissa * (2 * unit) := by rw [hpos]; ring
          _ ≤ mantissa * 10 ^ 330 := Nat.mul_le_mul_left _ (by decide +kernel)
          _ < 10 ^ (mantissa.log2 + 1) * 10 ^ 330 :=
              (Nat.mul_lt_mul_right (by decide +kernel)).mpr hmantissa
          _ = 10 ^ (mantissa.log2 + 1 + 330) := (Nat.pow_add ..).symm
          _ ≤ 10 ^ (-power).toNat := Nat.pow_le_pow_right (by decide) (by omega)
      · rfl

/-- Factors of ten may move between the mantissa and the power. -/
theorem ofDecimal?_mul_pow (negative : Bool) (mantissa : Nat) (power : Int) (k : Nat) :
    ofDecimal? negative (mantissa * 10 ^ k) power =
      ofDecimal? negative mantissa (power + k) := by
  rw [ofDecimal?_eq, ofDecimal?_eq]
  -- what the two denominators have more than the other side
  obtain ⟨a, b, hnum, hden⟩ : ∃ a b, k + power.toNat + b = (power + k).toNat + a ∧
      (-power).toNat + b = (-(power + k)).toNat + a := by
    refine ⟨(-power).toNat, (-(power + k)).toNat, ?_, by omega⟩
    omega
  have ha : 0 < 10 ^ a := Nat.pow_pos (by decide)
  have hb : 0 < 10 ^ b := Nat.pow_pos (by decide)
  rw [← ofRatio?_mul negative (mantissa * 10 ^ k * 10 ^ power.toNat) _ hb,
    ← ofRatio?_mul negative (mantissa * 10 ^ (power + k).toNat) _ ha,
    ← Nat.pow_add, ← Nat.pow_add, hden, Nat.mul_assoc, Nat.mul_assoc, Nat.mul_assoc,
    ← Nat.pow_add, ← Nat.pow_add, ← Nat.pow_add, ← Nat.add_assoc, hnum]

end Double
end PathQuery
