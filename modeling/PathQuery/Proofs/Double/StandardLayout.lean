import PathQuery.Double.Layout
import PathQuery.Proofs.Double.ReadBack
import PathQuery.Proofs.Text.NumeralText
import PathQuery.Text.Integer

/-! # The standard layout reads back

In the standard layout, the text of a double is the text of a numeral
(`Double.chars_numeral`), and the double is the nearest to the value of that numeral
(`Double.ofDecimal?_numeral`), because the layout of its digits keeps the value of its
shortest decimal (`DecimalLayout.value_numeral`).  So the layout does what is asked of the
texts of doubles (`LawfulDoubleText.standard`).
-/

namespace PathQuery
namespace DecimalLayout

/-- The numeral that a layout writes. -/
def numeral (layout : DecimalLayout) (negative : Bool) (digits : List Char)
    (exponent : Int) : Numeral :=
  if layout.leastPositional ≤ exponent ∧ exponent ≤ layout.greatestPositional then
    if exponent < 0 then
      ⟨negative, ['0'], List.replicate (-exponent - 1).toNat '0' ++ digits, none⟩
    else if digits.length ≤ exponent.toNat + 1 then
      ⟨negative, digits ++ List.replicate (exponent.toNat + 1 - digits.length) '0', ['0'], none⟩
    else ⟨negative, digits.take (exponent.toNat + 1), digits.drop (exponent.toNat + 1), none⟩
  else
    ⟨negative, digits.take 1, digits.drop 1,
      some (decide (exponent < 0), Nat.toDigits 10 exponent.natAbs)⟩

variable {layout : DecimalLayout} {negative : Bool} {digits : List Char} {exponent : Int}

theorem negative_numeral : (layout.numeral negative digits exponent).negative = negative := by
  unfold numeral
  split
  · split
    · rfl
    · split <;> rfl
  · rfl

theorem unsignedChars_numeral (hne : digits ≠ []) :
    (layout.numeral negative digits exponent).unsignedChars = layout.chars digits exponent := by
  unfold numeral chars
  split
  · split
    · simp [Numeral.unsignedChars, Numeral.fractionChars, Numeral.exponentChars, fractional, hne]
    · split
      · rename_i hlen
        simp [Numeral.unsignedChars, Numeral.fractionChars, Numeral.exponentChars, positional,
          if_pos hlen]
      · rename_i hlen
        simp [Numeral.unsignedChars, Numeral.fractionChars, Numeral.exponentChars, positional,
          if_neg hlen, List.drop_eq_nil_iff]
  · simp [Numeral.unsignedChars, Numeral.fractionChars, Numeral.exponentChars, scientific]

theorem proper_numeral (hne : digits ≠ []) (hd : ∀ c ∈ digits, c.isDigit = true) :
    (layout.numeral negative digits exponent).Proper := by
  have hzero : ∀ n, ∀ c ∈ List.replicate n '0', c.isDigit = true := fun n c hc => by
    rw [List.eq_of_mem_replicate hc]
    rfl
  have hone : ∀ c ∈ ['0'], c.isDigit = true := hzero 1
  have htake : ∀ n, ∀ c ∈ digits.take n, c.isDigit = true :=
    fun n c hc => hd c (List.mem_of_mem_take hc)
  have hdrop : ∀ n, ∀ c ∈ digits.drop n, c.isDigit = true :=
    fun n c hc => hd c (List.mem_of_mem_drop hc)
  have happend : ∀ a b : List Char, (∀ c ∈ a, c.isDigit = true) → (∀ c ∈ b, c.isDigit = true) →
      ∀ c ∈ a ++ b, c.isDigit = true := fun a b ha hb c hc =>
    (List.mem_append.mp hc).elim (ha c) (hb c)
  have htake_ne : ∀ n, digits.take (n + 1) ≠ [] := by simp [hne]
  unfold numeral
  split
  · split
    · exact ⟨by simp, hone, happend _ _ (hzero _) hd, by simp, by simp⟩
    · split
      · exact ⟨by simp [hne], happend _ _ hd (hzero _), hone, by simp, by simp⟩
      · exact ⟨htake_ne _, htake _, hdrop _, by simp, by simp⟩
  · refine ⟨htake_ne 0, htake _, hdrop _, ?_, ?_⟩
    · rintro _ ⟨⟩
      exact Nat.toDigits_ne_nil
    · rintro _ ⟨⟩ c hc
      exact Text.isDigit_of_mem_toDigits hc

theorem isIntegral_numeral (hne : digits ≠ []) :
    (layout.numeral negative digits exponent).isIntegral = false := by
  unfold numeral
  split
  · split
    · simp [Numeral.isIntegral, hne]
    · split
      · rfl
      · rename_i hlen
        simp [Numeral.isIntegral, List.drop_eq_nil_iff, Nat.lt_of_not_le hlen]
  · simp [Numeral.isIntegral]

/-- The layout of the digits does not change the value. -/
theorem value_numeral (hne : digits ≠ []) :
    ∃ k : Nat, (layout.numeral negative digits exponent).mantissa =
        Nat.ofDigitChars 10 digits 0 * 10 ^ k ∧
      (layout.numeral negative digits exponent).power + k = exponent + 1 - digits.length := by
  have hlen : 1 ≤ digits.length := List.length_pos_iff.mpr hne
  unfold numeral
  split
  · split
    · refine ⟨0, ?_, ?_⟩
      · have hcons : ['0'] ++ (List.replicate (-exponent - 1).toNat '0' ++ digits) =
            List.replicate ((-exponent - 1).toNat + 1) '0' ++ digits := rfl
        simp only [Numeral.mantissa, hcons, Nat.ofDigitChars_append,
          Nat.ofDigitChars_replicate_zero, Nat.mul_zero, Nat.pow_zero, Nat.mul_one]
      · simp only [Numeral.power, Numeral.exponentValue, List.length_append,
          List.length_replicate]
        omega
    · split
      · refine ⟨exponent.toNat + 1 - digits.length + 1, ?_, ?_⟩
        · have hzeros : List.replicate (exponent.toNat + 1 - digits.length) '0' ++ ['0'] =
              List.replicate (exponent.toNat + 1 - digits.length + 1) '0' :=
            List.replicate_succ'.symm
          simp only [Numeral.mantissa, List.append_assoc, hzeros, Nat.ofDigitChars_append,
            Nat.ofDigitChars_replicate_zero, Nat.mul_comm]
        · simp only [Numeral.power, Numeral.exponentValue, List.length_singleton]
          omega
      · refine ⟨0, ?_, ?_⟩
        · simp [Numeral.mantissa]
        · simp only [Numeral.power, Numeral.exponentValue, List.length_drop]
          omega
  · refine ⟨0, ?_, ?_⟩
    · simp only [Numeral.mantissa, List.take_append_drop, Nat.pow_zero, Nat.mul_one]
    · simp only [Numeral.power, Numeral.exponentValue, List.length_drop,
        Nat.ofDigitChars_ten_toDigits, decide_eq_true_eq]
      split <;> omega

end DecimalLayout

namespace Decimal

variable {d : Decimal}

/-- The significant digits, and the zeros behind them. -/
theorem toDigits_eq (d : Decimal) :
    ∃ k, Nat.toDigits 10 d.digits = d.significant ++ List.replicate k '0' := by
  have hsplit := List.takeWhile_append_dropWhile (p := (· == '0'))
    (l := (Nat.toDigits 10 d.digits).reverse)
  refine ⟨((Nat.toDigits 10 d.digits).reverse.takeWhile (· == '0')).length, ?_⟩
  have hzeros : ((Nat.toDigits 10 d.digits).reverse.takeWhile (· == '0')) =
      List.replicate ((Nat.toDigits 10 d.digits).reverse.takeWhile (· == '0')).length '0' :=
    List.eq_replicate_of_mem fun c hc =>
      beq_iff_eq.mp (List.all_eq_true.mp List.all_takeWhile c hc)
  have hrev := congrArg List.reverse hsplit
  rw [List.reverse_append, List.reverse_reverse, hzeros, List.reverse_replicate] at hrev
  simpa [significant] using hrev.symm

theorem isDigit_of_mem_significant {c : Char} (h : c ∈ d.significant) : c.isDigit = true := by
  obtain ⟨k, hk⟩ := d.toDigits_eq
  exact Text.isDigit_of_mem_toDigits (hk ▸ List.mem_append_left _ h)

theorem digits_eq_significant (d : Decimal) : ∃ k : Nat,
    d.digits = Nat.ofDigitChars 10 d.significant 0 * 10 ^ k ∧
      d.firstExponent + 1 - d.significant.length = d.power + k := by
  obtain ⟨k, hk⟩ := d.toDigits_eq
  refine ⟨k, ?_, ?_⟩
  · have hvalue := @Nat.ofDigitChars_ten_toDigits d.digits
    rw [hk, Nat.ofDigitChars_append, Nat.ofDigitChars_replicate_zero, Nat.mul_comm] at hvalue
    exact hvalue.symm
  · rw [firstExponent, hk, List.length_append, List.length_replicate]
    omega

theorem significant_ne_nil (h : d.digits ≠ 0) : d.significant ≠ [] := by
  intro hnil
  obtain ⟨k, hk, _⟩ := d.digits_eq_significant
  rw [hnil, Nat.ofDigitChars_nil, Nat.zero_mul] at hk
  exact h hk

end Decimal

namespace Double

/-- The numeral that the standard layout writes. -/
def numeral (x : Double) : Numeral :=
  if x.isZero then ⟨x.negative, ['0'], ['0'], none⟩
  else DecimalLayout.standard.numeral x.negative x.shortest.significant x.shortest.firstExponent

variable {x : Double}

theorem digits_shortest_ne_zero (h : x.isZero = false) : x.shortest.digits ≠ 0 := by
  intro hzero
  have hread := readsBack_iff.mp (readsBack_shortest x)
  rw [hzero, ofDecimal?, if_pos rfl, Option.some.injEq] at hread
  rw [← hread] at h
  simp [isZero, zero] at h

theorem chars_numeral (x : Double) : x.numeral.chars = x.standardChars := by
  cases hzero : x.isZero with
  | true =>
    simp [Numeral.chars, numeral, standardChars, unsignedChars, hzero, Numeral.unsignedChars,
      Numeral.fractionChars, Numeral.exponentChars]
  | false =>
    have hne := Decimal.significant_ne_nil (digits_shortest_ne_zero hzero)
    simp only [Numeral.chars, numeral, hzero, Bool.false_eq_true, if_false, standardChars,
      unsignedChars, DecimalLayout.negative_numeral, DecimalLayout.unsignedChars_numeral hne]

theorem proper_numeral (x : Double) : x.numeral.Proper := by
  unfold numeral
  split
  · exact ⟨by simp, by simp, by simp, by simp, by simp⟩
  · rename_i hzero
    exact DecimalLayout.proper_numeral
      (Decimal.significant_ne_nil (digits_shortest_ne_zero (by simpa using hzero)))
      fun _ => Decimal.isDigit_of_mem_significant

theorem isIntegral_numeral (x : Double) : x.numeral.isIntegral = false := by
  unfold numeral
  split
  · rfl
  · rename_i hzero
    exact DecimalLayout.isIntegral_numeral
      (Decimal.significant_ne_nil (digits_shortest_ne_zero (by simpa using hzero)))

/-- The numeral of the standard layout has the double as the nearest one. -/
theorem ofDecimal?_numeral (x : Double) :
    ofDecimal? x.numeral.negative x.numeral.mantissa x.numeral.power = some x := by
  cases hzero : x.isZero with
  | true =>
    obtain ⟨negative, rank, hrank⟩ := x
    obtain rfl : rank = 0 := by simpa [isZero] using hzero
    simp [numeral, isZero, Numeral.mantissa, Nat.ofDigitChars_cons, ofDecimal?, zero]
  | false =>
    have hne := Decimal.significant_ne_nil (digits_shortest_ne_zero hzero)
    obtain ⟨j, hmantissa, hpower⟩ := @DecimalLayout.value_numeral DecimalLayout.standard
      x.negative _ x.shortest.firstExponent hne
    obtain ⟨k, hdigits, hexponent⟩ := x.shortest.digits_eq_significant
    have hread := readsBack_iff.mp (readsBack_shortest x)
    have hnumeral : x.numeral = DecimalLayout.standard.numeral x.negative
        x.shortest.significant x.shortest.firstExponent := by simp [numeral, hzero]
    rw [hdigits, ofDecimal?_mul_pow] at hread
    rw [hnumeral, hmantissa, ofDecimal?_mul_pow, hpower, hexponent,
      DecimalLayout.negative_numeral]
    exact hread

end Double

/-- **The standard layout does what is asked of the texts of doubles.** -/
abbrev LawfulDoubleText.standard : LawfulDoubleText where
  spelled x := by
    refine ⟨x.numeral, ?_, x.proper_numeral.isAscii, x.isIntegral_numeral, x.ofDecimal?_numeral⟩
    have hspells := x.proper_numeral.spells_chars
    rwa [x.chars_numeral] at hspells

end PathQuery
