import PathQuery.Json.Number
import PathQuery.Proofs.Text.NumeralText

/-! # A number reads back from its text

The text of a number spells a numeral that writes the number (`Number.isSpelled_chars`):
an integer as it is, and a double as is asked of its text (`LawfulDoubleText`).
-/

namespace PathQuery
namespace Number

/-- The text spells a numeral of ASCII digits that writes the number. -/
def IsSpelled (n : Number) (text : List Char) : Prop :=
  ∃ numeral : Numeral, numeral.Spells text ∧ numeral.isAscii = true ∧ ofNumeral? numeral = some n

/-- The digits of an integer. -/
def integerNumeral (n : Int) : Numeral :=
  ⟨decide (n < 0), Nat.toDigits 10 n.natAbs, [], none⟩

theorem proper_integerNumeral (n : Int) : (integerNumeral n).Proper :=
  ⟨Nat.toDigits_ne_nil, fun _ => Text.isDigit_of_mem_toDigits, by simp [integerNumeral],
    by simp [integerNumeral], by simp [integerNumeral]⟩

theorem chars_integerNumeral (n : Int) : (integerNumeral n).chars = Text.integerChars n := by
  simp [integerNumeral, Text.integerChars, Numeral.chars, Numeral.unsignedChars,
    Numeral.fractionChars, Numeral.exponentChars]

theorem ofNumeral?_integerNumeral {n : Int} (fits : FitsWord n) :
    ofNumeral? (integerNumeral n) = some (.integer n fits) := by
  have hmantissa : (integerNumeral n).mantissa = n.natAbs := by
    simp [integerNumeral, Numeral.mantissa, Nat.ofDigitChars_ten_toDigits]
  have hvalue : integerOf (integerNumeral n) = n := by
    unfold integerOf
    rw [hmantissa]
    simp only [integerNumeral, decide_eq_true_eq]
    split <;> omega
  have hintegral : (integerNumeral n).isIntegral = true := rfl
  simp only [ofNumeral?, hintegral, if_true, hvalue, ofInt?, dif_pos fits]
  rfl

/-- **A number is written as a numeral that writes it.** -/
theorem isSpelled_chars [LawfulDoubleText] (n : Number) : n.IsSpelled n.chars := by
  cases n with
  | float x =>
    obtain ⟨numeral, hspells, hascii, hintegral, hvalue⟩ := LawfulDoubleText.spelled x
    refine ⟨numeral, hspells, hascii, ?_⟩
    simp only [ofNumeral?, hintegral, hvalue]
    rfl
  | integer n fits =>
    have hproper := proper_integerNumeral n
    have hspells := hproper.spells_chars
    rw [chars_integerNumeral] at hspells
    exact ⟨integerNumeral n, hspells, hproper.isAscii, ofNumeral?_integerNumeral fits⟩

end Number
end PathQuery
