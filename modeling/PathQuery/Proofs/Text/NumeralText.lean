import PathQuery.Text.Digit
import PathQuery.Text.Numeral

/-! # The text of a numeral

`Numeral.chars` writes a numeral: a minus, the whole digits, a point before a
fraction, and an exponent with its sign.  Other spellings of the exponent are read as
well (`Spells`).  A numeral made of ASCII digits is read from each of its spellings, also
by a reader that takes the digits of all scripts for digits (`Spells.ofText?_eq`), and
these are all that is read as a numeral (`spells_of_ofText?`).
-/

namespace PathQuery
namespace Numeral

/-- The exponent behind its letter, always with a sign. -/
def exponentChars : Option (Bool × List Char) → List Char
  | none => []
  | some (negative, digits) => 'e' :: (if negative then '-' else '+') :: digits

/-- The text of the absolute value. -/
def unsignedChars (n : Numeral) : List Char :=
  n.whole ++ (fractionChars n.fraction ++ exponentChars n.exponent)

/-- The text of a numeral. -/
def chars (n : Numeral) : List Char :=
  if n.negative then '-' :: n.unsignedChars else n.unsignedChars

/-- The digits are ASCII digits, and there are digits where the form of a numeral
asks for some. -/
structure Proper (n : Numeral) : Prop where
  whole_ne_nil : n.whole ≠ []
  whole_digits : ∀ c ∈ n.whole, c.isDigit = true
  fraction_digits : ∀ c ∈ n.fraction, c.isDigit = true
  exponent_ne_nil : ∀ e, n.exponent = some e → e.2 ≠ []
  exponent_digits : ∀ e, n.exponent = some e → ∀ c ∈ e.2, c.isDigit = true

theorem Proper.isAscii {n : Numeral} (h : n.Proper) : n.isAscii = true := by
  simp only [Numeral.isAscii, Bool.and_eq_true, List.all_eq_true, Option.all_eq_true]
  exact ⟨⟨h.whole_digits, h.fraction_digits⟩, h.exponent_digits⟩

/-! ## The forms that are read -/

theorem SpellsSign.cases {sign : List Char} {negative : Bool} (h : SpellsSign sign negative) :
    sign = [] ∨ sign = ['+'] ∨ sign = ['-'] := by
  cases negative with
  | true => exact Or.inr (Or.inr h)
  | false => exact h.imp_right Or.inl

/-- The form in which a numeral is written is one of them. -/
theorem Proper.spells_chars {n : Numeral} (h : n.Proper) : n.Spells n.chars := by
  refine ⟨h.whole_ne_nil, exponentChars n.exponent, ?_, ?_⟩
  · cases he : n.exponent with
    | none => rfl
    | some e =>
      obtain ⟨negative, digits⟩ := e
      refine ⟨'e', [if negative then '-' else '+'], rfl, h.exponent_ne_nil _ he, Or.inl rfl, ?_⟩
      cases negative with
      | true => rfl
      | false => exact Or.inr rfl
  · rw [chars, unsignedChars, List.append_assoc]
    split <;> rfl

theorem digits_of_isAscii {n : Numeral} (h : n.isAscii = true) :
    (∀ c ∈ n.whole, c.isDigit = true) ∧ (∀ c ∈ n.fraction, c.isDigit = true) ∧
      ∀ e, n.exponent = some e → ∀ c ∈ e.2, c.isDigit = true := by
  simp only [isAscii, Bool.and_eq_true, List.all_eq_true, Option.all_eq_true] at h
  exact ⟨h.1.1, h.1.2, h.2⟩

/-! ## Reading back -/

variable {digits rest : List Char}

/-- A run of digits ends where the text ends or a character is no digit. -/
theorem readDigits_append (hne : digits ≠ []) (hd : ∀ c ∈ digits, c.isDigit = true)
    (hrest : ∀ c, rest.head? = some c → Text.isDecimalDigit c = false) :
    readDigits Text.isDecimalDigit (digits ++ rest) = some (digits, rest) := by
  have hall : ∀ c ∈ digits, Text.isDecimalDigit c = true :=
    fun c hc => Text.isDecimalDigit_of_isDigit (hd c hc)
  have htake : (digits ++ rest).takeWhile Text.isDecimalDigit = digits := by
    rw [List.takeWhile_append_of_pos hall]
    cases rest with
    | nil => simp
    | cons c tail => simp [hrest c rfl]
  have hdrop : (digits ++ rest).dropWhile Text.isDecimalDigit = rest := by
    rw [List.dropWhile_append_of_pos hall]
    cases rest with
    | nil => rfl
    | cons c tail => simp [hrest c rfl]
  simp [readDigits, htake, hdrop, hne]

theorem not_isDecimalDigit_point : Text.isDecimalDigit '.' = false := by decide

/-- An exponent starts with its letter, which is neither a digit nor a point. -/
theorem SpellsExponent.head {text : List Char} {e : Option (Bool × List Char)}
    (h : SpellsExponent text e) {c : Char} (hc : text.head? = some c) :
    Text.isDecimalDigit c = false ∧ c ≠ '.' := by
  cases e with
  | none =>
    obtain rfl : text = [] := h
    cases hc
  | some e =>
    obtain ⟨letter, sign, rfl, -, hletter, -⟩ := h
    obtain rfl : letter = c := Option.some.inj hc
    rcases hletter with rfl | rfl <;> decide

theorem readFraction_append (hd : ∀ c ∈ digits, c.isDigit = true) {text : List Char}
    {e : Option (Bool × List Char)} (h : SpellsExponent text e) :
    readFraction Text.isDecimalDigit (fractionChars digits ++ text) = some (digits, text) := by
  cases digits with
  | nil =>
    change readFraction _ text = _
    unfold readFraction
    split
    · exact absurd rfl (h.head rfl).2
    · rfl
  | cons c tail => exact readDigits_append (by simp) hd fun c hc => (h.head hc).1

/-- The sign of an exponent is read, and what is behind it starts with a digit. -/
theorem readSign_append {sign : List Char} {negative : Bool} (hsign : SpellsSign sign negative)
    (hd : ∀ c ∈ digits, c.isDigit = true) :
    readSign (sign ++ digits) = (negative, digits) := by
  cases negative with
  | true =>
    obtain rfl : sign = ['-'] := hsign
    rfl
  | false =>
    have hdigit : ∀ c tail, digits = c :: tail → c.isDigit = true :=
      fun c tail h => hd c (h ▸ List.mem_cons_self ..)
    rcases hsign with rfl | rfl
    · unfold readSign
      split
      · rename_i tail heq
        exact absurd (hdigit '-' tail heq) (by decide)
      · rename_i tail heq
        exact absurd (hdigit '+' tail heq) (by decide)
      · rfl
    · rfl

theorem SpellsExponent.readExponent_eq {text : List Char} {e : Option (Bool × List Char)}
    (h : SpellsExponent text e) (hd : ∀ d, e = some d → ∀ c ∈ d.2, c.isDigit = true) :
    readExponent Text.isDecimalDigit text = some (e, []) := by
  cases e with
  | none =>
    obtain rfl : text = [] := h
    rfl
  | some d =>
    obtain ⟨negative, digits⟩ := d
    obtain ⟨letter, sign, rfl, hne, hletter, hsign⟩ := h
    have hread := @readDigits_append digits [] hne (hd _ rfl) (by simp)
    rw [List.append_nil] at hread
    simp [readExponent, hletter, readSign_append hsign (hd _ rfl), hread]

/-- A minus in front of a digit is read, and none is read where there is none. -/
theorem readMinus_append (negative : Bool) {c : Char} (hc : c.isDigit = true) (tail : List Char) :
    readMinus ((if negative then ['-'] else []) ++ c :: tail) = (negative, c :: tail) := by
  cases negative with
  | true => rfl
  | false =>
    change readMinus (c :: tail) = _
    unfold readMinus
    split
    · rename_i rest heq
      obtain rfl : c = '-' := (List.cons.inj heq).1
      exact absurd hc (by decide)
    · rfl

theorem readMinus_chars {n : Numeral} (h : n.Proper) :
    readMinus n.chars = (n.negative, n.unsignedChars) := by
  obtain ⟨c, tail, hwhole⟩ := List.exists_cons_of_ne_nil h.whole_ne_nil
  have hchars : n.chars = (if n.negative then ['-'] else []) ++ n.unsignedChars := by
    rw [chars]
    split <;> rfl
  rw [hchars, unsignedChars, hwhole]
  exact readMinus_append n.negative (h.whole_digits c (hwhole ▸ List.mem_cons_self ..)) _

theorem Spells.read_eq {n : Numeral} {text : List Char} (h : n.Spells text)
    (hascii : n.isAscii = true) : read Text.isDecimalDigit text = some (n, []) := by
  obtain ⟨hdigits, hfraction, hpower⟩ := digits_of_isAscii hascii
  obtain ⟨hne, exponent, hexponent, rfl⟩ := h
  have hrest : ∀ c, (fractionChars n.fraction ++ exponent).head? = some c →
      Text.isDecimalDigit c = false := by
    intro c hc
    unfold fractionChars at hc
    split at hc
    · exact (hexponent.head hc).1
    · obtain rfl : '.' = c := by simpa using hc
      exact not_isDecimalDigit_point
  obtain ⟨c, tail, hwhole⟩ := List.exists_cons_of_ne_nil hne
  have hminus := readMinus_append n.negative (hdigits c (hwhole ▸ List.mem_cons_self ..))
    (tail ++ (fractionChars n.fraction ++ exponent))
  rw [← List.cons_append, ← hwhole] at hminus
  have hread := readDigits_append hne hdigits hrest
  rw [List.append_assoc]
  simp [read, hminus, hread, readFraction_append hfraction hexponent,
    hexponent.readExponent_eq hpower]

/-- **A numeral is read from its text**, in all its forms. -/
theorem Spells.ofText?_eq {n : Numeral} {text : List Char} (h : n.Spells text)
    (hascii : n.isAscii = true) : ofText? Text.isDecimalDigit text = some n := by
  rw [ofText?, h.read_eq hascii]

/-! ## What is read -/

variable {isDigit : Char → Bool} {text : List Char}

/-- A numeral starts with a minus or a digit. -/
theorem Spells.head {n : Numeral} (h : n.Spells text) (hascii : n.isAscii = true) :
    ∃ c, text.head? = some c ∧ (c = '-' ∨ c.isDigit = true) := by
  obtain ⟨hwhole, exponent, -, rfl⟩ := h
  obtain ⟨c, rest, hc⟩ := List.exists_cons_of_ne_nil hwhole
  have hdigit := (digits_of_isAscii hascii).1 c (hc ▸ List.mem_cons_self ..)
  rw [hc]
  split
  · exact ⟨'-', rfl, Or.inl rfl⟩
  · exact ⟨c, rfl, Or.inr hdigit⟩

/-- The last character of a numeral is a digit. -/
theorem Spells.last {n : Numeral} (h : n.Spells text) (hascii : n.isAscii = true) :
    ∃ c, text.getLast? = some c ∧ c.isDigit = true := by
  have hlast : ∀ (front digits : List Char), digits ≠ [] → (∀ c ∈ digits, c.isDigit = true) →
      ∃ c, (front ++ digits).getLast? = some c ∧ c.isDigit = true := by
    intro front digits hne hdigits
    refine ⟨digits.getLast hne, ?_, hdigits _ (List.getLast_mem hne)⟩
    rw [List.getLast?_append, List.getLast?_eq_some_getLast hne]
    rfl
  obtain ⟨hwhole, exponent, hexponent, rfl⟩ := h
  obtain ⟨hdigits, hfraction, hpower⟩ := digits_of_isAscii hascii
  generalize (if n.negative then ['-'] else []) = sign
  cases he : n.exponent with
  | some e =>
    rw [he] at hexponent
    obtain ⟨letter, inner, rfl, hne, -⟩ := hexponent
    have happend : sign ++ ((n.whole ++ fractionChars n.fraction) ++ letter :: (inner ++ e.2)) =
        (sign ++ ((n.whole ++ fractionChars n.fraction) ++ letter :: inner)) ++ e.2 := by
      simp
    rw [happend]
    exact hlast _ _ hne (hpower e he)
  | none =>
    rw [he] at hexponent
    obtain rfl : exponent = [] := hexponent
    rw [List.append_nil]
    unfold fractionChars
    split
    · rw [List.append_nil]
      exact hlast _ _ hwhole hdigits
    · rename_i hne
      have happend : sign ++ (n.whole ++ '.' :: n.fraction) =
          (sign ++ (n.whole ++ ['.'])) ++ n.fraction := by
        simp
      rw [happend]
      exact hlast _ _ (by simpa using hne) hfraction

theorem append_of_readDigits (h : readDigits isDigit text = some (digits, rest)) :
    text = digits ++ rest ∧ digits ≠ [] := by
  unfold readDigits at h
  split at h
  · simp at h
  · rename_i hne
    simp only [Option.some.injEq, Prod.mk.injEq] at h
    obtain ⟨rfl, rfl⟩ := h
    exact ⟨List.takeWhile_append_dropWhile.symm, by simpa using hne⟩

theorem append_readMinus (text : List Char) :
    text = (if (readMinus text).1 then ['-'] else []) ++ (readMinus text).2 := by
  unfold readMinus
  split <;> rfl

theorem append_readSign (text : List Char) : ∃ sign, text = sign ++ (readSign text).2 ∧
    SpellsSign sign (readSign text).1 := by
  unfold readSign
  split
  · exact ⟨['-'], rfl, rfl⟩
  · exact ⟨['+'], rfl, Or.inr rfl⟩
  · exact ⟨[], rfl, Or.inl rfl⟩

theorem append_of_readFraction (h : readFraction isDigit text = some (digits, rest)) :
    text = fractionChars digits ++ rest := by
  unfold readFraction at h
  split at h
  · obtain ⟨happend, hne⟩ := append_of_readDigits h
    rw [fractionChars, if_neg (by simpa using hne), happend]
    rfl
  · simp only [Option.some.injEq, Prod.mk.injEq] at h
    obtain ⟨rfl, rfl⟩ := h
    rfl

theorem append_of_readExponent {e : Option (Bool × List Char)}
    (h : readExponent isDigit text = some (e, rest)) :
    ∃ written, text = written ++ rest ∧ SpellsExponent written e := by
  unfold readExponent at h
  split at h
  · rename_i c tail
    split at h
    · rename_i hletter
      obtain ⟨⟨digits, after⟩, hdigits, he⟩ := Option.bind_eq_some_iff.mp h
      simp only [Option.some.injEq, Prod.mk.injEq] at he
      obtain ⟨rfl, rfl⟩ := he
      obtain ⟨sign, hsign, hspells⟩ := append_readSign tail
      obtain ⟨happend, hne⟩ := append_of_readDigits hdigits
      refine ⟨c :: (sign ++ digits), ?_, c, sign, rfl, hne, hletter, hspells⟩
      rw [hsign, happend]
      simp
    · simp only [Option.some.injEq, Prod.mk.injEq] at h
      obtain ⟨rfl, rfl⟩ := h
      exact ⟨[], rfl, rfl⟩
  · simp only [Option.some.injEq, Prod.mk.injEq] at h
    obtain ⟨rfl, rfl⟩ := h
    exact ⟨[], rfl, rfl⟩

/-- **A text that is read as a numeral spells it.** -/
theorem spells_of_ofText? {n : Numeral} (h : ofText? isDigit text = some n) :
    n.Spells text := by
  have hread : read isDigit text = some (n, []) := by
    unfold ofText? at h
    split at h
    · rename_i hread
      rw [hread, Option.some.inj h]
    · simp at h
  obtain ⟨⟨whole, afterWhole⟩, hwhole, hread⟩ := Option.bind_eq_some_iff.mp hread
  obtain ⟨⟨fraction, afterFraction⟩, hfraction, hread⟩ := Option.bind_eq_some_iff.mp hread
  obtain ⟨⟨exponent, rest⟩, hexponent, hread⟩ := Option.bind_eq_some_iff.mp hread
  simp only [Option.some.injEq, Prod.mk.injEq] at hread
  obtain ⟨rfl, rfl⟩ := hread
  obtain ⟨happend, hne⟩ := append_of_readDigits hwhole
  obtain ⟨written, hwritten, hspells⟩ := append_of_readExponent hexponent
  refine ⟨hne, written, hspells, ?_⟩
  have hminus := append_readMinus text
  rw [happend, append_of_readFraction hfraction, hwritten, List.append_nil] at hminus
  rw [List.append_assoc]
  exact hminus

end Numeral
end PathQuery
