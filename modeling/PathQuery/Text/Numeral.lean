import PathQuery.Text.Blank

/-! # Numerals

A numeral is the written form of a number: an optional minus sign, whole digits,
an optional fraction and an optional exponent.  Which characters count as digits
is a parameter of reading, since a text may be recognised as a numeral in a wider
class of digits than the one that carries values.
-/

namespace PathQuery

/-- The written form of a number.  The fraction is empty when there is none. -/
structure Numeral where
  negative : Bool
  whole : List Char
  fraction : List Char
  /-- The sign and the digits of the exponent; the sign is `true` for minus. -/
  exponent : Option (Bool × List Char)
deriving DecidableEq, Repr

namespace Numeral

/-- Neither a fraction nor an exponent is written. -/
def isIntegral (n : Numeral) : Bool :=
  n.fraction.isEmpty && n.exponent.isNone

/-- Every digit is an ASCII digit. -/
def isAscii (n : Numeral) : Bool :=
  n.whole.all Char.isDigit && n.fraction.all Char.isDigit &&
    (n.exponent.all fun e => e.2.all Char.isDigit)

/-- The whole digits and the fraction, as one number. -/
def mantissa (n : Numeral) : Nat :=
  Nat.ofDigitChars 10 (n.whole ++ n.fraction) 0

/-- The value of the written exponent. -/
def exponentValue (n : Numeral) : Int :=
  match n.exponent with
  | none => 0
  | some (negative, digits) =>
    let value : Int := Nat.ofDigitChars 10 digits 0
    if negative then -value else value

/-- The power of ten that multiplies the mantissa. -/
def power (n : Numeral) : Int :=
  n.exponentValue - n.fraction.length

/-! ## Spellings -/

/-- The fraction behind its point; nothing if it is empty. -/
def fractionChars (fraction : List Char) : List Char :=
  if fraction.isEmpty then [] else '.' :: fraction

/-- The sign of an exponent; a plus may be left out. -/
def SpellsSign (sign : List Char) : Bool → Prop
  | true => sign = ['-']
  | false => sign = [] ∨ sign = ['+']

/-- The text of an exponent, in every form that is read: with either letter, and with or
without a sign. -/
def SpellsExponent (text : List Char) : Option (Bool × List Char) → Prop
  | none => text = []
  | some (negative, digits) => ∃ letter sign, text = letter :: (sign ++ digits) ∧ digits ≠ [] ∧
      (letter = 'e' ∨ letter = 'E') ∧ SpellsSign sign negative

/-- The text writes the numeral, in one of the forms that are read. -/
def Spells (n : Numeral) (text : List Char) : Prop :=
  n.whole ≠ [] ∧ ∃ exponent, SpellsExponent exponent n.exponent ∧
    text = (if n.negative then ['-'] else []) ++
      ((n.whole ++ fractionChars n.fraction) ++ exponent)

/-! ## Reading -/

/-- Splits a minus sign off the front. -/
def readMinus : List Char → Bool × List Char
  | '-' :: rest => (true, rest)
  | text => (false, text)

/-- Splits a sign of either kind off the front; the sign is `true` for minus. -/
def readSign : List Char → Bool × List Char
  | '-' :: rest => (true, rest)
  | '+' :: rest => (false, rest)
  | text => (false, text)

variable (isDigit : Char → Bool)

/-- Splits a non-empty run of digits off the front. -/
def readDigits (text : List Char) : Option (List Char × List Char) :=
  if (text.takeWhile isDigit).isEmpty then none
  else some (text.takeWhile isDigit, text.dropWhile isDigit)

/-- Splits a fraction off the front, if a point is there. -/
def readFraction : List Char → Option (List Char × List Char)
  | '.' :: rest => readDigits isDigit rest
  | text => some ([], text)

/-- Splits an exponent off the front, if one of its letters is there. -/
def readExponent : List Char → Option (Option (Bool × List Char) × List Char)
  | c :: rest =>
    if c = 'e' ∨ c = 'E' then do
      let (digits, after) ← readDigits isDigit (readSign rest).2
      some (some ((readSign rest).1, digits), after)
    else some (none, c :: rest)
  | [] => some (none, [])

/-- Splits a numeral off the front of a text. -/
def read (text : List Char) : Option (Numeral × List Char) := do
  let (whole, afterWhole) ← readDigits isDigit (readMinus text).2
  let (fraction, afterFraction) ← readFraction isDigit afterWhole
  let (exponent, rest) ← readExponent isDigit afterFraction
  some (⟨(readMinus text).1, whole, fraction, exponent⟩, rest)

/-- Reads a text that is one numeral. -/
def ofText? (text : List Char) : Option Numeral :=
  match read isDigit text with
  | some (n, []) => some n
  | _ => none

variable {isDigit}

theorem length_readMinus (text : List Char) : (readMinus text).2.length ≤ text.length := by
  unfold readMinus
  split <;> simp

theorem length_readSign (text : List Char) : (readSign text).2.length ≤ text.length := by
  unfold readSign
  split <;> simp

theorem length_readDigits {text digits rest : List Char}
    (h : readDigits isDigit text = some (digits, rest)) : rest.length < text.length := by
  unfold readDigits at h
  split at h
  · simp at h
  · rename_i hne
    simp only [Option.some.injEq, Prod.mk.injEq] at h
    have hsplit := congrArg List.length (List.takeWhile_append_dropWhile (p := isDigit) (l := text))
    have hpos : 0 < (text.takeWhile isDigit).length := by
      rw [List.length_pos_iff]
      simpa using hne
    rw [List.length_append, h.2] at hsplit
    omega

theorem length_readFraction {text digits rest : List Char}
    (h : readFraction isDigit text = some (digits, rest)) : rest.length ≤ text.length := by
  unfold readFraction at h
  split at h
  · have := length_readDigits h
    simp only [List.length_cons]
    omega
  · simp only [Option.some.injEq, Prod.mk.injEq] at h
    simp [h.2]

theorem length_readExponent {text rest : List Char} {e : Option (Bool × List Char)}
    (h : readExponent isDigit text = some (e, rest)) : rest.length ≤ text.length := by
  unfold readExponent at h
  split at h
  · rename_i c tail
    split at h
    · obtain ⟨⟨digits, out⟩, hd, he⟩ := Option.bind_eq_some_iff.mp h
      simp only [Option.some.injEq, Prod.mk.injEq] at he
      have h1 := length_readDigits hd
      have h2 := length_readSign tail
      rw [he.2] at h1
      simp only [List.length_cons]
      omega
    · simp only [Option.some.injEq, Prod.mk.injEq] at h
      simp [← h.2]
  · simp only [Option.some.injEq, Prod.mk.injEq] at h
    simp [← h.2]

theorem length_read {text rest : List Char} {n : Numeral}
    (h : read isDigit text = some (n, rest)) : rest.length < text.length := by
  unfold read at h
  obtain ⟨⟨whole, r1⟩, h1, h⟩ := Option.bind_eq_some_iff.mp h
  obtain ⟨⟨fraction, r2⟩, h2, h⟩ := Option.bind_eq_some_iff.mp h
  obtain ⟨⟨exponent, r3⟩, h3, h⟩ := Option.bind_eq_some_iff.mp h
  simp only [Option.some.injEq, Prod.mk.injEq] at h
  have l0 := length_readMinus text
  have l1 := length_readDigits h1
  have l2 := length_readFraction h2
  have l3 := length_readExponent h3
  rw [h.2] at l3
  omega

end Numeral
end PathQuery
