/-! # Escaped characters

The part of a backslash escape that JSON strings and the quoted names of a path
share: one-letter escapes, and the escape `u` with four hexadecimal digits, where
a character beyond U+FFFF is written as two such escapes, a high surrogate
followed by a low one.
-/

namespace PathQuery
namespace Text

/-- The value of a hexadecimal digit of either case. -/
def hexValue (c : Char) : Option Nat :=
  if '0' ≤ c ∧ c ≤ '9' then some (c.toNat - '0'.toNat)
  else if 'a' ≤ c ∧ c ≤ 'f' then some (c.toNat - 'a'.toNat + 10)
  else if 'A' ≤ c ∧ c ≤ 'F' then some (c.toNat - 'A'.toNat + 10)
  else none

/-- The number written by four hexadecimal digits. -/
def hexQuad (a b c d : Char) : Option Nat := do
  let a ← hexValue a
  let b ← hexValue b
  let c ← hexValue c
  let d ← hexValue d
  some (((a * 16 + b) * 16 + c) * 16 + d)

/-- The first half of a surrogate pair. -/
def isHighSurrogate (n : Nat) : Bool :=
  0xD800 ≤ n && n ≤ 0xDBFF

/-- The second half of a surrogate pair. -/
def isLowSurrogate (n : Nat) : Bool :=
  0xDC00 ≤ n && n ≤ 0xDFFF

/-- The character with a given code point; surrogates are not characters. -/
def charOfNat? (n : Nat) : Option Char :=
  if h : n.isValidChar then some (Char.ofNatAux n h) else none

/-- The one-letter escapes: the letter after the backslash and what it stands
for.  Besides these, a character that has to be escaped stands for itself. -/
def controlOfLetter? : Char → Option Char
  | 'n' => some '\n'
  | 't' => some '\t'
  | 'r' => some '\r'
  | 'b' => some '\x08'
  | 'f' => some '\x0C'
  | _ => none

/-- Why an escape with hexadecimal digits stands for no character. -/
inductive HexEscapeError
  /-- Fewer than four hexadecimal digits follow. -/
  | digits
  /-- A high surrogate is not followed by a low one. -/
  | pair
  /-- The number is no code point of a character. -/
  | codePoint
deriving DecidableEq, Repr

/-- The low surrogate at the front of a text, written as an escape. -/
def lowSurrogate? : List Char → Option (Nat × List Char)
  | '\\' :: 'u' :: a :: b :: c :: d :: rest => do
    let low ← hexQuad a b c d
    if isLowSurrogate low then some (low, rest) else none
  | _ => none

/-- The code point that a surrogate pair stands for. -/
def pairValue (high low : Nat) : Nat :=
  0x10000 + (high - 0xD800) * 0x400 + (low - 0xDC00)

/-- The character of a code point, before the rest of a text. -/
def charBefore (n : Nat) (rest : List Char) : Except HexEscapeError (Char × List Char) :=
  match charOfNat? n with
  | none => .error .codePoint
  | some c => .ok (c, rest)

/-- Reads what follows the letter `u` of an escape: the character it stands for
and the rest of the text. -/
def readHexEscape : List Char → Except HexEscapeError (Char × List Char)
  | a :: b :: c :: d :: rest =>
    match hexQuad a b c d with
    | none => .error .digits
    | some n =>
      if isHighSurrogate n then
        match lowSurrogate? rest with
        | none => .error .pair
        | some (low, rest) => charBefore (pairValue n low) rest
      else charBefore n rest
  | _ => .error .digits

theorem length_of_lowSurrogate? {text rest : List Char} {low : Nat}
    (h : lowSurrogate? text = some (low, rest)) : rest.length < text.length := by
  unfold lowSurrogate? at h
  split at h
  · obtain ⟨n, _, hn⟩ := Option.bind_eq_some_iff.mp h
    split at hn
    · simp only [Option.some.injEq, Prod.mk.injEq] at hn
      simp only [← hn.2, List.length_cons]
      omega
    · simp at hn
  · simp at h

theorem eq_of_charBefore {n : Nat} {rest out : List Char} {c : Char}
    (h : charBefore n rest = .ok (c, out)) : charOfNat? n = some c ∧ out = rest := by
  unfold charBefore at h
  split at h
  · simp at h
  · rename_i hc
    simp only [Except.ok.injEq, Prod.mk.injEq] at h
    exact ⟨h.1 ▸ hc, h.2.symm⟩

theorem length_of_readHexEscape {text rest : List Char} {c : Char}
    (h : readHexEscape text = .ok (c, rest)) : rest.length < text.length := by
  unfold readHexEscape at h
  split at h
  · split at h
    · simp at h
    · split at h
      · split at h
        · simp at h
        · rename_i hlow
          have hlen := length_of_lowSurrogate? hlow
          rw [(eq_of_charBefore h).2]
          simp only [List.length_cons]
          omega
      · rw [(eq_of_charBefore h).2]
        simp only [List.length_cons]
        omega
  · simp at h

end Text
end PathQuery
