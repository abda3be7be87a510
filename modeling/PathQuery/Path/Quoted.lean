import PathQuery.Path.Error
import PathQuery.Text.Escape

/-! # Quoted strings of paths

Names and constants in a path are quoted with either kind of quote.  Reading knows
the escapes of JSON, and an escape for each quote; writing uses single quotes and
escapes the quote, the backslash and the control characters up to U+001F.
-/

namespace PathQuery
namespace Quoted

/-! ## Writing -/

/-- One character between the quotes. -/
def encodeChar (c : Char) : List Char :=
  if c = '\'' then ['\\', '\'']
  else if c = '\\' then ['\\', '\\']
  else if c = '\n' then ['\\', 'n']
  else if c = '\r' then ['\\', 'r']
  else if c = '\t' then ['\\', 't']
  else if c.toNat ≤ 0x1F then
    ['\\', 'u', '0', '0', Nat.digitChar (c.toNat / 16), Nat.digitChar (c.toNat % 16)]
  else [c]

/-- A string in its quotes. -/
def encode (text : String) : List Char :=
  '\'' :: (text.toList.flatMap encodeChar ++ ['\''])

example : String.ofList (encode "it's\n\x01") = "'it\\'s\\n\\u0001'" := by decide +kernel

/-! ## Reading -/

/-- What a character stands for behind a backslash. -/
def escape? (c : Char) : Option Char :=
  if c = '\\' ∨ c = '\'' ∨ c = '"' ∨ c = '/' then some c else Text.controlOfLetter? c

/-- The cause that a wrong hexadecimal escape is reported with. -/
def causeOfHex : Text.HexEscapeError → SyntaxCause
  | .digits => .unicodeEscape
  | .pair => .surrogatePair
  | .codePoint => .codePoint

/-- Reads one written character: what it stands for and the rest of the text. -/
def readChar : List Char → Except SyntaxCause (Char × List Char)
  | [] => .error .openString
  | '\\' :: rest =>
    match rest with
    | [] => .error .openEscape
    | 'u' :: rest => (Text.readHexEscape rest).mapError causeOfHex
    | c :: rest =>
      match escape? c with
      | some meant => .ok (meant, rest)
      | none => .error (.unknownEscape c)
  | c :: rest => if c.toNat ≤ 0x1F then .error (.controlCharacter c) else .ok (c, rest)

theorem ok_of_mapError {ε δ α : Type} {f : ε → δ} {result : Except ε α} {a : α}
    (h : result.mapError f = .ok a) : result = .ok a :=
  match result, h with
  | .ok _, rfl => rfl

theorem length_readChar {text rest : List Char} {c : Char}
    (h : readChar text = .ok (c, rest)) : rest.length < text.length := by
  unfold readChar at h
  split at h
  · simp at h
  · split at h
    · simp at h
    · have := Text.length_of_readHexEscape (ok_of_mapError h)
      simp only [List.length_cons]
      omega
    · split at h
      · simp only [Except.ok.injEq, Prod.mk.injEq] at h
        simp only [← h.2, List.length_cons]
        omega
      · simp at h
  · split at h
    · simp at h
    · simp only [Except.ok.injEq, Prod.mk.injEq] at h
      simp [← h.2]

/-- Reads what follows the opening quote, which stands at `start`; the text goes on
at `offset`.  Only the closing quote may end it. -/
def decodeBody (quote : Char) (start offset : Nat) (text : List Char) :
    Except Fault (List Char) :=
  match text with
  | [] => .error ⟨.openString, start⟩
  | c :: rest =>
    if c = quote then
      if rest.isEmpty then .ok [] else .error ⟨.afterQuoted rest, offset + c.utf8Size⟩
    else
      match h : readChar (c :: rest) with
      | .error cause => .error ⟨cause, offset⟩
      | .ok (meant, after) =>
        have := length_readChar h
        let width := Text.byteSize ((c :: rest).take ((c :: rest).length - after.length))
        (decodeBody quote start (offset + width) after).map (meant :: ·)
termination_by text.length
decreasing_by assumption

/-- Reads a fragment that is one quoted string. -/
def decode (f : Fragment) : Except Fault String :=
  match f.text with
  | c :: rest =>
    if c = '\'' ∨ c = '"' then
      (decodeBody c f.offset (f.offset + c.utf8Size) rest).map String.ofList
    else .error ⟨.notQuoted, f.offset⟩
  | [] => .error ⟨.notQuoted, f.offset⟩

end Quoted
end PathQuery
