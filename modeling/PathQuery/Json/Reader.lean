import PathQuery.Json.Basic
import PathQuery.Text.Escape

/-! # Reading JSON texts

The reader accepts exactly one JSON value with optional white space around its
tokens.  In an object that repeats a key, the key keeps its first place and takes
its last value.  A number that has the form of an integer and fits a word is that
integer, except that `-0` is the double `-0.0`; every other number is the nearest
double, and a text whose number is beyond the doubles is refused.  Nesting may be
limited.

Each step returns what it read together with the rest of the text and the fact
that the rest is shorter, which is why reading ends.
-/

namespace PathQuery
namespace Json
namespace Reader

/-- White space between tokens. -/
def isSpace (c : Char) : Bool :=
  c == ' ' || c == '\t' || c == '\n' || c == '\r'

/-- The text without leading white space. -/
def skip (text : List Char) : List Char :=
  text.dropWhile isSpace

theorem length_skip_le (text : List Char) : (skip text).length ≤ text.length :=
  (List.dropWhile_sublist _).length_le

theorem length_of_skip {text rest : List Char} {c : Char} (h : skip text = c :: rest) :
    rest.length < text.length := by
  have := length_skip_le text
  rw [h] at this
  exact this

/-! ## Strings -/

/-- What a character stands for behind a backslash. -/
def escape? (c : Char) : Option Char :=
  if c = '"' ∨ c = '\\' ∨ c = '/' then some c else Text.controlOfLetter? c

/-- Reads one character of a string, escaped or not. -/
def readChar? : List Char → Option (Char × List Char)
  | [] => none
  | '\\' :: rest =>
    match rest with
    | [] => none
    | 'u' :: rest => (Text.readHexEscape rest).toOption
    | c :: rest => (escape? c).map fun meant => (meant, rest)
  | c :: rest => if c.toNat < 0x20 then none else some (c, rest)

theorem length_readChar? {text rest : List Char} {c : Char}
    (h : readChar? text = some (c, rest)) : rest.length < text.length := by
  unfold readChar? at h
  split at h
  · simp at h
  · split at h
    · simp at h
    · rename_i tail
      cases hr : Text.readHexEscape tail with
      | error e => simp [hr, Except.toOption] at h
      | ok p =>
        simp only [hr, Except.toOption, Option.some.injEq] at h
        have := Text.length_of_readHexEscape (h ▸ hr)
        simp only [List.length_cons]
        omega
    · obtain ⟨m, _, hm⟩ := Option.map_eq_some_iff.mp h
      simp only [Prod.mk.injEq] at hm
      simp only [← hm.2, List.length_cons]
      omega
  · split at h
    · simp at h
    · simp only [Option.some.injEq, Prod.mk.injEq] at h
      simp [← h.2]

/-- What is left of a text of fewer than `bound` characters. -/
abbrev Rest (bound : Nat) := { rest : List Char // rest.length < bound }

/-- Reads a string up to its closing quote; `acc` holds the characters so far, the
last one first. -/
def readString (bound : Nat) (acc text : List Char) (h : text.length ≤ bound) :
    Option (String × Rest bound) :=
  match text with
  | [] => none
  | '"' :: rest => some (String.ofList acc.reverse, ⟨rest, h⟩)
  | c :: rest =>
    match hc : readChar? (c :: rest) with
    | none => none
    | some (meant, after) =>
      have hlt := length_readChar? hc
      readString bound (meant :: acc) after (Nat.le_trans (Nat.le_of_lt hlt) h)
termination_by text.length
decreasing_by exact hlt

/-! ## Numbers -/

/-- The number that a numeral stands for. -/
def number? (n : Numeral) : Option Number :=
  if n.isIntegral && n.negative && n.mantissa == 0 then some (.float (.zero true))
  else Number.ofNumeral? n

/-- The whole digits do not begin with a superfluous zero. -/
def isMinimal (n : Numeral) : Bool :=
  n.whole == ['0'] || n.whole.head? != some '0'

/-- Reads a number. -/
def readNumber (text : List Char) : Option (Json × Rest text.length) :=
  match h : Numeral.read Char.isDigit text with
  | none => none
  | some (n, rest) =>
    if isMinimal n then (number? n).map fun x => (.number x, ⟨rest, Numeral.length_read h⟩)
    else none

/-! ## Values -/

/-- The levels of nesting that are left inside another array or object; no limit
is `none`. -/
def enter : Option Nat → Option (Option Nat)
  | none => some none
  | some 0 => none
  | some (n + 1) => some (some n)

/-- Adds a member to members that are listed last one first. -/
def addMember (key : String) (value : Json) (members : List (String × Json)) :
    List (String × Json) :=
  if (lookup key members).isSome then insert key value members else (key, value) :: members

mutual

/-- Reads a value that starts at the first character. -/
def readValue (levels : Option Nat) (text : List Char) : Option (Json × Rest text.length) :=
  match text with
  | 'n' :: 'u' :: 'l' :: 'l' :: rest =>
    some (.null, ⟨rest, by simp only [List.length_cons]; omega⟩)
  | 't' :: 'r' :: 'u' :: 'e' :: rest =>
    some (.bool true, ⟨rest, by simp only [List.length_cons]; omega⟩)
  | 'f' :: 'a' :: 'l' :: 's' :: 'e' :: rest =>
    some (.bool false, ⟨rest, by simp only [List.length_cons]; omega⟩)
  | '"' :: rest =>
    match readString (rest.length + 1) [] rest (Nat.le_succ _) with
    | none => none
    | some (s, after) => some (.string s, after)
  | '[' :: rest =>
    match enter levels with
    | none => none
    | some inner =>
      match h : skip rest with
      | ']' :: after =>
        some (.array [], ⟨after, Nat.lt_succ_of_lt (length_of_skip h)⟩)
      | _ =>
        match readItems inner (rest.length + 1) [] rest (Nat.le_succ _) with
        | none => none
        | some (items, after) => some (.array items, after)
  | '\x7b' :: rest =>
    match enter levels with
    | none => none
    | some inner =>
      match h : skip rest with
      | '\x7d' :: after =>
        some (.object [], ⟨after, Nat.lt_succ_of_lt (length_of_skip h)⟩)
      | _ =>
        match readMembers inner (rest.length + 1) [] rest (Nat.le_succ _) with
        | none => none
        | some (members, after) => some (.object members, after)
  | text => readNumber text
termination_by 2 * text.length

/-- Reads the elements of an array up to its closing bracket; `acc` holds the
elements so far, the last one first. -/
def readItems (levels : Option Nat) (bound : Nat) (acc : List Json) (text : List Char)
    (h : text.length ≤ bound) : Option (List Json × Rest bound) :=
  have hskip := length_skip_le text
  match readValue levels (skip text) with
  | none => none
  | some (v, after) =>
    have hafter := after.2
    match hs : skip after.1 with
    | ',' :: rest =>
      have hrest := length_of_skip hs
      readItems levels bound (v :: acc) rest (by omega)
    | ']' :: rest =>
      have hrest := length_of_skip hs
      some ((v :: acc).reverse, ⟨rest, by omega⟩)
    | _ => none
termination_by 2 * text.length + 1

/-- Reads the members of an object up to its closing brace; `acc` holds the members
so far, the last one first. -/
def readMembers (levels : Option Nat) (bound : Nat) (acc : List (String × Json))
    (text : List Char) (h : text.length ≤ bound) :
    Option (List (String × Json) × Rest bound) :=
  match hq : skip text with
  | '"' :: keyText =>
    have hquote := length_of_skip hq
    match readString keyText.length [] keyText (Nat.le_refl _) with
    | none => none
    | some (key, afterKey) =>
      have hkey := afterKey.2
      match hc : skip afterKey.1 with
      | ':' :: valueText =>
        have hcolon := length_of_skip hc
        have hvalue := length_skip_le valueText
        match readValue levels (skip valueText) with
        | none => none
        | some (v, after) =>
          have hafter := after.2
          match hs : skip after.1 with
          | ',' :: rest =>
            have hrest := length_of_skip hs
            readMembers levels bound (addMember key v acc) rest (by omega)
          | '\x7d' :: rest =>
            have hrest := length_of_skip hs
            some ((addMember key v acc).reverse, ⟨rest, by omega⟩)
          | _ => none
      | _ => none
  | _ => none
termination_by 2 * text.length + 1

end

end Reader

/-- Reads a JSON text; `levels` limits the nesting of arrays and objects. -/
def read? (levels : Option Nat) (text : String) : Option Json :=
  match Reader.readValue levels (Reader.skip text.toList) with
  | none => none
  | some (v, rest) => if (Reader.skip rest.1).isEmpty then some v else none

end Json
end PathQuery
