import PathQuery.Json.Reader
import PathQuery.Json.Writer

/-! # Reading and writing JSON texts

A program that takes and gives JSON texts is told how they are read and written
(`JsonTexts`): which texts are JSON, which value a text stands for, how a value is laid
out, and what is said of a text that cannot be read.  Little is asked of this
(`JsonTexts.Lawful`).  The reader and the writers of this library are one choice
(`JsonTexts.standard`).
-/

namespace PathQuery

/-- A reader and two writers of JSON texts; each of them may fail and say why. -/
structure JsonTexts where
  read : String → Except String Json
  /-- Writes a value over several lines. -/
  pretty : Json → Except String String
  /-- Writes a value on a single line. -/
  compact : Json → Except String String

namespace JsonTexts

/-- **What is asked of the texts over several lines**: every value has one, and an array is
written `[]` only if it is empty. -/
structure Lawful (texts : JsonTexts) : Prop where
  prints : ∀ v, ∃ text, texts.pretty v = .ok text
  empty : ∀ values, texts.pretty (.array values) = .ok "[]" ↔ values = []

/-- The levels of nesting that a text may have in the standard choice. -/
def standardLevels : Nat := 127

/-- The reader and the writers of this library. -/
def standard [DoubleText] : JsonTexts where
  read text := (Json.read? (some standardLevels) text).elim (.error "not a JSON text") .ok
  pretty v := .ok v.pretty
  compact v := .ok v.compact

end JsonTexts
end PathQuery
