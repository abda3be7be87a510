/-! # Integers in decimal

The decimal text of an integer, and the reading of one: an optional sign of either
kind and at least one ASCII digit, with nothing around them.  Leading zeros are
allowed in reading and never written.
-/

namespace PathQuery
namespace Text

/-- The decimal text of an integer. -/
def integerChars (n : Int) : List Char :=
  if n < 0 then '-' :: Nat.toDigits 10 n.natAbs else Nat.toDigits 10 n.natAbs

/-- Reads a non-empty run of ASCII digits. -/
def readNat? (text : List Char) : Option Nat :=
  if text.isEmpty || !text.all Char.isDigit then none else some (Nat.ofDigitChars 10 text 0)

/-- Reads an integer, which may have a sign. -/
def readInteger? : List Char → Option Int
  | '-' :: digits => (readNat? digits).map fun n => -(n : Int)
  | '+' :: digits => (readNat? digits).map fun n => (n : Int)
  | digits => (readNat? digits).map fun n => (n : Int)

/-- Reads an integer of 64 bits. -/
def readInt64? (text : List Char) : Option Int64 := do
  let n ← readInteger? text
  if Int64.minValue.toInt ≤ n ∧ n ≤ Int64.maxValue.toInt then some (Int64.ofInt n) else none

theorem isDigit_of_mem_toDigits {n : Nat} {c : Char} (h : c ∈ Nat.toDigits 10 n) : c.isDigit :=
  Nat.isDigit_of_mem_toDigits (by decide) (by decide) h

theorem readNat?_toDigits (n : Nat) : readNat? (Nat.toDigits 10 n) = some n := by
  have hall : (Nat.toDigits 10 n).all Char.isDigit = true :=
    List.all_eq_true.mpr fun _ h => isDigit_of_mem_toDigits h
  simp [readNat?, hall, Nat.ofDigitChars_toDigits (b := 10) (n := n) (by decide) (by decide)]

end Text
end PathQuery
