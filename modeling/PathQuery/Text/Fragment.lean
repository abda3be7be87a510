import PathQuery.Text.Blank

/-! # Fragments of a text

A fragment is a run of characters together with the place where it starts in the
text it was cut from, counted in bytes of UTF-8.  Every cut keeps that place
right: of a fragment of some text, `take`, `drop` and `trim` give fragments of
the same text (`Fragment.Within`).
-/

namespace PathQuery
namespace Text

/-- The number of bytes that characters occupy in UTF-8. -/
def byteSize : List Char → Nat
  | [] => 0
  | c :: cs => c.utf8Size + byteSize cs

@[simp] theorem byteSize_nil : byteSize [] = 0 := rfl

@[simp] theorem byteSize_cons (c : Char) (cs : List Char) :
    byteSize (c :: cs) = c.utf8Size + byteSize cs := rfl

@[simp] theorem byteSize_append (a b : List Char) :
    byteSize (a ++ b) = byteSize a + byteSize b := by
  induction a with
  | nil => simp
  | cons c cs ih => simp [ih, Nat.add_assoc]

end Text

/-- A piece of a text: its characters and the byte offset of the first of them. -/
structure Fragment where
  text : List Char
  offset : Nat
deriving DecidableEq, Repr

namespace Fragment

/-- The fragment is what `source` holds from the fragment's offset on, for as
many characters as the fragment has. -/
def Within (f : Fragment) (source : List Char) : Prop :=
  ∃ before after, source = before ++ f.text ++ after ∧ f.offset = Text.byteSize before

/-- The first `n` characters. -/
def take (f : Fragment) (n : Nat) : Fragment :=
  ⟨f.text.take n, f.offset⟩

/-- All but the first `n` characters. -/
def drop (f : Fragment) (n : Nat) : Fragment :=
  ⟨f.text.drop n, f.offset + Text.byteSize (f.text.take n)⟩

/-- The fragment without leading white space. -/
def trimStart (f : Fragment) : Fragment :=
  ⟨Text.trimStart f.text, f.offset + Text.byteSize (f.text.takeWhile Text.isBlank)⟩

/-- The fragment without white space at either end.  A blank fragment is cut
down to the place where it ends. -/
def trim (f : Fragment) : Fragment :=
  ⟨Text.trim f.text, f.trimStart.offset⟩

/-- The characters as a string. -/
def toString (f : Fragment) : String :=
  String.ofList f.text

theorem length_drop_le (f : Fragment) (n : Nat) : (f.drop n).text.length ≤ f.text.length := by
  simp [drop]

theorem length_trim_le (f : Fragment) : f.trim.text.length ≤ f.text.length :=
  Text.length_trim_le f.text

theorem Within.drop {f : Fragment} {source : List Char} (h : f.Within source) (n : Nat) :
    (f.drop n).Within source := by
  obtain ⟨before, after, rfl, ho⟩ := h
  exact ⟨before ++ f.text.take n, after, by simp [Fragment.drop], by simp [Fragment.drop, ho]⟩

theorem Within.trimStart {f : Fragment} {source : List Char} (h : f.Within source) :
    f.trimStart.Within source := by
  obtain ⟨before, after, rfl, ho⟩ := h
  refine ⟨before ++ f.text.takeWhile Text.isBlank, after, ?_, by simp [Fragment.trimStart, ho]⟩
  simp only [Fragment.trimStart, Text.trimStart, List.append_assoc]
  rw [← List.append_assoc (f.text.takeWhile _), List.takeWhile_append_dropWhile]

theorem Within.trim {f : Fragment} {source : List Char} (h : f.Within source) :
    f.trim.Within source := by
  obtain ⟨before, after, hs, ho⟩ := h.trimStart
  refine ⟨before, (f.trimStart.text.reverse.takeWhile Text.isBlank).reverse ++ after, ?_, ho⟩
  have hsplit : f.trimStart.text =
      Text.trimEnd f.trimStart.text ++
        (f.trimStart.text.reverse.takeWhile Text.isBlank).reverse := by
    simp only [Text.trimEnd]
    rw [← List.reverse_append, List.takeWhile_append_dropWhile, List.reverse_reverse]
  rw [hs, ← List.append_assoc, List.append_assoc before f.trim.text]
  exact congrArg (before ++ · ++ after) hsplit

end Fragment
end PathQuery
