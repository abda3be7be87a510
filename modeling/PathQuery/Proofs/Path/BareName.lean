import PathQuery.Path.Compiler
import PathQuery.Path.Printer
import PathQuery.Proofs.Path.Nesting
import PathQuery.Proofs.Text.Trimming

/-! # Bare names

A text `Writes` a name if it has the characters of the name in their order, the special
ones behind a backslash.  The canonical text of a name writes it (`writes_nameChars`), and
so does whatever is left of both when white space is trimmed from them (`Writes.trim`).
-/

namespace PathQuery

variable {grouping : Bool} {P : Char → Prop} {c : Char}

/-! ## Special characters -/

namespace KeyTest

theorem ordinary_of_not_special (h : isSpecial c = false) : Ordinary grouping c := by
  simp [isSpecial] at h
  exact ⟨h.1, h.2.2.2.2.1, h.2.2.2.2.2.1, h.2.2.1, h.2.2.2.1,
    fun _ => ⟨h.2.2.2.2.2.2.1, h.2.2.2.2.2.2.2.1⟩⟩

theorem isSpecial_of_isOperatorChar (h : Occurrence.isOperatorChar c = true) :
    isSpecial c = true := by
  simp [Occurrence.isOperatorChar] at h
  rcases h with rfl | rfl | rfl | rfl | rfl | rfl | rfl | rfl | rfl | rfl | rfl | rfl <;> decide

theorem not_isBlank_of_isSpecial (h : isSpecial c = true) : Text.isBlank c = false := by
  simp [isSpecial] at h
  rcases h with rfl | rfl | rfl | rfl | rfl | rfl | rfl | rfl | rfl | rfl | rfl | rfl | rfl |
    rfl | rfl | rfl | rfl | rfl | rfl <;> decide

theorem not_isSpecial_of_isBlank (h : Text.isBlank c = true) : isSpecial c = false := by
  by_contra hspecial
  have hsolid := not_isBlank_of_isSpecial (by simpa using hspecial)
  exact Bool.false_ne_true (hsolid.symm.trans h)

/-- White space means nothing to the scanner. -/
theorem ordinary_of_isBlank (h : Text.isBlank c = true) : Ordinary grouping c :=
  ordinary_of_not_special (not_isSpecial_of_isBlank h)

/-! ## Texts that write a name -/

/-- The text has the characters of the name, and a backslash before the special ones and
perhaps before others that are no white space. -/
inductive Writes : List Char → List Char → Prop
  | nil : Writes [] []
  | plain {c : Char} {text name : List Char} (special : isSpecial c = false)
      (rest : Writes text name) : Writes (c :: text) (c :: name)
  | escaped {c : Char} {text name : List Char} (blank : Text.isBlank c = false)
      (rest : Writes text name) : Writes ('\\' :: c :: text) (c :: name)

variable {text name : List Char}

theorem Writes.tailChars_append (h : Writes text name) (c : Char) :
    Writes (tailChars c ++ text) (c :: name) := by
  unfold tailChars
  split
  · rename_i hspecial
    exact Writes.escaped (not_isBlank_of_isSpecial hspecial) h
  · rename_i hspecial
    exact Writes.plain (by simpa using hspecial) h

theorem Writes.firstChars_append (h : Writes text name) (c : Char) :
    Writes (firstChars c ++ text) (c :: name) := by
  unfold firstChars
  split
  · rename_i hescape
    refine Writes.escaped ?_ h
    simp only [Bool.or_eq_true, beq_iff_eq] at hescape
    rcases hescape with (hspecial | rfl) | rfl
    · exact not_isBlank_of_isSpecial hspecial
    · decide
    · decide
  · rename_i hescape
    refine Writes.plain ?_ h
    simp only [Bool.or_eq_true, not_or, Bool.not_eq_true] at hescape
    exact hescape.1.1

/-- The canonical text of a name writes it. -/
theorem writes_nameChars (key : String) : Writes (nameChars key) key.toList := by
  have htail : ∀ rest : List Char, Writes (rest.flatMap tailChars) rest := by
    intro rest
    induction rest with
    | nil => exact Writes.nil
    | cons c rest ih => exact ih.tailChars_append c
  unfold nameChars
  cases key.toList with
  | nil => exact Writes.nil
  | cons c rest => exact (htail rest).firstChars_append c

theorem Writes.nil_iff (h : Writes text name) : text = [] ↔ name = [] := by
  cases h <;> simp

/-! ## Trimming and reading -/

theorem Writes.trimStart (h : Writes text name) :
    Writes (Text.trimStart text) (Text.trimStart name) := by
  induction h with
  | nil => exact Writes.nil
  | @plain c text name special rest ih =>
    cases hc : Text.isBlank c with
    | true => rwa [Text.trimStart_blank_cons hc, Text.trimStart_blank_cons hc]
    | false =>
      rw [Text.trimStart_cons hc, Text.trimStart_cons hc]
      exact Writes.plain special rest
  | @escaped c text name blank rest ih =>
    have hbackslash : Text.isBlank '\\' = false := by decide
    rw [Text.trimStart_cons hbackslash, Text.trimStart_cons blank]
    exact Writes.escaped blank rest

theorem Writes.trimEnd (h : Writes text name) :
    Writes (Text.trimEnd text) (Text.trimEnd name) := by
  induction h with
  | nil => exact Writes.nil
  | @plain c text name special rest ih =>
    simp only [Text.trimEnd_cons, ih.nil_iff]
    split
    · exact Writes.nil
    · exact Writes.plain special ih
  | @escaped c text name blank rest ih =>
    have hbackslash : Text.isBlank '\\' = false := by decide
    rw [Text.trimEnd_cons, Text.trimEnd_cons, Text.trimEnd_cons]
    simp only [blank, hbackslash, Bool.false_eq_true, and_false, if_false]
    exact Writes.escaped blank ih

theorem Writes.trim (h : Writes text name) : Writes (Text.trim text) (Text.trim name) :=
  h.trimStart.trimEnd

theorem Writes.unescape_eq (h : Writes text name) : Compiler.unescape text = name := by
  induction h with
  | nil => rfl
  | @plain c text name special rest ih =>
    have hc : c ≠ '\\' := by
      rintro rfl
      simp [isSpecial] at special
    rw [Compiler.unescape, ih]
    exact hc
  | @escaped c text name blank rest ih => rw [Compiler.unescape, ih]

/-- A text that writes a name is flat, and has plain characters only where it has no
backslash. -/
theorem Writes.flat (h : Writes text name) (hP : ∀ c, isSpecial c = false → P c) :
    Flat grouping P text := by
  induction h with
  | nil => exact Flat.nil
  | @plain c text name special rest ih =>
    exact (Flat.char (ordinary_of_not_special special) (hP c special)).append ih
  | escaped blank rest ih => exact Flat.escaped.append ih

/-- **A text that writes a name is read as that name**, and the empty one as none. -/
theorem Writes.keyTest?_eq (h : Writes text name) :
    Compiler.keyTest? text = if name = [] then none else some (.name (String.ofList name)) := by
  unfold Compiler.keyTest?
  by_cases hname : name = []
  · rw [if_pos hname, if_pos (by simpa using h.nil_iff.mpr hname)]
  · have htext : text ≠ [] := fun hnil => hname (h.nil_iff.mp hnil)
    have hstar : text ≠ ['*'] := by
      rintro rfl
      cases h with
      | plain special rest => simp [isSpecial] at special
    rw [if_neg hname, if_neg (by simpa using htext), if_neg hstar, h.unescape_eq]

/-- The first character of a written name does not look like a marker. -/
theorem head_nameChars {key : String} (h : (nameChars key).head? = some c) :
    c ≠ '$' ∧ c ≠ '@' := by
  unfold nameChars at h
  split at h
  · simp at h
  · rename_i d rest _
    unfold firstChars at h
    split at h
    · obtain rfl : '\\' = c := by simpa using h
      decide
    · rename_i hescape
      obtain rfl : d = c := by simpa using h
      simp only [Bool.or_eq_true, beq_iff_eq, not_or] at hescape
      exact ⟨hescape.1.2, hescape.2⟩

end KeyTest
end PathQuery
