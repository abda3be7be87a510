import PathQuery.Text.Fragment

/-! # Trimmed texts

A text is `Trimmed` if neither of its ends is white space.  Trimming gives such a
text and leaves such a text alone, whatever white space is put around it
(`trim_blank_append`, `trim_append_blank`).
-/

namespace PathQuery
namespace Text

/-- No white space stands at either end of the text. -/
structure Trimmed (text : List Char) : Prop where
  head : ∀ c, text.head? = some c → isBlank c = false
  last : ∀ c, text.getLast? = some c → isBlank c = false

variable {text : List Char} {c : Char}

theorem trimmed_of_forall (h : ∀ c ∈ text, isBlank c = false) : Trimmed text where
  head c hc := h c (List.mem_of_head? hc)
  last c hc := h c (List.mem_of_getLast? hc)

theorem trimStart_eq_self (h : ∀ c, text.head? = some c → isBlank c = false) :
    trimStart text = text := by
  cases text with
  | nil => rfl
  | cons c rest => simp [trimStart, h c rfl]

theorem trimEnd_eq_self (h : ∀ c, text.getLast? = some c → isBlank c = false) :
    trimEnd text = text := by
  have hrev : trimStart text.reverse = text.reverse :=
    trimStart_eq_self fun c hc => h c (by simpa using hc)
  rw [trimEnd, ← trimStart, hrev, List.reverse_reverse]

theorem Trimmed.trim_eq (h : Trimmed text) : trim text = text := by
  rw [trim, trimStart_eq_self h.head, trimEnd_eq_self h.last]

/-- A fragment with such a text keeps it when it is trimmed. -/
theorem Trimmed.text_trim {f : Fragment} (h : Trimmed text) (hf : f.text = text) :
    f.trim.text = text := by
  rw [Fragment.trim, hf, h.trim_eq]

theorem head_trimStart (h : (trimStart text).head? = some c) : isBlank c = false := by
  induction text with
  | nil => simp [trimStart] at h
  | cons d rest ih =>
    rw [trimStart, List.dropWhile_cons] at h
    split at h
    · exact ih h
    · rename_i hd
      obtain rfl : d = c := by simpa using h
      simpa using hd

theorem last_trimEnd (h : (trimEnd text).getLast? = some c) : isBlank c = false := by
  have hrev : (trimStart text.reverse).head? = some c := by
    simpa [trimEnd, trimStart] using h
  exact head_trimStart hrev

/-- Trimming at the front takes white space away. -/
theorem exists_append_trimStart (text : List Char) :
    ∃ blanks, text = blanks ++ trimStart text ∧ ∀ c ∈ blanks, isBlank c = true :=
  ⟨text.takeWhile isBlank, List.takeWhile_append_dropWhile.symm,
    List.all_eq_true.mp List.all_takeWhile⟩

/-- Trimming at the end takes white space away. -/
theorem exists_trimEnd_append (text : List Char) :
    ∃ blanks, text = trimEnd text ++ blanks ∧ ∀ c ∈ blanks, isBlank c = true := by
  refine ⟨(text.reverse.takeWhile isBlank).reverse, ?_, fun c hc => ?_⟩
  · rw [trimEnd, ← List.reverse_append, List.takeWhile_append_dropWhile, List.reverse_reverse]
  · exact List.all_eq_true.mp List.all_takeWhile c (List.mem_reverse.mp hc)

/-- Trimming at the end keeps the front. -/
theorem head_trimEnd (h : (trimEnd text).head? = some c) : text.head? = some c := by
  obtain ⟨blanks, hblanks, -⟩ := exists_trimEnd_append text
  rw [hblanks, List.head?_append, h]
  rfl

theorem trimmed_trim (text : List Char) : Trimmed (trim text) where
  head _ h := head_trimStart (head_trimEnd h)
  last _ h := last_trimEnd h

theorem trimStart_blank_cons (hc : isBlank c = true) : trimStart (c :: text) = trimStart text := by
  simp [trimStart, hc]

theorem trimStart_cons (hc : isBlank c = false) : trimStart (c :: text) = c :: text := by
  simp [trimStart, hc]

/-- A character in front is trimmed only if the whole text is white space. -/
theorem trimEnd_cons : trimEnd (c :: text) =
    if trimEnd text = [] ∧ isBlank c = true then [] else c :: trimEnd text := by
  unfold trimEnd
  rw [List.reverse_cons, List.dropWhile_append]
  cases hc : isBlank c <;> by_cases htext : text.reverse.dropWhile isBlank = [] <;>
    simp [hc, htext]

theorem trimEnd_append_blank (hc : isBlank c = true) : trimEnd (text ++ [c]) = trimEnd text := by
  simp [trimEnd, hc]

/-- A text that does not end in white space is trimmed at its front only. -/
theorem trim_eq_trimStart (h : ∀ c, text.getLast? = some c → isBlank c = false) :
    trim text = trimStart text := by
  refine trimEnd_eq_self fun c hc => h c ?_
  rw [← List.takeWhile_append_dropWhile (p := isBlank) (l := text), List.getLast?_append]
  rw [trimStart] at hc
  rw [hc]
  rfl

theorem trim_trimStart (text : List Char) : trim (trimStart text) = trim text := by
  rw [trim, trimStart_eq_self fun _ => head_trimStart, trim]

/-- White space in front of a text does not count in trimming. -/
theorem trim_blank_append (hc : isBlank c = true) : trim (c :: text) = trim text := by
  rw [trim, trimStart_blank_cons hc, trim]

/-- What follows a text that does not start with white space is trimmed on its own. -/
theorem trimStart_append {rest : List Char} (h : ∀ c, rest.head? = some c → isBlank c = false) :
    trimStart (text ++ rest) = trimStart text ++ rest := by
  induction text with
  | nil => simpa [trimStart] using trimStart_eq_self h
  | cons c tail ih =>
    rw [List.cons_append, trimStart, trimStart, List.dropWhile_cons, List.dropWhile_cons]
    split
    · exact ih
    · rfl

/-- What follows a text that has more than white space is no part of its front. -/
theorem trimStart_append_of_ne_nil {rest : List Char} (h : trimStart text ≠ []) :
    trimStart (text ++ rest) = trimStart text ++ rest := by
  unfold trimStart at h ⊢
  rw [List.dropWhile_append, if_neg (by simpa using h)]

/-- White space behind a text does not count in trimming. -/
theorem trim_append_blank (hc : isBlank c = true) : trim (text ++ [c]) = trim text := by
  by_cases htext : trimStart text = []
  · have hall : trimStart (text ++ [c]) = [] := by
      unfold trimStart at htext ⊢
      rw [List.dropWhile_append, htext, List.isEmpty_nil, if_pos rfl, List.dropWhile_cons_of_pos hc]
      rfl
    rw [trim, trim, htext, hall]
  · rw [trim, trimStart_append_of_ne_nil htext, trimEnd_append_blank hc, trim]

variable {blanks : List Char}

theorem trim_append_blanks (h : ∀ c ∈ blanks, isBlank c = true) (text : List Char) :
    trim (text ++ blanks) = trim text := by
  induction blanks generalizing text with
  | nil => rw [List.append_nil]
  | cons c rest ih =>
    rw [List.forall_mem_cons] at h
    rw [List.append_cons, ih h.2, trim_append_blank h.1]

theorem trim_blanks_append (h : ∀ c ∈ blanks, isBlank c = true) (text : List Char) :
    trim (blanks ++ text) = trim text := by
  induction blanks with
  | nil => rfl
  | cons c rest ih =>
    rw [List.forall_mem_cons] at h
    rw [List.cons_append, trim_blank_append h.1, ih h.2]

/-- A text that ends in a trimmed one is trimmed at its front only. -/
theorem Trimmed.trim_append {rest : List Char} (h : Trimmed rest) (hne : rest ≠ []) :
    trim (text ++ rest) = trimStart text ++ rest := by
  rw [trim, trimStart_append h.head, trimEnd_eq_self]
  intro c hc
  obtain ⟨d, hd⟩ : ∃ d, rest.getLast? = some d := ⟨_, List.getLast?_eq_some_getLast hne⟩
  rw [List.getLast?_append, hd] at hc
  exact h.last c (hd.trans hc)

end Text
end PathQuery
