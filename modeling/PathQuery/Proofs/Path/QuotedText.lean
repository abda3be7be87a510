import PathQuery.Proofs.Path.Nesting
import PathQuery.Proofs.Path.StringSpelling

/-! # Quoted strings and the scanner

To the scanner, the text between two quotes is inert, however the characters are spelled:
it has no plain character, and the scanner is between the quotes until its end
(`Quoted.Spells.inert`).  So a spelled string is one flat piece (`Quoted.flat_of_spelled`).
-/

namespace PathQuery
namespace Quoted

/-- The scanner goes over the text between quotes and stays between them. -/
def Inert (quote : Char) (text : List Char) : Prop :=
  ∀ (grouping : Bool) (start : Nat) (brackets parens : List Nat) (offset : Nat), ∃ marks,
    (ScanState.mk (some (quote, start)) none brackets parens).walk grouping offset text =
      some (marks, ⟨some (quote, start), none, brackets, parens⟩) ∧
    ∀ m ∈ marks, m.plain = false ∧ m.brackets = brackets.length ∧ m.parens = parens.length

variable {quote c : Char} {a b : List Char}

theorem Inert.nil : Inert quote [] := fun _ _ _ _ _ => ⟨[], rfl, by simp⟩

theorem Inert.append (ha : Inert quote a) (hb : Inert quote b) : Inert quote (a ++ b) := by
  intro grouping start brackets parens offset
  obtain ⟨marks, hwalk, hmarks⟩ := ha grouping start brackets parens offset
  obtain ⟨marks', hwalk', hmarks'⟩ :=
    hb grouping start brackets parens (offset + Text.byteSize a)
  exact ⟨marks ++ marks', ScanState.walk_append hwalk hwalk',
    fun m hm => (List.mem_append.mp hm).elim (hmarks m) (hmarks' m)⟩

theorem Inert.char (hescape : c ≠ '\\') (hquote : c ≠ quote) : Inert quote [c] := by
  intro grouping start brackets parens offset
  have hstep : ScanState.step grouping ⟨some (quote, start), none, brackets, parens⟩ offset c =
      .ok (⟨some (quote, start), none, brackets, parens⟩, false) := by
    simp [ScanState.step, hescape, hquote]
  refine ⟨_, ScanState.walk_cons hstep rfl, fun m hm => ?_⟩
  rw [List.mem_singleton.mp hm]
  exact ⟨rfl, rfl, rfl⟩

theorem Inert.escaped : Inert quote ['\\', c] := by
  intro grouping start brackets parens offset
  have hfirst : ScanState.step grouping ⟨some (quote, start), none, brackets, parens⟩ offset '\\' =
      .ok (⟨some (quote, start), some offset, brackets, parens⟩, false) := rfl
  have hsecond : ScanState.step grouping ⟨some (quote, start), some offset, brackets, parens⟩
      (offset + '\\'.utf8Size) c = .ok (⟨some (quote, start), none, brackets, parens⟩, false) := rfl
  refine ⟨_, ScanState.walk_cons hfirst (ScanState.walk_cons hsecond rfl), fun m hm => ?_⟩
  rcases List.mem_cons.mp hm with rfl | hm
  · exact ⟨rfl, rfl, rfl⟩
  · rw [List.mem_singleton.mp hm]
    exact ⟨rfl, rfl, rfl⟩

/-- Between quotes, the text is flat. -/
theorem Inert.flat_quoted (hquote : quote = '\'' ∨ quote = '"') (h : Inert quote a)
    {grouping : Bool} {P : Char → Prop} : Flat grouping P (quote :: (a ++ [quote])) := by
  intro brackets parens offset
  have hescape : quote ≠ '\\' := by rcases hquote with rfl | rfl <;> decide
  have hopen : (ScanState.within brackets parens).step grouping offset quote =
      .ok (⟨some (quote, offset), none, brackets, parens⟩, false) := by
    simp [ScanState.step, ScanState.within, hescape, hquote]
  obtain ⟨marks, hwalk, hmarks⟩ :=
    h grouping offset brackets parens (offset + quote.utf8Size)
  have hclose : ∀ o, ScanState.step grouping ⟨some (quote, offset), none, brackets, parens⟩ o
      quote = .ok (.within brackets parens, false) := by
    intro o
    simp [ScanState.step, ScanState.within, hescape]
  refine ⟨_, ScanState.walk_cons hopen (ScanState.walk_append hwalk
    (ScanState.walk_cons (hclose _) rfl)), fun m hm => ?_⟩
  rcases List.mem_cons.mp hm with rfl | hm
  · exact ⟨rfl, rfl, by simp⟩
  · rcases List.mem_append.mp hm with hm | hm
    · obtain ⟨hplain, hb, hp⟩ := hmarks m hm
      exact ⟨hb, hp, by simp [hplain]⟩
    · rw [List.mem_singleton.mp hm]
      exact ⟨rfl, rfl, by simp⟩

theorem inert_of_forall (h : ∀ d ∈ a, d ≠ '\\' ∧ d ≠ quote) : Inert quote a := by
  induction a with
  | nil => exact Inert.nil
  | cons d rest ih =>
    have hd := h d (List.mem_cons_self ..)
    exact (Inert.char hd.1 hd.2).append (ih fun e he => h e (List.mem_cons_of_mem _ he))

/-! ## Spelled strings -/

theorem digitChar_ne : ∀ value, value < 16 →
    (Nat.digitChar value ≠ '\\' ∧ Nat.digitChar value ≠ '\'' ∧ Nat.digitChar value ≠ '"') ∧
      (Nat.digitChar value).toUpper ≠ '\\' ∧ (Nat.digitChar value).toUpper ≠ '\'' ∧
        (Nat.digitChar value).toUpper ≠ '"' := by
  decide

/-- No hexadecimal digit means anything to the scanner. -/
theorem isHexDigit_ne {value : Nat} (hquote : quote = '\'' ∨ quote = '"')
    (h : Text.IsHexDigit value c) : c ≠ '\\' ∧ c ≠ quote := by
  obtain ⟨hlower, hupper⟩ := digitChar_ne value h.1
  rcases h.2 with rfl | rfl
  · exact ⟨hlower.1, hquote.elim (· ▸ hlower.2.1) (· ▸ hlower.2.2)⟩
  · exact ⟨hupper.1, hquote.elim (· ▸ hupper.2.1) (· ▸ hupper.2.2)⟩

theorem inert_hexCode {n : Nat} {digits : List Char} (hquote : quote = '\'' ∨ quote = '"')
    (h : Text.IsHexCode n digits) : Inert quote digits := by
  obtain ⟨w, x, y, z, rfl⟩ := h.exists_digits
  refine inert_of_forall fun d hd => ?_
  simp only [List.mem_cons, List.not_mem_nil, or_false] at hd
  rcases hd with rfl | rfl | rfl | rfl
  · exact isHexDigit_ne hquote h.1
  · exact isHexDigit_ne hquote h.2.1
  · exact isHexDigit_ne hquote h.2.2.1
  · exact isHexDigit_ne hquote h.2.2.2

/-- Every spelling of a character is inert. -/
theorem Spelling.inert {front : List Char} (hquote : quote = '\'' ∨ quote = '"')
    (h : Spelling quote c front) : Inert quote front := by
  cases h with
  | itself _ hne hbackslash => exact Inert.char hbackslash hne
  | short => exact Inert.escaped
  | hex hcode =>
    cases hcode with
    | code hdigits => exact Inert.escaped.append (inert_hexCode hquote hdigits)
    | pair _ hhigh hlow =>
      refine Inert.escaped.append ((inert_hexCode hquote hhigh).append ?_)
      exact Inert.escaped.append (inert_hexCode hquote hlow)

theorem Spells.inert {chars text : List Char} (hquote : quote = '\'' ∨ quote = '"')
    (h : Spells quote chars text) : Inert quote text := by
  induction h with
  | nil => exact Inert.nil
  | cons hfront _ ih => exact (hfront.inert hquote).append ih

/-- **To the scanner, a spelled string is one flat piece without a plain character.** -/
theorem flat_of_spelled {s : String} {text : List Char} (h : Spelled s text) {grouping : Bool}
    {P : Char → Prop} : Flat grouping P text := by
  obtain ⟨quote, hquote, body, hbody, rfl⟩ := h
  exact (hbody.inert hquote).flat_quoted hquote

theorem flat_encode (s : String) {grouping : Bool} {P : Char → Prop} :
    Flat grouping P (encode s) :=
  flat_of_spelled (spelled_encode s)

/-- A quoted string ends in a quote. -/
theorem last_of_decode {f : Fragment} {s : String} (h : decode f = .ok s) :
    f.text.getLast? = some '\'' ∨ f.text.getLast? = some '"' := by
  obtain ⟨quote, hquote, body, -, htext⟩ := spelled_of_decode h
  rw [htext, ← List.cons_append, List.getLast?_append]
  rcases hquote with rfl | rfl
  · exact Or.inl rfl
  · exact Or.inr rfl

end Quoted
end PathQuery
