import PathQuery.Proofs.Path.BareName
import PathQuery.Proofs.Path.Inversion
import PathQuery.Proofs.Path.QuotedText
import PathQuery.Proofs.Path.Splitting

/-! # Lists of quoted names

The scanner and the reader of strings look for the closing quote each in its own way, and find
the same one.  So a quoted string, whatever it contains, is passed over as one piece, and a
segment of quoted strings with commas between them and white space around them is compiled as
the list of the names that they are read as (`Compiler.segment_quotedNames`).
-/

namespace PathQuery

namespace Text

theorem not_isBlank_quote {c : Char} (h : c = '\'' ∨ c = '"') : isBlank c = false := by
  rcases h with rfl | rfl <;> decide

end Text

/-! ## Quoted names -/

/-- A string in its quotes, with white space around it, and the name that it is read as. -/
structure QuotedName where
  before : List Char
  quoted : Fragment
  after : List Char
  name : String
  before_blank : ∀ c ∈ before, Text.isBlank c = true
  after_blank : ∀ c ∈ after, Text.isBlank c = true
  reads : Quoted.decode quoted = .ok name

namespace QuotedName

/-- The text of the string and of the white space around it. -/
def text (n : QuotedName) : List Char :=
  n.before ++ (n.quoted.text ++ n.after)

/-- The name without the white space in front of it. -/
def withoutBefore (n : QuotedName) : QuotedName :=
  { n with before := [], before_blank := by simp }

/-- The name without the white space behind it. -/
def withoutAfter (n : QuotedName) : QuotedName :=
  { n with after := [], after_blank := by simp }

/-- A name as it is written, without white space around it. -/
def written (key : String) : QuotedName :=
  ⟨[], ⟨Quoted.encode key, 0⟩, [], key, by simp, by simp, Quoted.decode_encode rfl⟩

/-- The texts of names with commas between them. -/
def joined (names : List QuotedName) : List Char :=
  List.intercalate [','] (names.map text)

variable (n : QuotedName)

theorem exists_quote : ∃ quote, (quote = '\'' ∨ quote = '"') ∧
    n.quoted.text.head? = some quote ∧ n.quoted.text.getLast? = some quote := by
  obtain ⟨quote, hquote, body, -, htext⟩ := Quoted.spelled_of_decode n.reads
  refine ⟨quote, hquote, by rw [htext]; rfl, ?_⟩
  rw [htext, ← List.cons_append, List.getLast?_append]
  rfl

theorem trimmed_quoted : Text.Trimmed n.quoted.text := by
  obtain ⟨quote, hquote, hhead, hlast⟩ := n.exists_quote
  constructor
  · intro c hc
    exact Option.some.inj (hhead.symm.trans hc) ▸ Text.not_isBlank_quote hquote
  · intro c hc
    exact Option.some.inj (hlast.symm.trans hc) ▸ Text.not_isBlank_quote hquote

/-- The white space around the string is trimmed. -/
theorem trim_text : Text.trim n.text = n.quoted.text := by
  rw [text, Text.trim_blanks_append n.before_blank, Text.trim_append_blanks n.after_blank,
    n.trimmed_quoted.trim_eq]

/-- The text has no comma that is not quoted. -/
theorem closed_text : Closed true (· ≠ ',') n.text := by
  have hblanks : ∀ blanks : List Char, (∀ c ∈ blanks, Text.isBlank c = true) →
      Flat true (· ≠ ',') blanks :=
    fun _ h => Flat.chars fun c hc => ⟨KeyTest.ordinary_of_isBlank (h c hc), fun hcomma => by
      have hblank := h c hc
      rw [hcomma] at hblank
      cases hblank⟩
  have hquoted : Flat true (· ≠ ',') n.quoted.text :=
    Quoted.flat_of_spelled (Quoted.spelled_of_decode n.reads)
  exact ((hblanks _ n.before_blank).append (hquoted.append (hblanks _ n.after_blank))).closed

theorem joined_cons (rest : List QuotedName) :
    joined (n :: rest) = n.text ++ (rest.map text).flatMap (',' :: ·) := by
  induction rest generalizing n with
  | nil => simp [joined]
  | cons m rest ih =>
    have hstep : joined (n :: m :: rest) = n.text ++ ',' :: joined (m :: rest) := by
      simp [joined, List.intercalate_cons_cons]
    rw [hstep, ih, List.map_cons, List.flatMap_cons, List.cons_append]

theorem joined_withoutBefore (rest : List QuotedName) :
    joined (n :: rest) = n.before ++ joined (n.withoutBefore :: rest) := by
  simp [joined_cons, text, withoutBefore]

/-- The texts end with that of the last name. -/
theorem exists_joined_concat (front : List QuotedName) :
    ∃ start, ∀ n : QuotedName, joined (front ++ [n]) = start ++ n.text := by
  cases front with
  | nil => exact ⟨[], fun n => by simp [joined_cons]⟩
  | cons m rest =>
    refine ⟨m.text ++ ((rest.map text).flatMap (',' :: ·) ++ [',']), fun n => ?_⟩
    simp [joined_cons]

theorem joined_withoutAfter (front : List QuotedName) :
    joined (front ++ [n]) = joined (front ++ [n.withoutAfter]) ++ n.after := by
  obtain ⟨start, hstart⟩ := exists_joined_concat front
  simp [hstart, text, withoutAfter]

/-- Without white space in front, the texts start with a quote. -/
theorem head_joined (rest : List QuotedName) : ∃ quote, (quote = '\'' ∨ quote = '"') ∧
    (joined (n.withoutBefore :: rest)).head? = some quote := by
  obtain ⟨quote, hquote, hhead, -⟩ := n.exists_quote
  exact ⟨quote, hquote, by simp [joined_cons, text, withoutBefore, hhead]⟩

/-- Without white space behind, they end with one. -/
theorem last_joined (front : List QuotedName) : ∃ quote, (quote = '\'' ∨ quote = '"') ∧
    (joined (front ++ [n.withoutAfter])).getLast? = some quote := by
  obtain ⟨quote, hquote, -, hlast⟩ := n.exists_quote
  obtain ⟨start, hstart⟩ := exists_joined_concat front
  exact ⟨quote, hquote, by simp [hstart, text, withoutAfter, List.getLast?_append, hlast]⟩

/-- **Trimmed, the texts are those of the same names**, and start with a quote. -/
theorem exists_trim_joined {names : List QuotedName} (hne : names ≠ []) :
    ∃ bare : List QuotedName, bare ≠ [] ∧ bare.map name = names.map name ∧
      Text.trim (joined names) = joined bare ∧
      ∃ quote, (quote = '\'' ∨ quote = '"') ∧ (joined bare).head? = some quote := by
  obtain ⟨n, rest, rfl⟩ := List.exists_cons_of_ne_nil hne
  obtain ⟨front, last, hlast⟩ : ∃ front last, n.withoutBefore :: rest = front ++ [last] :=
    (List.eq_nil_or_concat _).resolve_left (List.cons_ne_nil _ _) |>.imp fun front h =>
      h.imp fun last h => by rwa [List.concat_eq_append] at h
  obtain ⟨opening, hopening, hhead⟩ := n.head_joined rest
  obtain ⟨closing, hclosing, hend⟩ := last.last_joined front
  have hsplit := last.joined_withoutAfter front
  have hfull : joined (front ++ [last.withoutAfter]) ≠ [] := by
    intro hnil
    rw [hnil] at hend
    cases hend
  have hbare : (joined (front ++ [last.withoutAfter])).head? = some opening := by
    rw [hlast, hsplit, List.head?_append_of_ne_nil _ hfull] at hhead
    exact hhead
  refine ⟨front ++ [last.withoutAfter], by simp, ?_, ?_, opening, hopening, hbare⟩
  · have hnames := congrArg (List.map name) hlast
    simpa [withoutBefore, withoutAfter] using hnames.symm
  · have htrimmed : Text.Trimmed (joined (front ++ [last.withoutAfter])) := by
      constructor
      · intro c hc
        exact Option.some.inj (hbare.symm.trans hc) ▸ Text.not_isBlank_quote hopening
      · intro c hc
        exact Option.some.inj (hend.symm.trans hc) ▸ Text.not_isBlank_quote hclosing
    rw [joined_withoutBefore, Text.trim_blanks_append n.before_blank, hlast, hsplit,
      Text.trim_append_blanks last.after_blank, htrimmed.trim_eq]

end QuotedName

namespace Compiler

variable {limit depth : Nat} {part inner : Fragment}

theorem name_text {n : QuotedName} (h : part.text = n.text) : name part = .ok (.name n.name) := by
  have htrim : part.trim.text = n.quoted.text := by rw [Fragment.trim, h, n.trim_text]
  obtain ⟨quote, -, hhead, -⟩ := n.exists_quote
  have hfull : part.trim.text.isEmpty = false := by
    rw [htrim]
    cases htext : n.quoted.text with
    | nil => simp [htext] at hhead
    | cons => rfl
  have hread : Quoted.decode part.trim = .ok n.name :=
    Quoted.decode_of_spelled (htrim ▸ Quoted.spelled_of_decode n.reads)
  rw [name, hfull, if_neg Bool.false_ne_true, hread]
  rfl

/-- **Quoted names are compiled as these names**, whatever characters they have. -/
theorem segment_quotedNames {names : List QuotedName} (hne : names ≠ [])
    (h : inner.text = QuotedName.joined names) :
    segment limit depth inner = .ok (.mk (names.map fun n => .name n.name)) := by
  obtain ⟨bare, hbare, hnames, htrim, quote, hquote, hhead⟩ :=
    QuotedName.exists_trim_joined hne
  have hbody : inner.trim.text = QuotedName.joined bare := by rw [Fragment.trim, h, htrim]
  rw [← hbody] at hhead
  have hselectors : (names.map fun n => Selector.name n.name) =
      bare.map fun n => Selector.name n.name := by
    have hboth := congrArg (List.map Selector.name) hnames
    simpa [Function.comp_def] using hboth.symm
  -- the commas between the strings are the only ones that the scanner takes for plain
  obtain ⟨first, rest, rfl⟩ := List.exists_cons_of_ne_nil hbare
  obtain ⟨parts, hparts, htexts⟩ := Fragment.splitTop_join (by decide : Ordinary true ',')
    (hbody.trans (first.joined_cons rest)) fun t ht => by
      obtain ⟨n, -, rfl⟩ := List.mem_map.mp ((List.map_cons ..).symm ▸ ht)
      exact n.closed_text
  have hread : parts.mapM name = .ok ((first :: rest).map fun n => .name n.name) :=
    mapM_eq_ok_map (htexts.trans (List.map_cons ..).symm) fun _ _ _ hpart => name_text hpart
  have hplain : plainSegment inner.trim = .ok (.mk (names.map fun n => .name n.name)) := by
    have hstart : inner.trim.text.head? = some '\'' ∨ inner.trim.text.head? = some '"' := by
      rw [hhead]
      rcases hquote with rfl | rfl
      · exact Or.inl rfl
      · exact Or.inr rfl
    simp only [plainSegment, if_pos hstart, hparts, hread, hselectors, bind, Except.bind, pure,
      Except.pure]
  have hother : ∀ c, c ≠ '\'' → c ≠ '"' → inner.trim.text.head? ≠ some c := by
    intro c hsingle hdouble hc
    obtain rfl := Option.some.inj (hhead.symm.trans hc)
    exact hquote.elim hsingle hdouble
  refine segment_eq_ok.mpr (Or.inr (Or.inr ⟨ne_nil_of_head? hhead, fun hstar => ?_,
    hother '?' (by decide) (by decide), hplain⟩))
  exact hother '*' (by decide) (by decide) (by rw [hstar]; rfl)

end Compiler

/-! ## The scanner and the reader -/

namespace Quoted

/-- **The scanner and the reader agree on where a quoted string ends.**  Outside quotes and
escapes, whatever is open around it, the scanner goes over exactly the text that is read as a
string, finds no plain character in it and is in the same state behind it, whatever follows.
Hence strings with commas between them and white space around them are compiled as the names
that they are read as. -/
theorem scan_agrees {q : Fragment} {s : String} (hq : decode q = .ok s)
    {names : List QuotedName} (hne : names ≠ []) :
    (∀ (grouping : Bool) (brackets parens : List Nat) (offset : Nat) (rest : List Char),
      ∃ marks : List Mark, marks.map Mark.char = q.text ∧
        (∀ m ∈ marks, m.plain = false ∧ m.brackets = brackets.length ∧
          m.parens = parens.length) ∧
        (ScanState.within brackets parens).walk grouping offset q.text =
          some (marks, .within brackets parens) ∧
        Scan.run grouping (.within brackets parens) offset (q.text ++ rest) =
          let tail := Scan.run grouping (.within brackets parens)
            (offset + Text.byteSize q.text) rest
          ⟨marks ++ tail.marks, tail.fault⟩) ∧
    ∀ limit depth offset : Nat,
      Compiler.segment limit depth ⟨QuotedName.joined names, offset⟩ =
        .ok (.mk (names.map fun n => .name n.name)) := by
  refine ⟨fun grouping brackets parens offset rest => ?_, fun limit depth offset =>
    Compiler.segment_quotedNames hne rfl⟩
  have hflat : Flat grouping (fun _ => False) q.text := flat_of_spelled (spelled_of_decode hq)
  obtain ⟨marks, hwalk, hmarks⟩ := hflat brackets parens offset
  refine ⟨marks, ScanState.map_char_of_walk hwalk, fun m hm => ?_, hwalk,
    ScanState.run_append hwalk rest⟩
  obtain ⟨hbrackets, hparens, hplain⟩ := hmarks m hm
  exact ⟨Bool.eq_false_iff.mpr hplain, hbrackets, hparens⟩

/-- Brackets, commas, dots and quotes in two names do not cut them apart; the parenthesis behind
the first closes the one before it. -/
theorem scan_agrees_brackets :
    decode ⟨"'],\\'('".toList, 0⟩ = .ok "],'(" ∧
      (∃ marks, (∀ m ∈ marks, m.plain = false) ∧
        Scan.run true (.within [0] [1]) 2 "'],\\'(')".toList =
          ⟨marks ++ [⟨')', 9, true, 1, 0⟩], some ⟨.openBrackets [0], 0⟩⟩) ∧
      Compiler.segment 0 0 ⟨" '],\\'(' ,\"[a.\\u0062\"".toList, 2⟩ =
        .ok (.mk [.name "],'(", .name "[a.b"]) := by
  have hfirst : decode ⟨"'],\\'('".toList, 0⟩ = .ok "],'(" := by decide +kernel
  have hsecond : decode ⟨"\"[a.\\u0062\"".toList, 0⟩ = .ok "[a.b" := by decide +kernel
  have hblank : ∀ c ∈ [' '], Text.isBlank c = true := by
    intro c hc
    rw [List.mem_singleton.mp hc]
    decide
  let first : QuotedName := ⟨[' '], _, [' '], _, hblank, hblank, hfirst⟩
  let second : QuotedName := ⟨[], _, [], _, by simp, by simp, hsecond⟩
  have hagrees := scan_agrees hfirst (List.cons_ne_nil first [second])
  obtain ⟨marks, -, hmarks, -, hrun⟩ := hagrees.1 true [0] [1] 2 [')']
  exact ⟨hfirst, ⟨marks, fun m hm => (hmarks m hm).1, hrun⟩, hagrees.2 0 0 2⟩

end Quoted
end PathQuery
