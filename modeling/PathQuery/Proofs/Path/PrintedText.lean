import PathQuery.Proofs.Json.NumberText
import PathQuery.Proofs.Path.BareName
import PathQuery.Proofs.Path.OperatorScan
import PathQuery.Proofs.Path.QuotedText

/-! # The canonical text and the scanner

The text of a path, of a segment and of an expression is closed, whatever the tree
(`Path.closed_chars`, `Filter.closed_chars`), since names, strings and numbers are written
so that the scanner passes over them.
-/

namespace PathQuery

variable {grouping : Bool} {P : Char → Prop} {text : List Char} {c : Char}

/-! ## Closed texts -/

theorem Ordinary.of_true (h : Ordinary true c) : Ordinary grouping c :=
  ⟨h.not_backslash, h.not_single, h.not_double, h.not_opening, h.not_closing,
    fun _ => h.not_paren rfl⟩

/-- A bare name has no plain character of those that are escaped. -/
theorem KeyTest.flat_chars (hP : ∀ c, isSpecial c = false → P c) (hstar : P '*')
    (key : KeyTest) : Flat grouping P key.chars := by
  cases key with
  | name key => exact (writes_nameChars key).flat hP
  | any =>
    have hordinary : Ordinary true '*' := by decide
    exact Flat.char hordinary.of_true hstar

/-- Parentheses around a closed text, whether the scanner counts them or not. -/
theorem Closed.parenthesized (h : Closed grouping (fun _ => True) text) :
    Closed grouping (fun _ => True) ('(' :: (text ++ [')'])) := by
  cases grouping with
  | true => exact h.grouped trivial
  | false =>
    have hopen : Ordinary false '(' := by decide
    have hclose : Ordinary false ')' := by decide
    exact Closed.cons hopen trivial (h.append (Flat.char hclose trivial).closed)

theorem closed_of_ordinary (h : ∀ c ∈ text, Ordinary true c) (hP : ∀ c ∈ text, P c) :
    Closed grouping P text :=
  (Flat.chars fun c hc => ⟨(h c hc).of_true, hP c hc⟩).closed

theorem Number.IsSpelled.ordinary {n : Number} (h : n.IsSpelled text) :
    ∀ c ∈ text, Ordinary true c := by
  obtain ⟨numeral, hspells, hascii, -⟩ := h
  exact hspells.ordinary hascii

theorem ordinary_integerChars (n : Int) : ∀ c ∈ Text.integerChars n, Ordinary true c := by
  have hproper := Number.proper_integerNumeral n
  rw [← Number.chars_integerNumeral]
  exact hproper.spells_chars.ordinary hproper.isAscii

theorem Slice.ordinary_boundChars (bound : Option Int64) :
    ∀ c ∈ Slice.boundChars bound, Ordinary true c := by
  cases bound with
  | none => simp [Slice.boundChars]
  | some n => exact ordinary_integerChars n.toInt

theorem ordinary_colon : Ordinary true ':' := by decide

theorem Slice.ordinary_chars (s : Slice) : ∀ c ∈ s.chars, Ordinary true c := by
  intro c hc
  rw [Slice.chars, List.append_assoc] at hc
  rcases List.mem_append.mp hc with hc | hc
  · exact ordinary_boundChars s.start c hc
  · rcases List.mem_cons.mp hc with rfl | hc
    · exact ordinary_colon
    · rcases List.mem_append.mp hc with hc | hc
      · exact ordinary_boundChars s.stop c hc
      · cases hstep : s.step with
        | none => simp [hstep] at hc
        | some n =>
          rw [hstep] at hc
          rcases List.mem_cons.mp hc with rfl | hc
          · exact ordinary_colon
          · exact ordinary_integerChars n.toInt c hc

theorem ordinary_dot : Ordinary true '.' := by decide

theorem ordinary_bang : Ordinary true '!' := by decide

theorem ordinary_comma : Ordinary true ',' := by decide

theorem Head.closed_chars (head : Head) : Closed grouping (fun _ => True) head.chars := by
  have hkey : ∀ key : KeyTest, Closed grouping (fun _ => True) key.chars :=
    fun key => (key.flat_chars (fun _ _ => trivial) trivial).closed
  have hdot : ∀ text, Closed grouping (fun _ => True) text →
      Closed grouping (fun _ => True) ('.' :: text) :=
    fun _ h => Closed.cons ordinary_dot.of_true trivial h
  cases head with
  | here => exact hdot _ Flat.nil.closed
  | child key => exact hdot _ (hkey key)
  | descend key =>
    cases key with
    | none => exact hdot _ (hdot _ Flat.nil.closed)
    | some key => exact hdot _ (hdot _ (hkey key))

theorem Origin.ordinary_marker (origin : Origin) : Ordinary true origin.marker := by
  cases origin <;> decide

theorem closed_operand (f : Filter) (h : Closed grouping (fun _ => True) text) :
    Closed grouping (fun _ => True) (f.operandChars text) := by
  unfold Filter.operandChars
  split
  · exact h.parenthesized
  · exact h

theorem closed_binary (op : Operator) {a b : List Char} (ha : Closed grouping (fun _ => True) a)
    (hb : Closed grouping (fun _ => True) b) :
    Closed grouping (fun _ => True) (a ++ op.chars ++ b) :=
  (ha.append (closed_of_ordinary (ordinary_operatorChars op) fun _ _ => trivial)).append hb

/-! ## Trees -/

variable [LawfulDoubleText]

theorem Literal.ordinary_word {l : Literal} (h : ∀ s, l ≠ .string s) :
    ∀ c ∈ l.chars, Ordinary true c := by
  have hword : ∀ text : List Char, text.all Char.isAlphanum = true →
      ∀ c ∈ text, Ordinary true c :=
    fun text hletters c hc => (plain_of_isAlphanum (List.all_eq_true.mp hletters c hc)).1
  cases l with
  | null => exact hword "null".toList (by decide)
  | bool b =>
    cases b with
    | false => exact hword "false".toList (by decide)
    | true => exact hword "true".toList (by decide)
  | number n => exact n.isSpelled_chars.ordinary
  | string s => exact absurd rfl (h s)

theorem Literal.closed_chars (l : Literal) : Closed grouping (fun _ => True) l.chars := by
  cases l with
  | string s => exact (Quoted.flat_encode s).closed
  | _ => exact closed_of_ordinary (Literal.ordinary_word (by simp)) fun _ _ => trivial

mutual

theorem Path.closed_chars : (p : Path) → Closed grouping (fun _ => True) p.chars
  | .mk origin segments steps _ =>
    Closed.cons origin.ordinary_marker.of_true trivial
      ((Segment.closed_listChars segments).append (Step.closed_listChars steps))

theorem Step.closed_listChars :
    (steps : List Step) → Closed grouping (fun _ => True) (Step.listChars steps)
  | [] => Flat.nil.closed
  | .mk head segments :: rest =>
    (head.closed_chars.append (Segment.closed_listChars segments)).append
      (Step.closed_listChars rest)

theorem Segment.closed_listChars :
    (segments : List Segment) → Closed grouping (fun _ => True) (Segment.listChars segments)
  | [] => Flat.nil.closed
  | .mk selectors :: rest =>
    ((Selector.closed_listChars selectors).bracketed trivial).append
      (Segment.closed_listChars rest)

theorem Selector.closed_chars : (s : Selector) → Closed grouping (fun _ => True) s.chars
  | .wildcard => (KeyTest.flat_chars (fun _ _ => trivial) trivial .any).closed
  | .index i => closed_of_ordinary (ordinary_integerChars i.toInt) fun _ _ => trivial
  | .name key => (Quoted.flat_encode key).closed
  | .slice s => closed_of_ordinary s.ordinary_chars fun _ _ => trivial
  | .filter f =>
    have hquestion : Ordinary true '?' := by decide
    Closed.cons hquestion.of_true trivial (Filter.closed_chars f).parenthesized

theorem Selector.closed_listChars :
    (selectors : List Selector) → Closed grouping (fun _ => True) (Selector.listChars selectors)
  | [] => Flat.nil.closed
  | s :: rest => (Selector.closed_chars s).append (Selector.closed_tailChars rest)

theorem Selector.closed_tailChars :
    (selectors : List Selector) → Closed grouping (fun _ => True) (Selector.tailChars selectors)
  | [] => Flat.nil.closed
  | s :: rest =>
    Closed.cons ordinary_comma.of_true trivial
      ((Selector.closed_chars s).append (Selector.closed_tailChars rest))

/-- **The text of an expression is closed.** -/
theorem Filter.closed_chars : (f : Filter) → Closed grouping (fun _ => True) f.chars
  | .literal l => l.closed_chars
  | .reference p => Path.closed_chars p
  | .existence p inverted => by
    have hp := Path.closed_chars p
    cases inverted with
    | true => exact Closed.cons ordinary_bang.of_true trivial hp
    | false => exact hp
  | .negation f => Closed.cons ordinary_bang.of_true trivial (Filter.closed_chars f).parenthesized
  | .arithmetic op a b =>
    closed_binary (.arithmetic op) (closed_operand a (Filter.closed_chars a))
      (closed_operand b (Filter.closed_chars b))
  | .comparison op a b =>
    closed_binary (.comparison op) (closed_operand a (Filter.closed_chars a))
      (closed_operand b (Filter.closed_chars b))
  | .logical op a b =>
    closed_binary (.logical op) (closed_operand a (Filter.closed_chars a))
      (closed_operand b (Filter.closed_chars b))

end

end PathQuery
