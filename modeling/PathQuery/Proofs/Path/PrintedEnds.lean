import PathQuery.Proofs.Path.PrintedPieces
import PathQuery.Proofs.Path.WellFormed

/-! # The ends of a canonical text

The texts of well-formed paths and expressions neither start nor end with white space, so
trimming leaves them as they are, and they end like an operator exactly if the tree says
so (`Filter.endsWith_operandChars`).
-/

namespace PathQuery

/-! ## Ends -/

/-- The text ends in a character that is no white space, and is one of an operator's or
not. -/
def EndsWith (operator : Bool) (text : List Char) : Prop :=
  ∃ c, text.getLast? = some c ∧ Text.isBlank c = false ∧
    Occurrence.isOperatorChar c = operator

/-- The text starts with a character that is no white space. -/
def StartsSolid (text : List Char) : Prop :=
  ∃ c, text.head? = some c ∧ Text.isBlank c = false

variable {operator : Bool} {text a b : List Char}

theorem EndsWith.append (h : EndsWith operator b) (a : List Char) : EndsWith operator (a ++ b) := by
  obtain ⟨c, hlast, hc⟩ := h
  exact ⟨c, by simp [List.getLast?_append, hlast], hc⟩

theorem EndsWith.cons (h : EndsWith operator text) (c : Char) : EndsWith operator (c :: text) :=
  h.append [c]

theorem endsWith_closing (text : List Char) : EndsWith false (text ++ [']']) :=
  EndsWith.append ⟨']', rfl, by decide, by decide⟩ text

theorem endsWith_closeParen (text : List Char) : EndsWith false (text ++ [')']) :=
  EndsWith.append ⟨')', rfl, by decide, by decide⟩ text

theorem StartsSolid.append (h : StartsSolid a) (b : List Char) : StartsSolid (a ++ b) := by
  obtain ⟨c, hhead, hc⟩ := h
  exact ⟨c, by simp [List.head?_append, hhead], hc⟩

theorem EndsWith.ne_nil (h : EndsWith operator text) : text ≠ [] := by
  rintro rfl
  obtain ⟨c, hlast, -⟩ := h
  simp at hlast

theorem StartsSolid.ne_nil (h : StartsSolid text) : text ≠ [] := by
  rintro rfl
  obtain ⟨c, hhead, -⟩ := h
  simp at hhead

/-- A text with such ends is trimmed. -/
theorem StartsSolid.trimmed (h : StartsSolid text) (hend : EndsWith operator text) :
    Text.Trimmed text := by
  obtain ⟨c, hhead, hc⟩ := h
  obtain ⟨d, hlast, hd, -⟩ := hend
  refine ⟨fun e he => ?_, fun e he => ?_⟩
  · rw [hhead] at he
    exact Option.some.inj he ▸ hc
  · rw [hlast] at he
    exact Option.some.inj he ▸ hd

/-! ## Names and steps -/

/-- A text that writes a name ends with the last character of the name. -/
theorem KeyTest.Writes.getLast?_eq {text name : List Char} (h : KeyTest.Writes text name) :
    text.getLast? = name.getLast? := by
  induction h with
  | nil => rfl
  | plain special rest ih => rw [List.getLast?_cons, List.getLast?_cons, ih]
  | escaped blank rest ih =>
    rw [List.getLast?_cons, List.getLast?_cons, List.getLast?_cons, ih]
    rfl

theorem KeyTest.endsWith_chars {key : KeyTest} (h : key.Closes) :
    EndsWith key.endsLikeOperator key.chars := by
  cases key with
  | any => exact ⟨'*', rfl, by decide, by decide⟩
  | name key =>
    obtain ⟨c, hlast, hc⟩ := h
    refine ⟨c, (writes_nameChars key).getLast?_eq.trans hlast, hc, ?_⟩
    simp [endsLikeOperator, hlast]

theorem Head.endsWith_chars {head : Head} (h : head.Closes) :
    EndsWith head.endsLikeOperator head.chars := by
  rcases head with _ | key | (_ | key)
  · exact absurd h id
  · exact (KeyTest.endsWith_chars h).cons '.'
  · exact ⟨'.', rfl, by decide, by decide⟩
  · exact ((KeyTest.endsWith_chars h).cons '.').cons '.'

/-- Bodies in brackets end with the last bracket. -/
theorem NodeParts.endsWith_bracketed {bodies : List (List Char)} (h : bodies ≠ []) :
    EndsWith false (bodies.flatMap bracketed) := by
  obtain ⟨front, body, rfl⟩ := (List.eq_nil_or_concat bodies).resolve_left h
  rw [List.concat_eq_append, List.flatMap_append, List.flatMap_singleton]
  exact ((endsWith_closing body).cons '[').append _

/-- The node says something besides its dots, unless there are two. -/
def Node.SaysSomething (n : Node) : Prop :=
  n.bodies = [] → n.head.Closes

/-- Nothing follows the name of the node, and it ends like an operator. -/
def Node.endsLikeOperator (n : Node) : Bool :=
  n.bodies.isEmpty && n.head.endsLikeOperator

theorem Node.endsWith_text {n : Node} (h : n.SaysSomething) :
    EndsWith n.endsLikeOperator (n.head.chars ++ n.bodies.flatMap NodeParts.bracketed) := by
  obtain ⟨head, bodies⟩ := n
  by_cases hnil : bodies = []
  · subst hnil
    have hhead := Head.endsWith_chars (h rfl)
    simpa [endsLikeOperator] using hhead
  · have hplain : (Node.mk head bodies).endsLikeOperator = false := by
      simp [endsLikeOperator, hnil]
    rw [hplain]
    exact (NodeParts.endsWith_bracketed hnil).append head.chars

theorem Node.endsWith_join {nodes : List Node} (h : ∀ n ∈ nodes, n.SaysSomething)
    (hne : nodes ≠ []) :
    EndsWith (nodes.getLast?.any endsLikeOperator) (NodeText.join (nodes.map piece)) := by
  induction nodes with
  | nil => exact absurd rfl hne
  | cons n rest ih =>
    rw [List.forall_mem_cons] at h
    rw [Node.join_cons, ← List.append_assoc]
    by_cases hrest : rest = []
    · subst hrest
      simpa [NodeText.join] using n.endsWith_text h.1
    · obtain ⟨front, last, rfl⟩ := (List.eq_nil_or_concat rest).resolve_left hrest
      have hlast : (n :: front.concat last).getLast? = (front.concat last).getLast? := by
        simp [List.getLast?_cons]
      rw [hlast]
      exact (ih h.2 hrest).append _

/-- **Nodes behind a marker end like an operator exactly if the last of them does.** -/
theorem Node.endsWith_marked (origin : Origin) (bodies : List (List Char)) {nodes : List Node}
    (h : ∀ n ∈ nodes, n.SaysSomething) : EndsWith (nodes.getLast?.any endsLikeOperator)
      (origin.marker ::
        (bodies.flatMap NodeParts.bracketed ++ NodeText.join (nodes.map piece))) := by
  by_cases hnone : nodes = []
  · subst hnone
    by_cases hbare : bodies = []
    · subst hbare
      cases origin with
      | root => exact ⟨'$', rfl, by decide, rfl⟩
      | current => exact ⟨'@', rfl, by decide, rfl⟩
    · simpa [NodeText.join] using (NodeParts.endsWith_bracketed hbare).cons origin.marker
  · exact ((Node.endsWith_join h hnone).append _).cons origin.marker

variable [LawfulDoubleText]

theorem Step.WellFormed.saysSomething {s : Step} (h : s.WellFormed) : s.node.SaysSomething := by
  obtain ⟨head, segments⟩ := s
  exact fun hnil => h.1 (List.map_eq_nil_iff.mp hnil)

/-- **A path ends like an operator exactly if its last step does.** -/
theorem Path.endsWith_chars {nested : Bool} {p : Path} (h : p.WellFormed nested) :
    EndsWith p.endsLikeOperator p.chars := by
  obtain ⟨origin, segments, steps, source⟩ := p
  obtain ⟨-, -, hsteps⟩ := h
  have hsays : ∀ n ∈ steps.map Step.node, n.SaysSomething := by
    intro n hn
    obtain ⟨s, hs, rfl⟩ := List.mem_map.mp hn
    exact (Step.wellFormed_of_mem hsteps hs).saysSomething
  have hsame : (fun s : Step => s.node.endsLikeOperator) = Step.endsLikeOperator := by
    funext s
    obtain ⟨head, segments⟩ := s
    simp [Node.endsLikeOperator, Step.node, Step.endsLikeOperator]
  have hend := Node.endsWith_marked origin (segments.map Segment.body) hsays
  rw [List.getLast?_map, Option.any_map, hsame] at hend
  rw [Path.chars_eq]
  exact hend

/-! ## Operands -/

theorem Literal.endsWith_chars (l : Literal) : EndsWith false l.chars := by
  cases l with
  | null => exact ⟨'l', rfl, by decide, by decide⟩
  | bool b => cases b <;> exact ⟨'e', rfl, by decide, by decide⟩
  | number n =>
    obtain ⟨numeral, hspells, hascii, -⟩ := n.isSpelled_chars
    obtain ⟨c, hlast, hc⟩ := hspells.last hascii
    exact ⟨c, hlast, isBlank_of_isDigit hc, isOperatorChar_of_isDigit hc⟩
  | string s =>
    have hquote : EndsWith false ['\''] := ⟨'\'', rfl, by decide, by decide⟩
    exact (hquote.append _).cons '\''

/-- A constant does not start with white space, nor like a negation, a group or a path. -/
theorem Literal.head_chars (l : Literal) : ∃ c, l.chars.head? = some c ∧
    Text.isBlank c = false ∧ c ≠ '!' ∧ c ≠ '(' ∧ c ≠ '$' ∧ c ≠ '@' := by
  cases l with
  | null => exact ⟨'n', rfl, by decide⟩
  | bool b => cases b <;> exact ⟨_, rfl, by decide⟩
  | number n =>
    obtain ⟨numeral, hspells, hascii, -⟩ := n.isSpelled_chars
    obtain ⟨c, hhead, rfl | hc⟩ := hspells.head hascii
    · exact ⟨'-', hhead, by decide⟩
    · refine ⟨c, hhead, isBlank_of_isDigit hc, ?_, ?_, ?_, ?_⟩ <;> rintro rfl <;> simp at hc
  | string s => exact ⟨'\'', rfl, by decide⟩

theorem Literal.startsSolid (l : Literal) : StartsSolid l.chars := by
  obtain ⟨c, hhead, hc, -⟩ := l.head_chars
  exact ⟨c, hhead, hc⟩

theorem Path.startsSolid (p : Path) : StartsSolid p.chars := by
  obtain ⟨rest, hp⟩ := p.chars_eq_cons
  exact ⟨p.origin.marker, by rw [hp]; rfl, by cases p.origin <;> decide⟩

variable {position : Compiler.Position}

/-- **An operand ends like an operator exactly if it is a path that does.** -/
theorem Filter.endsWith_operandChars {f : Filter} (h : f.WellFormed position) :
    EndsWith f.endsLikeOperator (f.operandChars f.chars) := by
  have hgroup : ∀ text : List Char, EndsWith false ('(' :: (text ++ [')'])) :=
    fun text => (endsWith_closeParen text).cons '('
  cases f with
  | literal l => exact l.endsWith_chars
  | reference p => exact Path.endsWith_chars h.2
  | existence p inverted =>
    have hp := Path.endsWith_chars h.2
    cases inverted with
    | false => exact hp
    | true => exact hp.cons '!'
  | negation f => exact (hgroup f.chars).cons '!'
  | arithmetic op a b => exact hgroup _
  | comparison op a b => exact hgroup _
  | logical op a b => exact hgroup _

theorem Filter.startsSolid_operandChars (f : Filter) :
    StartsSolid (f.operandChars f.chars) := by
  cases f with
  | literal l => exact l.startsSolid
  | reference p => exact p.startsSolid
  | existence p inverted =>
    cases inverted with
    | false => exact p.startsSolid
    | true => exact ⟨'!', rfl, by decide⟩
  | negation f => exact ⟨'!', rfl, by decide⟩
  | arithmetic op a b => exact ⟨'(', rfl, by decide⟩
  | comparison op a b => exact ⟨'(', rfl, by decide⟩
  | logical op a b => exact ⟨'(', rfl, by decide⟩

theorem Filter.trimmed_operandChars {f : Filter} (h : f.WellFormed position) :
    Text.Trimmed (f.operandChars f.chars) :=
  f.startsSolid_operandChars.trimmed (Filter.endsWith_operandChars h)

end PathQuery
