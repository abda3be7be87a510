import PathQuery.Proofs.Path.Faithful
import PathQuery.Proofs.Path.PrintedText
import PathQuery.Proofs.Path.Splitting

/-! # The pieces of a canonical text

How a canonical text is put together from the pieces that compiling cuts it into, and that
the search for operators passes over its operands.
-/

namespace PathQuery

variable {grouping nested : Bool} {P : Char → Prop} {c : Char}

/-! ## Nodes -/

theorem NodeParts.quiet_bracketed {bodies : List (List Char)}
    (h : ∀ t ∈ bodies, Closed true (fun _ => True) t) : Quiet (bodies.flatMap bracketed) :=
  Quiet.flatMap fun t ht => Quiet.bracketed (h t ht)

/-- Two dots stand before the step. -/
def Head.isDeep : Head → Bool
  | .descend _ => true
  | _ => false

/-- The name of a step, without its dots. -/
def Head.nameChars : Head → List Char
  | .child key | .descend (some key) => key.chars
  | .here | .descend none => []

theorem Head.chars_eq (head : Head) :
    head.chars = '.' :: (if head.isDeep then '.' :: head.nameChars else head.nameChars) := by
  rcases head with _ | key | (_ | key) <;> rfl

/-- What a node of a path says: the head of a step, and the texts between its brackets. -/
structure Node where
  head : Head
  bodies : List (List Char)

/-- The text of a node without its dots. -/
def Node.chars (n : Node) : List Char :=
  n.head.nameChars ++ n.bodies.flatMap NodeParts.bracketed

/-- A node as a piece of a path: whether it is a deep one, and its text. -/
def Node.piece (n : Node) : Bool × List Char :=
  (n.head.isDeep, n.chars)

/-- The texts between the brackets of the node are balanced. -/
def Node.IsClosed (n : Node) : Prop :=
  ∀ t ∈ n.bodies, ∀ grouping, Closed grouping (fun _ => True) t

theorem Node.join_cons (n : Node) (rest : List Node) :
    NodeText.join ((n :: rest).map piece) =
      n.head.chars ++ (n.bodies.flatMap NodeParts.bracketed ++ NodeText.join (rest.map piece)) := by
  rw [List.map_cons, piece, NodeText.join, n.head.chars_eq]
  cases hdeep : n.head.isDeep <;> simp [Node.chars]

theorem Head.flat_nameChars (hP : ∀ c, KeyTest.isSpecial c = false → P c) (hstar : P '*')
    (head : Head) : Flat grouping P head.nameChars := by
  rcases head with _ | key | (_ | key)
  · exact Flat.nil
  · exact key.flat_chars hP hstar
  · exact Flat.nil
  · exact key.flat_chars hP hstar

theorem KeyTest.flat_trimStart (hP : ∀ c, isSpecial c = false → P c) (hstar : P '*')
    (key : KeyTest) : Flat grouping P (Text.trimStart key.chars) := by
  cases key with
  | name key => exact (writes_nameChars key).trimStart.flat hP
  | any => exact KeyTest.any.flat_chars hP hstar

theorem Head.flat_trimStart (hP : ∀ c, KeyTest.isSpecial c = false → P c) (hstar : P '*')
    (head : Head) : Flat grouping P (Text.trimStart head.nameChars) := by
  rcases head with _ | key | (_ | key)
  · exact Flat.nil
  · exact key.flat_trimStart hP hstar
  · exact Flat.nil
  · exact key.flat_trimStart hP hstar

theorem KeyTest.ne_of_not_special {d : Char} (hd : isSpecial d = true)
    (hc : isSpecial c = false) : c ≠ d := by
  rintro rfl
  rw [hc] at hd
  exact Bool.false_ne_true hd

/-- A node has no dot outside its brackets. -/
theorem Node.closed_chars {n : Node} (h : n.IsClosed) : Closed false (· ≠ '.') n.chars := by
  have hname : Flat false (· ≠ '.') n.head.nameChars :=
    n.head.flat_nameChars (fun c => KeyTest.ne_of_not_special rfl) (by decide)
  exact hname.closed.append (Closed.flatMap fun t ht => (h t ht false).bracketed (by decide))

theorem KeyTest.quiet_chars (key : KeyTest) : Quiet ('.' :: key.chars) := by
  have hdot : Quiet ['.'] := Flat.quiet (Flat.char ordinary_dot (by decide))
  cases key with
  | name key =>
    refine hdot.append (Flat.quiet ((writes_nameChars key).flat fun c hc => ?_))
    by_contra hop
    rw [KeyTest.isSpecial_of_isOperatorChar (by simpa using hop)] at hc
    exact Bool.false_ne_true hc.symm
  | any =>
    intro context offset
    have hchars : ∀ c ∈ ['.', '*'], Ordinary true c := by
      simp only [List.mem_cons, List.not_mem_nil, or_false]
      rintro c (rfl | rfl) <;> decide
    refine ⟨_, walk_topMarks hchars offset, Occurrence.Passes.cons ?_ ?_⟩
    · have hdot : Occurrence.isOperatorChar '.' = false := by decide
      exact Occurrence.Passes.of_ignores fun _ => Occurrence.ignores_of_not_operator hdot
    · exact Occurrence.Passes.of_ignores fun _ => Occurrence.ignores_wildcard rfl

theorem Head.quiet_chars (head : Head) : Quiet head.chars := by
  have hdot : Quiet ['.'] := Flat.quiet (Flat.char ordinary_dot (by decide))
  rcases head with _ | key | (_ | key)
  · exact hdot
  · exact key.quiet_chars
  · exact hdot.append hdot
  · exact hdot.append key.quiet_chars

theorem Node.quiet_join {nodes : List Node} (h : ∀ n ∈ nodes, n.IsClosed) :
    Quiet (NodeText.join (nodes.map piece)) := by
  induction nodes with
  | nil => exact Quiet.nil
  | cons n rest ih =>
    rw [List.forall_mem_cons] at h
    rw [Node.join_cons]
    exact n.head.quiet_chars.append
      ((NodeParts.quiet_bracketed fun t ht => h.1 t ht true).append (ih h.2))

/-- **The search for operators finds none in nodes behind a marker.** -/
theorem Node.quiet_marked (origin : Origin) {bodies : List (List Char)} {nodes : List Node}
    (hbodies : ∀ t ∈ bodies, Closed true (fun _ => True) t) (hnodes : ∀ n ∈ nodes, n.IsClosed) :
    Quiet (origin.marker ::
      (bodies.flatMap NodeParts.bracketed ++ NodeText.join (nodes.map piece))) := by
  have hmarker : Quiet [origin.marker] :=
    Flat.quiet (Flat.char origin.ordinary_marker (by cases origin <;> decide))
  exact hmarker.append ((NodeParts.quiet_bracketed hbodies).append (Node.quiet_join hnodes))

/-- A negation sign is not half of an operator. -/
theorem Quiet.negated {text : List Char} (h : Quiet (c :: text)) (hc : c ≠ '=') :
    Quiet ('!' :: c :: text) := by
  intro context offset
  have hbang : ScanState.initial.step true offset '!' = .ok (.initial, true) :=
    ScanState.step_ordinary ordinary_bang
  obtain ⟨marks, hwalk, hpasses⟩ :=
    h (context.next ⟨'!', offset, true, 0, 0⟩) (offset + '!'.utf8Size)
  refine ⟨_, ScanState.walk_cons hbang hwalk, ?_⟩
  obtain ⟨t, plain, tail, -, -, rfl⟩ := ScanState.exists_of_walk_cons hwalk
  refine Occurrence.Passes.cons_of_next ?_ hpasses
  simp [Occurrence.Context.operatorAt, hc]

/-- A marker is no white space, and does not start a negation, a group or an operator. -/
theorem Origin.marker_facts (origin : Origin) : Text.isBlank origin.marker = false ∧
    origin.marker ≠ '!' ∧ origin.marker ≠ '(' ∧ origin.marker ≠ '=' ∧
    (origin.marker = '$' ∨ origin.marker = '@') := by
  cases origin <;> decide

/-! ## Segments and steps -/

section
variable [DoubleText]

/-- The text between the brackets of a segment. -/
def Segment.body : Segment → List Char
  | .mk selectors => Selector.listChars selectors

theorem Segment.listChars_eq (segments : List Segment) :
    Segment.listChars segments = (segments.map Segment.body).flatMap NodeParts.bracketed := by
  induction segments with
  | nil => rfl
  | cons s rest ih =>
    obtain ⟨selectors⟩ := s
    rw [Segment.listChars, ih]
    rfl

theorem Selector.tailChars_eq (selectors : List Selector) :
    Selector.tailChars selectors = (selectors.map Selector.chars).flatMap (',' :: ·) := by
  induction selectors with
  | nil => rfl
  | cons s rest ih =>
    rw [Selector.tailChars, ih]
    rfl

/-- The node of a step in the canonical text. -/
def Step.node : Step → Node
  | .mk head segments => ⟨head, segments.map Segment.body⟩

theorem Step.listChars_eq (steps : List Step) :
    Step.listChars steps = NodeText.join ((steps.map Step.node).map Node.piece) := by
  induction steps with
  | nil => rfl
  | cons s rest ih =>
    obtain ⟨head, segments⟩ := s
    rw [Step.listChars, ih, Step.chars, Segment.listChars_eq, List.map_cons, Node.join_cons,
      List.append_assoc]
    rfl

/-- The text of a path is its marker, the bodies behind it, and its nodes. -/
theorem Path.chars_eq (origin : Origin) (segments : List Segment) (steps : List Step)
    (source : String) : (Path.mk origin segments steps source).chars =
      origin.marker :: ((segments.map Segment.body).flatMap NodeParts.bracketed ++
        NodeText.join ((steps.map Step.node).map Node.piece)) := by
  rw [Path.chars, Segment.listChars_eq, Step.listChars_eq]

theorem Path.chars_eq_cons (p : Path) : ∃ rest, p.chars = p.origin.marker :: rest := by
  obtain ⟨origin, segments, steps, source⟩ := p
  exact ⟨_, rfl⟩

end

/-! ## What is passed over -/

variable [LawfulDoubleText]

theorem Segment.closed_body (s : Segment) : Closed grouping (fun _ => True) s.body :=
  match s with
  | .mk selectors => Selector.closed_listChars selectors

theorem Segment.closed_of_mem_bodies {segments : List Segment} {t : List Char}
    (ht : t ∈ segments.map Segment.body) : Closed grouping (fun _ => True) t := by
  obtain ⟨s, -, rfl⟩ := List.mem_map.mp ht
  exact s.closed_body

theorem Step.isClosed_node (s : Step) : s.node.IsClosed := by
  obtain ⟨head, segments⟩ := s
  exact fun t ht grouping => Segment.closed_of_mem_bodies ht

theorem Step.isClosed_of_mem {steps : List Step} {n : Node} (hn : n ∈ steps.map Step.node) :
    n.IsClosed := by
  obtain ⟨s, -, rfl⟩ := List.mem_map.mp hn
  exact s.isClosed_node

/-- So it finds none in a path. -/
theorem Path.quiet_chars (p : Path) : Quiet p.chars := by
  obtain ⟨origin, segments, steps, source⟩ := p
  rw [Path.chars_eq]
  exact Node.quiet_marked origin (fun t ht => Segment.closed_of_mem_bodies ht)
    fun n hn => Step.isClosed_of_mem hn

/-- A constant has no operator characters outside quotes, but for the signs of a number. -/
theorem Literal.unbroken_chars (l : Literal) : Unbroken l.chars := by
  have hword : ∀ text : List Char, text.all Char.isAlphanum = true → Quiet text := by
    intro text hletters
    refine Flat.quiet (Flat.chars fun c hc => ?_)
    exact plain_of_isAlphanum (List.all_eq_true.mp hletters c hc)
  cases l with
  | null => exact (hword "null".toList (by decide)).unbroken
  | bool b =>
    cases b with
    | false => exact (hword "false".toList (by decide)).unbroken
    | true => exact (hword "true".toList (by decide)).unbroken
  | number n =>
    obtain ⟨numeral, hspells, hascii, -⟩ := n.isSpelled_chars
    exact hspells.unbroken hascii
  | string s => exact (Flat.quiet (Quoted.flat_encode s)).unbroken

/-- **The search for operators finds none in an operand.** -/
theorem Filter.unbroken_operandChars (f : Filter) : Unbroken (f.operandChars f.chars) := by
  have hbinary : ∀ f : Filter, Unbroken ('(' :: (f.chars ++ [')'])) :=
    fun f => (Quiet.grouped f.closed_chars).unbroken
  cases f with
  | literal l => exact l.unbroken_chars
  | reference p => exact p.quiet_chars.unbroken
  | existence p inverted =>
    cases inverted with
    | false => exact p.quiet_chars.unbroken
    | true =>
      have hquiet := p.quiet_chars
      obtain ⟨rest, hp⟩ := p.chars_eq_cons
      rw [hp] at hquiet
      obtain ⟨-, -, -, hequal, -⟩ := p.origin.marker_facts
      change Unbroken ('!' :: p.chars)
      rw [hp]
      exact (hquiet.negated hequal).unbroken
  | negation f => exact ((Quiet.grouped f.closed_chars).negated (by decide)).unbroken
  | arithmetic op a b => exact hbinary _
  | comparison op a b => exact hbinary _
  | logical op a b => exact hbinary _

end PathQuery
