import PathQuery.Path.Printer
import PathQuery.Proofs.Path.Faithful

/-! # Texts with fewer parentheses

The canonical text of an expression has parentheses around every binary operation that is an
operand.  They are needed only around an operand whose operator is not tighter than the operator
that it is an operand of, so there are many texts that write one expression, with and without
the others.  `Filter.WrittenAs` relates an expression to all of them; an expression within a
reference has the same choice.  The canonical text is the one with all parentheses
(`Filter.writtenAs_chars`).
-/

namespace PathQuery

/-- How tightly an expression binds: a binary operation as its operator, and every other
expression tighter than any operator. -/
def Filter.tier : Filter → Nat
  | .arithmetic op _ _ => (Operator.arithmetic op).tier
  | .comparison op _ _ => (Operator.comparison op).tier
  | .logical op _ _ => (Operator.logical op).tier
  | _ => 6

theorem Operator.tier_lt (op : Operator) : op.tier < 6 := by
  rcases op with op | op | op <;> cases op <;> decide

/-- The text is one that writes something, bare if that is allowed, or in parentheses. -/
def Enclosed (bare : Prop) (Writes : List Char → Prop) (text : List Char) : Prop :=
  (bare ∧ Writes text) ∨ ∃ inner, Writes inner ∧ text = '(' :: (inner ++ [')'])

/-- The text is two operands with the operator and its spaces between them.  An operand is bare
only if it binds tighter than the operator. -/
def Operator.Joins (op : Operator) (left right : Nat) (WritesLeft WritesRight : List Char → Prop)
    (text : List Char) : Prop :=
  ∃ a b, Enclosed (op.tier < left) WritesLeft a ∧ Enclosed (op.tier < right) WritesRight b ∧
    text = a ++ (op.chars ++ b)

theorem Filter.enclosed_operandChars (op : Operator) (e : Filter) {Writes : List Char → Prop}
    {text : List Char} (h : Writes text) :
    Enclosed (op.tier < e.tier) Writes (e.operandChars text) := by
  unfold operandChars
  split
  · exact Or.inr ⟨text, h, rfl⟩
  · rename_i hbinary
    have hleaf : e.tier = 6 := by cases e <;> simp_all [isBinary, tier]
    exact Or.inl ⟨hleaf ▸ op.tier_lt, h⟩

theorem Operator.joins_chars (op : Operator) (a b : Filter)
    {WritesLeft WritesRight : List Char → Prop} {left right : List Char} (ha : WritesLeft left)
    (hb : WritesRight right) :
    op.Joins a.tier b.tier WritesLeft WritesRight
      (a.operandChars left ++ op.chars ++ b.operandChars right) :=
  ⟨_, _, a.enclosed_operandChars op ha, b.enclosed_operandChars op hb, List.append_assoc ..⟩

section
variable [DoubleText]

mutual

/-- The text writes the path; there is a choice only in its filters. -/
def Path.WrittenAs : Path → List Char → Prop
  | .mk origin segments steps _, text => ∃ front back, Segment.ListWrittenAs segments front ∧
    Step.ListWrittenAs steps back ∧ text = origin.marker :: (front ++ back)

/-- The text writes the steps. -/
def Step.ListWrittenAs : List Step → List Char → Prop
  | [], text => text = []
  | .mk head segments :: rest, text => ∃ inner later, Segment.ListWrittenAs segments inner ∧
    Step.ListWrittenAs rest later ∧ text = head.chars ++ (inner ++ later)

/-- The text writes the segments in their brackets. -/
def Segment.ListWrittenAs : List Segment → List Char → Prop
  | [], text => text = []
  | .mk selectors :: rest, text => ∃ body later, Selector.ListWrittenAs selectors body ∧
    Segment.ListWrittenAs rest later ∧ text = '[' :: (body ++ [']']) ++ later

/-- The text writes the selector; the condition of a filter may stand in parentheses. -/
def Selector.WrittenAs : Selector → List Char → Prop
  | .filter e, text => ∃ condition, Enclosed True (Filter.WrittenAs e) condition ∧
    text = '?' :: condition
  | .wildcard, text => text = ['*']
  | .index i, text => text = Text.integerChars i.toInt
  | .name key, text => text = Quoted.encode key
  | .slice s, text => text = s.chars

/-- The text writes the selectors with commas between them. -/
def Selector.ListWrittenAs : List Selector → List Char → Prop
  | [], text => text = []
  | s :: rest, text => ∃ first later, Selector.WrittenAs s first ∧
    Selector.TailWrittenAs rest later ∧ text = first ++ later

/-- The text writes further selectors, each behind a comma. -/
def Selector.TailWrittenAs : List Selector → List Char → Prop
  | [], text => text = []
  | s :: rest, text => ∃ first later, Selector.WrittenAs s first ∧
    Selector.TailWrittenAs rest later ∧ text = ',' :: (first ++ later)

/-- **The text writes the expression**, with one space on either side of every binary operator,
and with parentheses around any operands that include those that do not bind tighter than their
operator. -/
def Filter.WrittenAs : Filter → List Char → Prop
  | .literal l, text => text = l.chars
  | .reference p, text => Path.WrittenAs p text
  | .existence p inverted, text => ∃ inner, Path.WrittenAs p inner ∧
    text = if inverted then '!' :: inner else inner
  | .negation e, text => ∃ inner, Filter.WrittenAs e inner ∧ text = '!' :: '(' :: (inner ++ [')'])
  | .arithmetic op a b, text =>
    (Operator.arithmetic op).Joins a.tier b.tier (Filter.WrittenAs a) (Filter.WrittenAs b) text
  | .comparison op a b, text =>
    (Operator.comparison op).Joins a.tier b.tier (Filter.WrittenAs a) (Filter.WrittenAs b) text
  | .logical op a b, text =>
    (Operator.logical op).Joins a.tier b.tier (Filter.WrittenAs a) (Filter.WrittenAs b) text

end

/-! ## The canonical text -/

mutual

theorem Path.writtenAs_chars : (p : Path) → p.WrittenAs p.chars
  | .mk _ segments steps _ =>
    ⟨_, _, Segment.listWrittenAs_chars segments, Step.listWrittenAs_chars steps, rfl⟩

theorem Step.listWrittenAs_chars : (steps : List Step) →
    Step.ListWrittenAs steps (Step.listChars steps)
  | [] => rfl
  | .mk _ segments :: rest =>
    ⟨_, _, Segment.listWrittenAs_chars segments, Step.listWrittenAs_chars rest,
      List.append_assoc ..⟩

theorem Segment.listWrittenAs_chars : (segments : List Segment) →
    Segment.ListWrittenAs segments (Segment.listChars segments)
  | [] => rfl
  | .mk selectors :: rest =>
    ⟨_, _, Selector.listWrittenAs_chars selectors, Segment.listWrittenAs_chars rest, rfl⟩

theorem Selector.writtenAs_chars : (s : Selector) → s.WrittenAs s.chars
  | .filter e => ⟨_, Or.inr ⟨_, Filter.writtenAs_chars e, rfl⟩, rfl⟩
  | .wildcard | .index _ | .name _ | .slice _ => rfl

theorem Selector.listWrittenAs_chars : (selectors : List Selector) →
    Selector.ListWrittenAs selectors (Selector.listChars selectors)
  | [] => rfl
  | s :: rest => ⟨_, _, Selector.writtenAs_chars s, Selector.tailWrittenAs_chars rest, rfl⟩

theorem Selector.tailWrittenAs_chars : (selectors : List Selector) →
    Selector.TailWrittenAs selectors (Selector.tailChars selectors)
  | [] => rfl
  | s :: rest => ⟨_, _, Selector.writtenAs_chars s, Selector.tailWrittenAs_chars rest, rfl⟩

/-- **The canonical text writes the expression**, with all parentheses. -/
theorem Filter.writtenAs_chars : (e : Filter) → e.WrittenAs e.chars
  | .literal _ => rfl
  | .reference p => Path.writtenAs_chars p
  | .existence p _ => ⟨_, Path.writtenAs_chars p, rfl⟩
  | .negation e => ⟨_, Filter.writtenAs_chars e, rfl⟩
  | .arithmetic op a b =>
    (Operator.arithmetic op).joins_chars a b (Filter.writtenAs_chars a) (Filter.writtenAs_chars b)
  | .comparison op a b =>
    (Operator.comparison op).joins_chars a b (Filter.writtenAs_chars a) (Filter.writtenAs_chars b)
  | .logical op a b =>
    (Operator.logical op).joins_chars a b (Filter.writtenAs_chars a) (Filter.writtenAs_chars b)

end

end

/-! ## Legible expressions -/

mutual

/-- All bare names of the path keep their characters, and no reference in its filters ends like
an operator. -/
def Path.isLegible : Path → Bool
  | .mk _ segments steps _ => Segment.allLegible segments && Step.allLegible steps

/-- So it is for every step. -/
def Step.allLegible : List Step → Bool
  | [] => true
  | .mk head segments :: rest =>
    (head.isFaithful && Segment.allLegible segments) && Step.allLegible rest

/-- So it is for every segment. -/
def Segment.allLegible : List Segment → Bool
  | [] => true
  | .mk selectors :: rest => Selector.allLegible selectors && Segment.allLegible rest

/-- So it is for every selector; only filters have parts. -/
def Selector.allLegible : List Selector → Bool
  | [] => true
  | .filter e :: rest => Filter.isLegible e && Selector.allLegible rest
  | _ :: rest => Selector.allLegible rest

/-- **No reference ends like an operator**, and all bare names keep their characters. -/
def Filter.isLegible : Filter → Bool
  | .literal _ => true
  | .reference p => !p.endsLikeOperator && Path.isLegible p
  | .existence p _ => Path.isLegible p
  | .negation e => Filter.isLegible e
  | .arithmetic _ a b | .comparison _ a b | .logical _ a b =>
    Filter.isLegible a && Filter.isLegible b

end

theorem Selector.allLegible_cons {s : Selector} {rest : List Selector} :
    Selector.allLegible (s :: rest) = true ↔
      (∀ e, s = .filter e → e.isLegible = true) ∧ Selector.allLegible rest = true := by
  cases s <;> simp [Selector.allLegible]

end PathQuery
