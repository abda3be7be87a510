import PathQuery.Path.Split

/-! # The operators of an expression

The binary operators of an expression are found among its plain characters outside
brackets and parentheses.  Three characters have other uses as well.  A plus or a
minus is an operator only behind an operand, and not where it is the sign of an
exponent; a star is none directly behind a dot or an opening bracket, where it is a
wildcard.

`Occurrence.scan` walks over the marks with three facts about the characters
before: the last one that is no plain white space, the last one of any kind, and
those since the last white space or operator.
-/

namespace PathQuery

/-- An operator found in an expression. -/
structure Occurrence where
  op : Operator
  /-- How many characters stand before it. -/
  index : Nat
  offset : Nat
deriving DecidableEq, Repr

namespace Occurrence

/-- How many characters the operator has. -/
def width (o : Occurrence) : Nat :=
  o.op.symbol.length

/-- A character behind which a sign is not an operator. -/
def isOperatorChar (c : Char) : Bool :=
  "(+-*/%<>=!&|".toList.contains c

/-- The characters of a token, the last one first, are a number up to the letter of
its exponent. -/
def isExponentStart : List Char → Bool
  | [] => false
  | letter :: mantissa =>
    (letter == 'e' || letter == 'E') &&
      match (Numeral.readMinus mantissa.reverse).2 with
      | [] => false
      | first :: rest => first.isDigit && (first :: rest).all fun c => c.isDigit || c == '.'

/-- What stands before a character of an expression. -/
structure Context where
  /-- The last character that is no plain white space. -/
  significant : Option Char
  /-- The last character. -/
  last : Option Char
  /-- The characters since the last plain white space or operator, the last one
  first. -/
  token : List Char
deriving DecidableEq, Repr

namespace Context

/-- Nothing stands before. -/
def initial : Context := ⟨none, none, []⟩

/-- An operand stands before. -/
def followsOperand (context : Context) : Bool :=
  context.significant.any fun c => !isOperatorChar c

/-- The context behind plain white space. -/
def afterBlank (context : Context) (c : Char) : Context :=
  ⟨context.significant, some c, []⟩

/-- The context behind a character that belongs to an operand. -/
def afterChar (context : Context) (c : Char) : Context :=
  ⟨some c, some c, c :: context.token⟩

/-- The context behind an operator. -/
def afterOperator (op : Operator) : Context :=
  ⟨op.symbol.toList.getLast?, op.symbol.toList.getLast?, []⟩

/-- The operator that a top-level character begins, given the character behind it.
Half of an operator of two characters is an error. -/
def operatorAt (context : Context) (c : Char) (next : Option Char) :
    Except SyntaxCause (Option Operator) :=
  if c = '|' then
    if next = some '|' then .ok (some (.logical .or)) else .error (.halfOperator (.logical .or))
  else if c = '&' then
    if next = some '&' then .ok (some (.logical .and)) else .error (.halfOperator (.logical .and))
  else if c = '=' then
    if next = some '=' then .ok (some (.comparison .eq))
    else .error (.halfOperator (.comparison .eq))
  else if c = '!' then
    .ok (if next = some '=' then some (.comparison .ne) else none)
  else if c = '<' then
    .ok (some (.comparison (if next = some '=' then .le else .lt)))
  else if c = '>' then
    .ok (some (.comparison (if next = some '=' then .ge else .gt)))
  else if !context.followsOperand then .ok none
  else if c = '+' then
    .ok (if isExponentStart context.token then none else some (.arithmetic .add))
  else if c = '-' then
    .ok (if isExponentStart context.token then none else some (.arithmetic .subtract))
  else if c = '*' then
    .ok (if context.last = some '.' ∨ context.last = some '[' then none
      else some (.arithmetic .multiply))
  else if c = '/' then .ok (some (.arithmetic .divide))
  else if c = '%' then .ok (some (.arithmetic .modulo))
  else .ok none

end Context

/-- The operators among marks, the first of which has `index` characters before it. -/
def scan (context : Context) (index : Nat) : List Mark → Except Fault (List Occurrence)
  | [] => .ok []
  | m :: rest =>
    if m.plain && Text.isBlank m.char then scan (context.afterBlank m.char) (index + 1) rest
    else if !m.isTop then scan (context.afterChar m.char) (index + 1) rest
    else
      match context.operatorAt m.char (rest.head?.map Mark.char) with
      | .error cause => .error ⟨cause, m.offset⟩
      | .ok none => scan (context.afterChar m.char) (index + 1) rest
      | .ok (some op) =>
        if op.symbol.length = 1 then
          (scan (.afterOperator op) (index + 1) rest).map (⟨op, index, m.offset⟩ :: ·)
        else
          match rest with
          | [] => .ok [⟨op, index, m.offset⟩]
          | _ :: after =>
            (scan (.afterOperator op) (index + 2) after).map (⟨op, index, m.offset⟩ :: ·)

theorem index_of_mem_scan {context : Context} {index : Nat} {marks : List Mark}
    {found : List Occurrence} (h : scan context index marks = .ok found) {o : Occurrence}
    (ho : o ∈ found) : o.index < index + marks.length := by
  fun_induction scan context index marks generalizing found with
  | case1 =>
    simp only [Except.ok.injEq] at h
    simp [← h] at ho
  | case2 context index m rest hblank ih =>
    have := ih h ho
    simp only [List.length_cons]
    omega
  | case3 context index m rest hblank htop ih =>
    have := ih h ho
    simp only [List.length_cons]
    omega
  | case4 => simp at h
  | case5 context index m rest hblank htop hop ih =>
    have := ih h ho
    simp only [List.length_cons]
    omega
  | case6 context index m rest hblank htop op hop hwidth ih =>
    cases hs : scan (.afterOperator op) (index + 1) rest with
    | error e => simp [hs, Except.map] at h
    | ok later =>
      simp only [hs, Except.map, Except.ok.injEq] at h
      rcases List.mem_cons.mp (h ▸ ho) with rfl | hl
      · simp only [List.length_cons]
        omega
      · have := ih hs hl
        simp only [List.length_cons]
        omega
  | case7 context index m hblank htop op hwidth hop =>
    simp only [Except.ok.injEq] at h
    rcases List.mem_cons.mp (h ▸ ho) with rfl | hl
    · simp
    · simp at hl
  | case8 context index m hblank htop op hwidth next after hop ih =>
    cases hs : scan (.afterOperator op) (index + 2) after with
    | error e => simp [hs, Except.map] at h
    | ok later =>
      simp only [hs, Except.map, Except.ok.injEq] at h
      rcases List.mem_cons.mp (h ▸ ho) with rfl | hl
      · simp only [List.length_cons]
        omega
      · have := ih hs hl
        simp only [List.length_cons]
        omega

end Occurrence

/-- The operators of an expression, from left to right. -/
def Fragment.operators (f : Fragment) : Except Fault (List Occurrence) := do
  let scan := f.scan true
  let found ← Occurrence.scan .initial 0 scan.marks
  scan.check
  return found

theorem Fragment.index_of_mem_operators {f : Fragment} {found : List Occurrence}
    (h : f.operators = .ok found) {o : Occurrence} (ho : o ∈ found) :
    o.index < f.text.length := by
  simp only [operators, bind, Except.bind, pure, Except.pure] at h
  split at h
  · simp at h
  · rename_i all hs
    split at h
    · simp at h
    · simp only [Except.ok.injEq] at h
      have := Occurrence.index_of_mem_scan hs (h ▸ ho)
      have := f.length_marks_scan_le true
      omega

namespace Occurrence

/-- The operators of the loosest tier. -/
def loosest (found : List Occurrence) : List Occurrence :=
  match (found.map fun o => o.op.tier).min? with
  | none => []
  | some tier => found.filter fun o => o.op.tier == tier

/-- The operand before the operator. -/
def left (o : Occurrence) (f : Fragment) : Fragment :=
  f.take o.index

/-- The operand behind the operator. -/
def right (o : Occurrence) (f : Fragment) : Fragment :=
  f.drop (o.index + o.width)

theorem mem_of_loosest {found : List Occurrence} {o : Occurrence} (h : o ∈ loosest found) :
    o ∈ found := by
  unfold loosest at h
  split at h
  · simp at h
  · exact (List.mem_filter.mp h).1

theorem width_pos (o : Occurrence) : 0 < o.width := by
  unfold width
  rcases o.op with op | op | op <;> cases op <;> decide

theorem length_left {f : Fragment} {found : List Occurrence} (hf : f.operators = .ok found)
    {o : Occurrence} (ho : o ∈ found) : (o.left f).text.length < f.text.length := by
  have := Fragment.index_of_mem_operators hf ho
  simp only [left, Fragment.take, List.length_take]
  omega

theorem length_right {f : Fragment} {found : List Occurrence} (hf : f.operators = .ok found)
    {o : Occurrence} (ho : o ∈ found) : (o.right f).text.length < f.text.length := by
  have := Fragment.index_of_mem_operators hf ho
  have := o.width_pos
  simp only [right, Fragment.drop, List.length_drop]
  omega

end Occurrence
end PathQuery
