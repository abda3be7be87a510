import PathQuery.Path.Quoted

/-! # The canonical text of a path

A path has one canonical text, which depends on its nodes only.  Bare names are
written with every character escaped that could end the name or be taken for an
operator; quoted names, unions and constants are written without white space, and
binary operators with one space on either side and parentheses around operands
that are binary operations themselves.
-/

namespace PathQuery

/-- A character that is escaped wherever it stands in a bare name. -/
def KeyTest.isSpecial (c : Char) : Bool :=
  "\\.[]'\"()+-*/%<>=!&|".toList.contains c

/-- A character of a bare name behind the first. -/
def KeyTest.tailChars (c : Char) : List Char :=
  if isSpecial c then ['\\', c] else [c]

/-- The first character of a bare name, which must not look like a marker. -/
def KeyTest.firstChars (c : Char) : List Char :=
  if isSpecial c || c == '$' || c == '@' then ['\\', c] else [c]

/-- A bare name. -/
def KeyTest.nameChars (key : String) : List Char :=
  match key.toList with
  | [] => []
  | c :: rest => firstChars c ++ rest.flatMap tailChars

/-- A bare name or the wildcard. -/
def KeyTest.chars : KeyTest → List Char
  | .name key => nameChars key
  | .any => ['*']

/-- The dots of a step and its name. -/
def Head.chars : Head → List Char
  | .here => ['.']
  | .child key => '.' :: key.chars
  | .descend none => ['.', '.']
  | .descend (some key) => '.' :: '.' :: key.chars

/-- A bound of a slice; nothing if it is absent. -/
def Slice.boundChars (bound : Option Int64) : List Char :=
  bound.elim [] fun n => Text.integerChars n.toInt

/-- A slice; the second colon is written only before a step. -/
def Slice.chars (s : Slice) : List Char :=
  boundChars s.start ++ ':' :: boundChars s.stop ++
    s.step.elim [] fun n => ':' :: Text.integerChars n.toInt

variable [DoubleText]

/-- A constant. -/
def Literal.chars : Literal → List Char
  | .null => "null".toList
  | .bool true => "true".toList
  | .bool false => "false".toList
  | .number n => n.chars
  | .string s => Quoted.encode s

/-- An operator between its spaces. -/
def Operator.chars (op : Operator) : List Char :=
  ' ' :: (op.symbol.toList ++ [' '])

/-- An operand, in parentheses if it is a binary operation. -/
def Filter.operandChars (operand : Filter) (text : List Char) : List Char :=
  if operand.isBinary then '(' :: (text ++ [')']) else text

mutual

/-- The canonical text of a path. -/
def Path.chars : Path → List Char
  | .mk origin segments steps _ =>
    origin.marker :: (Segment.listChars segments ++ Step.listChars steps)

/-- A step. -/
def Step.chars : Step → List Char
  | .mk head segments => head.chars ++ Segment.listChars segments

/-- Steps in a row. -/
def Step.listChars : List Step → List Char
  | [] => []
  | s :: rest => Step.chars s ++ Step.listChars rest

/-- A segment in its brackets. -/
def Segment.chars : Segment → List Char
  | .mk selectors => '[' :: (Selector.listChars selectors ++ [']'])

/-- Segments in a row. -/
def Segment.listChars : List Segment → List Char
  | [] => []
  | s :: rest => Segment.chars s ++ Segment.listChars rest

/-- A selector. -/
def Selector.chars : Selector → List Char
  | .wildcard => ['*']
  | .index i => Text.integerChars i.toInt
  | .name key => Quoted.encode key
  | .slice s => s.chars
  | .filter f => '?' :: '(' :: (Filter.chars f ++ [')'])

/-- Selectors with commas between them. -/
def Selector.listChars : List Selector → List Char
  | [] => []
  | s :: rest => Selector.chars s ++ Selector.tailChars rest

/-- Further selectors, each behind a comma. -/
def Selector.tailChars : List Selector → List Char
  | [] => []
  | s :: rest => ',' :: (Selector.chars s ++ Selector.tailChars rest)

/-- An expression. -/
def Filter.chars : Filter → List Char
  | .literal l => l.chars
  | .reference p => Path.chars p
  | .existence p inverted => if inverted then '!' :: Path.chars p else Path.chars p
  | .negation f => '!' :: '(' :: (Filter.chars f ++ [')'])
  | .arithmetic op a b =>
    a.operandChars (Filter.chars a) ++ (Operator.arithmetic op).chars ++
      b.operandChars (Filter.chars b)
  | .comparison op a b =>
    a.operandChars (Filter.chars a) ++ (Operator.comparison op).chars ++
      b.operandChars (Filter.chars b)
  | .logical op a b =>
    a.operandChars (Filter.chars a) ++ (Operator.logical op).chars ++
      b.operandChars (Filter.chars b)

end

/-- The canonical text of a path as a string. -/
def Path.canonical (p : Path) : String :=
  String.ofList p.chars

/-- The canonical text of an expression as a string. -/
def Filter.text (f : Filter) : String :=
  String.ofList f.chars

/-- The text of a constant as a string. -/
def Literal.text (l : Literal) : String :=
  String.ofList l.chars

end PathQuery
