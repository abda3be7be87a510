import PathQuery.Path.Basic
import PathQuery.Text.Fragment

/-! # Why a path does not compile

A fault is a cause and the byte offset where it was found.  A syntax error adds
the whole text of the path; it is worded by `SyntaxError.text`.
-/

namespace PathQuery

/-- The bound of a slice that an error is about. -/
inductive SliceBound
  | start
  | stop
  | step
deriving DecidableEq, Repr

/-- The word for a bound. -/
def SliceBound.label : SliceBound → String
  | .start => "start"
  | .stop => "end"
  | .step => "step"

/-- What is wrong with a path. -/
inductive SyntaxCause
  /-- A closing bracket or parenthesis that closes nothing. -/
  | unbalanced (closer : Char)
  /-- A quote that is never closed. -/
  | openQuote
  /-- A backslash with nothing behind it. -/
  | danglingEscape
  /-- Brackets that are never closed, at these offsets. -/
  | openBrackets (offsets : List Nat)
  /-- A parenthesis that is never closed. -/
  | openParen
  /-- Nothing between two dots. -/
  | emptyNode
  /-- A character between two segments. -/
  | betweenSegments (c : Char)
  /-- A quoted string was expected. -/
  | notQuoted
  /-- Text behind the closing quote of a string. -/
  | afterQuoted (rest : List Char)
  /-- An escape in a string that ends too early. -/
  | openEscape
  /-- A unicode escape without its four digits. -/
  | unicodeEscape
  /-- A high surrogate without a low one. -/
  | surrogatePair
  /-- A unicode escape for no character. -/
  | codePoint
  /-- A backslash before a letter that has no meaning. -/
  | unknownEscape (c : Char)
  /-- A control character in a string. -/
  | controlCharacter (c : Char)
  /-- A string that is never closed. -/
  | openString
  /-- A path that does not start with `$`. -/
  | noRoot
  /-- A reference that starts with neither marker. -/
  | noOrigin
  /-- A marker after the start of a path. -/
  | lateMarker (marker : Char)
  /-- A marker with a name behind it. -/
  | namedMarker (marker : Char) (name : List Char)
  /-- A node with neither name nor segments. -/
  | bareNode
  /-- A bracketed clause with nothing in it. -/
  | emptySelector
  /-- A bracketed clause of no known kind. -/
  | unknownSelector (body : List Char)
  /-- Nothing between two commas of a list of names. -/
  | emptyName
  /-- An index beyond 64 bits. -/
  | badIndex (text : List Char)
  /-- More than three parts between colons. -/
  | longSlice
  /-- A bound that is no integer of 64 bits. -/
  | badBound (bound : SliceBound) (text : List Char)
  /-- The step of a slice is zero. -/
  | zeroStep
  /-- Expressions nested beyond the limit. -/
  | tooDeep (limit : Nat)
  /-- An expression with nothing in it. -/
  | emptyExpression
  /-- Two operators of the loosest tier without parentheses. -/
  | ungrouped (first second : Operator)
  /-- A comparison or a logical operator where a value is needed. -/
  | operatorAsValue (op : Operator)
  /-- A negation where a value is needed. -/
  | negationAsValue
  /-- A negation of something other than a reference or a group. -/
  | badNegation
  /-- Text behind the closing parenthesis of a group. -/
  | afterGroup (rest : List Char)
  /-- An operand of no known kind. -/
  | unknownExpression (text : List Char)
  /-- A number that is no integer of 64 bits and no finite double. -/
  | numberRange (text : List Char)
  /-- Half of an operator of two characters. -/
  | halfOperator (op : Operator)
deriving DecidableEq

namespace SyntaxCause

/-- The four upper-case hexadecimal digits of a control character. -/
def codeText (c : Char) : String :=
  let digits := (Nat.toDigits 16 c.toNat).map Char.toUpper
  String.ofList (List.replicate (4 - digits.length) '0' ++ digits)

/-- Text in back quotes. -/
def cited (text : List Char) : String :=
  "`" ++ String.ofList text ++ "`"

/-- The kind of an operator, as errors name it. -/
def operatorKind : Operator → String
  | .logical _ => "logical"
  | .comparison _ => "comparison"
  | .arithmetic _ => "arithmetic"

/-- What an error says. -/
def message : SyntaxCause → String
  | .unbalanced closer => "unbalanced '" ++ closer.toString ++ "'"
  | .openQuote => "unterminated quote"
  | .danglingEscape => "dangling escape"
  | .openBrackets offsets =>
    "unterminated bracket at " ++ (if offsets.length = 1 then "index " else "indexes ") ++
      String.intercalate ", " (offsets.map fun n => String.ofList (Nat.toDigits 10 n))
  | .openParen => "unclosed '('"
  | .emptyNode => "empty node"
  | .betweenSegments c => "unexpected '" ++ c.toString ++ "' between segments"
  | .notQuoted => "expected a quoted string"
  | .afterQuoted rest => "unexpected text after quoted string: " ++ cited rest
  | .openEscape => "unterminated escape sequence"
  | .unicodeEscape => "invalid unicode escape"
  | .surrogatePair => "invalid surrogate pair"
  | .codePoint => "invalid unicode code point"
  | .unknownEscape c => "invalid escape sequence: \\" ++ c.toString
  | .controlCharacter c => "unescaped control character U+" ++ codeText c
  | .openString => "unterminated string"
  | .noRoot => "a path must start with '$'"
  | .noOrigin => "a node reference must start with '@' or '$'"
  | .lateMarker marker => "'" ++ marker.toString ++ "' may only start a path"
  | .namedMarker marker name =>
    "the node with type '" ++ marker.toString ++ "' cannot have an explicit name: " ++ cited name
  | .bareNode => "expected a name or a bracket segment"
  | .emptySelector => "empty selector"
  | .unknownSelector body => "unsupported selector: " ++ cited body
  | .emptyName => "empty name in name list"
  | .badIndex text => "invalid index: " ++ cited text
  | .longSlice => "array slicing selector takes at most 3 parts (start:end:step)"
  | .badBound bound text =>
    "invalid array slicing's " ++ bound.label ++ " value: " ++ cited text
  | .zeroStep => "array slicing's step cannot be zero"
  | .tooDeep limit =>
    "expression nesting exceeds maximum depth of " ++ String.ofList (Nat.toDigits 10 limit)
  | .emptyExpression => "empty expression"
  | .ungrouped first second =>
    "operators '" ++ first.symbol ++ "' and '" ++ second.symbol ++
      "' must be grouped with parentheses"
  | .operatorAsValue op =>
    operatorKind op ++ " '" ++ op.symbol ++ "' cannot be used as a value"
  | .negationAsValue => "negation cannot be used as a value"
  | .badNegation => "'!' must be followed by a node reference or a parenthesized expression"
  | .afterGroup rest => "unexpected text after ')': " ++ cited rest
  | .unknownExpression text => "unsupported expression: " ++ cited text
  | .numberRange text => "number out of range: " ++ cited text
  | .halfOperator op => "expected '" ++ op.symbol ++ "'"

end SyntaxCause

/-- A cause and the byte offset where it was found. -/
structure Fault where
  cause : SyntaxCause
  position : Nat
deriving DecidableEq

/-- A path text that does not compile. -/
structure SyntaxError where
  cause : SyntaxCause
  position : Nat
  source : String
deriving DecidableEq

namespace SyntaxError

/-- What is wrong, without the place. -/
def message (e : SyntaxError) : String :=
  e.cause.message

/-- What is wrong and where. -/
def text (e : SyntaxError) : String :=
  "at position " ++ String.ofList (Nat.toDigits 10 e.position) ++ ", " ++ e.message ++ " in " ++
    SyntaxCause.cited e.source.toList

end SyntaxError
end PathQuery
