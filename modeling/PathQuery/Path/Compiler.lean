import PathQuery.Path.Operators
import PathQuery.Path.Quoted
import PathQuery.Text.Digit

/-! # Compiling a path

A path text is compiled from the outside in: it is cut into nodes, a node into a
name and segments, a segment into selectors, and an expression at its loosest
operator.  Every part is a fragment of the whole text, so a fault is reported at
its place there.  An expression at a depth beyond the limit is refused; the depth
grows by one in the filter of a segment and in every pair of parentheses.

Compiling ends because a part has fewer characters than the whole, or as many and
is looked at by a later stage: an expression becomes an operand, an operand a
group or a path, and a path steps.
-/

namespace PathQuery

/-- Limits on nesting: of expressions in compiling, of values in a deep scan. -/
structure Options where
  maxDepth : Nat := 128
deriving DecidableEq, Repr

instance : Inhabited Options := ⟨{}⟩

namespace Compiler

/-! ## Names and constants -/

/-- A bare name without the backslashes that escape its characters. -/
def unescape : List Char → List Char
  | [] => []
  | '\\' :: rest =>
    match rest with
    | [] => []
    | c :: rest => c :: unescape rest
  | c :: rest => c :: unescape rest

/-- What a step with a given bare name goes to; nothing if it has none. -/
def keyTest? (name : List Char) : Option KeyTest :=
  if name.isEmpty then none
  else if name = ['*'] then some .any
  else some (.name (String.ofList (unescape name)))

/-- The number that a constant of digits, in any script, writes. -/
def number (n : Numeral) (f : Fragment) : Except Fault Number :=
  match if n.isAscii then Number.ofNumeral? n else none with
  | some x => .ok x
  | none => .error ⟨.numberRange f.text, f.offset⟩

/-- A constant. -/
def literal (f : Fragment) : Except Fault Literal :=
  if f.text.head? = some '\'' ∨ f.text.head? = some '"' then (Quoted.decode f).map .string
  else if f.text = "true".toList then .ok (.bool true)
  else if f.text = "false".toList then .ok (.bool false)
  else if f.text = "null".toList then .ok .null
  else
    match Numeral.ofText? Text.isDecimalDigit f.text with
    | some n => (number n f).map .number
    | none => .error ⟨.unknownExpression f.text, f.offset⟩

/-! ## Selectors without filters -/

/-- One name of a list of names. -/
def name (part : Fragment) : Except Fault Selector :=
  let trimmed := part.trim
  if trimmed.text.isEmpty then .error ⟨.emptyName, trimmed.offset⟩
  else (Quoted.decode trimmed).map .name

/-- Digits in any script, with or without a minus. -/
def isIndexText (text : List Char) : Bool :=
  let digits := (Numeral.readMinus text).2
  !digits.isEmpty && digits.all Text.isDecimalDigit

/-- One index of a list of indexes. -/
def index (part : Fragment) : Except Fault Selector :=
  match Text.readInt64? part.trim.text with
  | some i => .ok (.index i)
  | none => .error ⟨.badIndex part.trim.text, part.offset⟩

/-- A bound of a slice; a blank one is absent. -/
def bound (which : SliceBound) (part : Fragment) : Except Fault (Option Int64) :=
  let text := part.trim.text
  if text.isEmpty then .ok none
  else
    match Text.readInt64? text with
    | some n => .ok (some n)
    | none => .error ⟨.badBound which text, part.offset⟩

/-- The slice with given bounds. -/
def slice (start stop : Fragment) (step : Option Fragment) : Except Fault Slice := do
  let first ← bound .start start
  let last ← bound .stop stop
  match step with
  | none => return ⟨first, last, none⟩
  | some step =>
    let stride ← bound .step step
    if stride = some 0 then .error ⟨.zeroStep, step.offset⟩ else return ⟨first, last, stride⟩

/-- A segment that is neither a wildcard nor a filter: names if it starts with a
quote, a slice if it has a colon, and otherwise indexes. -/
def plainSegment (body : Fragment) : Except Fault Segment :=
  if body.text.head? = some '\'' ∨ body.text.head? = some '"' then do
    let parts ← body.splitTop ','
    return .mk (← parts.mapM name)
  else do
    match ← body.splitTop ':' with
    | [start, stop] => return .mk [.slice (← slice start stop none)]
    | [start, stop, step] => return .mk [.slice (← slice start stop (some step))]
    | _ :: _ :: _ :: _ :: _ => .error ⟨.longSlice, body.offset⟩
    | _ =>
      let parts ← body.splitTop ','
      if parts.all fun part => isIndexText part.trim.text then
        return .mk (← parts.mapM index)
      else .error ⟨.unknownSelector body.text, body.offset⟩

/-! ## Paths and expressions -/

/-- Where the result of an expression is used. -/
inductive Position
  /-- As a condition. -/
  | boolean
  /-- As an operand of a comparison or of arithmetic. -/
  | value
deriving DecidableEq, Repr

/-- The origin that a path starts with; only a reference may start at the current
value. -/
def originOf? (nested : Bool) (text : List Char) : Option Origin :=
  match text.head? with
  | some '$' => some .root
  | some '@' => if nested then some .current else none
  | _ => none

/-- The fragment starts with one of the markers. -/
def startsReference (f : Fragment) : Bool :=
  f.text.head? == some '$' || f.text.head? == some '@'

theorem length_drop_one {f : Fragment} (h : f.text ≠ []) :
    (f.drop 1).text.length < f.text.length := by
  have := List.length_pos_iff.mpr h
  simp only [Fragment.drop, List.length_drop]
  omega

theorem length_between {f : Fragment} (h : f.text ≠ []) (i : Nat) :
    ((f.take i).drop 1).text.length < f.text.length := by
  have := List.length_pos_iff.mpr h
  simp only [Fragment.drop, Fragment.take, List.length_drop, List.length_take]
  omega

theorem ne_nil_of_head? {text : List Char} {c : Char} (h : text.head? = some c) : text ≠ [] := by
  rintro rfl
  simp at h

/-- The marker at the front of a node, unless dots make it part of a name. -/
def marker? (node : NodeText) : Option Char :=
  if node.deep then none else node.body.text.head?.filter fun c => c == '$' || c == '@'

mutual

/-- Compiles a path; `nested` is true of a reference in a filter. -/
def path (limit depth : Nat) (nested : Bool) (f : Fragment) : Except Fault Path :=
  match originOf? nested f.text with
  | none => .error ⟨if nested then .noOrigin else .noRoot, f.offset⟩
  | some origin =>
    match hs : NodeText.split f with
    | .error fault => .error fault
    | .ok [] => .error ⟨.emptyNode, f.offset⟩
    | .ok (first :: rest) =>
      match hp : NodeParts.split (first.body.drop 1) with
      | .error fault => .error fault
      | .ok parts =>
        if !parts.name.text.isEmpty then
          .error ⟨.namedMarker origin.marker parts.name.text, parts.name.offset⟩
        else do
          let segments ← parts.bodies.attach.mapM fun ⟨body, hb⟩ =>
            have := NodeParts.length_of_split hp hb
            have := first.body.length_drop_le 1
            have := NodeText.length_of_split hs (List.mem_cons_self ..)
            segment limit depth body
          let steps ← rest.attach.mapM fun ⟨node, hn⟩ =>
            have := NodeText.length_of_split hs (List.mem_cons_of_mem _ hn)
            step limit depth node
          return .mk origin segments steps f.toString
termination_by 4 * f.text.length + 1
decreasing_by all_goals omega

/-- Compiles a node behind the first. -/
def step (limit depth : Nat) (node : NodeText) : Except Fault Step :=
  match marker? node with
  | some marker => .error ⟨.lateMarker marker, node.body.offset⟩
  | none =>
    match hp : NodeParts.split node.body with
    | .error fault => .error fault
    | .ok parts =>
      let key := keyTest? parts.name.text
      if !node.deep && key.isNone && parts.bodies.isEmpty then
        .error ⟨.bareNode, node.body.offset⟩
      else do
        let segments ← parts.bodies.attach.mapM fun ⟨body, hb⟩ =>
          have := NodeParts.length_of_split hp hb
          segment limit depth body
        return .mk (if node.deep then .descend key else key.elim .here .child) segments
termination_by 4 * node.body.text.length
decreasing_by all_goals omega

/-- Compiles the text between two brackets. -/
def segment (limit depth : Nat) (inner : Fragment) : Except Fault Segment :=
  let body := inner.trim
  if body.text.isEmpty then .error ⟨.emptySelector, body.offset⟩
  else if body.text = ['*'] then .ok (.mk [.wildcard])
  else if hq : body.text.head? = some '?' then
    have : (inner.trim.drop 1).text.length < inner.text.length :=
      Nat.lt_of_lt_of_le (length_drop_one (ne_nil_of_head? hq)) inner.length_trim_le
    (expression limit (depth + 1) .boolean (body.drop 1)).map fun condition =>
      .mk [.filter condition]
  else plainSegment body
termination_by 4 * inner.text.length + 3
decreasing_by all_goals omega

/-- Compiles an expression. -/
def expression (limit depth : Nat) (position : Position) (f : Fragment) : Except Fault Filter :=
  if limit < depth then .error ⟨.tooDeep limit, f.offset⟩
  else
    let text := f.trim
    have : f.trim.text.length ≤ f.text.length := f.length_trim_le
    if text.text.isEmpty then .error ⟨.emptyExpression, text.offset⟩
    else
      match hf : text.operators with
      | .error fault => .error fault
      | .ok found =>
        match hl : Occurrence.loosest found with
        | [] => operand limit depth position text
        | first :: next :: _ => .error ⟨.ungrouped first.op next.op, next.offset⟩
        | [o] =>
          have hmem : o ∈ found := Occurrence.mem_of_loosest (hl ▸ List.mem_cons_self ..)
          have : (o.left f.trim).text.length < f.text.length :=
            Nat.lt_of_lt_of_le (Occurrence.length_left hf hmem) f.length_trim_le
          have : (o.right f.trim).text.length < f.text.length :=
            Nat.lt_of_lt_of_le (Occurrence.length_right hf hmem) f.length_trim_le
          match o.op with
          | .logical op =>
            if position = .value then .error ⟨.operatorAsValue (.logical op), o.offset⟩
            else do
              let left ← expression limit depth .boolean (o.left text)
              let right ← expression limit depth .boolean (o.right text)
              return .logical op left right
          | .comparison op =>
            if position = .value then .error ⟨.operatorAsValue (.comparison op), o.offset⟩
            else do
              let left ← expression limit depth .value (o.left text)
              let right ← expression limit depth .value (o.right text)
              return .comparison op left right
          | .arithmetic op => do
            let left ← expression limit depth .value (o.left text)
            let right ← expression limit depth .value (o.right text)
            return .arithmetic op left right
termination_by 4 * f.text.length + 3
decreasing_by all_goals omega

/-- Compiles an expression without a binary operator at its top level. -/
def operand (limit depth : Nat) (position : Position) (f : Fragment) : Except Fault Filter :=
  if hn : f.text.head? = some '!' then
    if position = .value then .error ⟨.negationAsValue, f.offset⟩
    else
      let rest := (f.drop 1).trimStart
      have : (f.drop 1).trimStart.text.length < f.text.length :=
        Nat.lt_of_le_of_lt (Text.length_trimStart_le _) (length_drop_one (ne_nil_of_head? hn))
      if hg : rest.text.head? = some '(' then
        (group limit depth .boolean rest (ne_nil_of_head? hg)).map .negation
      else if startsReference rest then
        (path limit depth true rest).map fun p => .existence p true
      else .error ⟨.badNegation, f.offset⟩
  else if hg : f.text.head? = some '(' then
    group limit depth position f (ne_nil_of_head? hg)
  else if startsReference f then
    (path limit depth true f).map fun p =>
      match position with
      | .boolean => .existence p false
      | .value => .reference p
  else (literal f).map .literal
termination_by 4 * f.text.length + 2
decreasing_by all_goals omega

/-- Compiles an expression in parentheses. -/
def group (limit depth : Nat) (position : Position) (f : Fragment) (hne : f.text ≠ []) :
    Except Fault Filter :=
  match f.closingParen with
  | .error fault => .error fault
  | .ok close =>
    let after := f.drop (close + 1)
    if !after.text.isEmpty then .error ⟨.afterGroup (Text.trim after.text), after.offset⟩
    else
      have := length_between hne close
      expression limit (depth + 1) position ((f.take close).drop 1)
termination_by 4 * f.text.length + 1
decreasing_by all_goals omega

end

end Compiler

/-- Compiles a path text. -/
def Path.compile (options : Options) (text : String) : Except SyntaxError Path :=
  (Compiler.path options.maxDepth 0 false ⟨text.toList, 0⟩).mapError fun fault =>
    ⟨fault.cause, fault.position, text⟩

end PathQuery
