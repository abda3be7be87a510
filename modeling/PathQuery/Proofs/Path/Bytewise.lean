import PathQuery.Proofs.Path.Inversion
import PathQuery.Proofs.Path.SlicedOperators
import PathQuery.Proofs.Path.SlicedPieces

/-! # The compiler on byte offsets

The compiler again, stage by stage, for a text in UTF-8.  Where the other one hands on
characters, each stage here takes a slice by byte offsets, and it is stuck where one of these
is out of range or within a character.  A stage also is stuck if what it is given is not the
slice of the whole text at the offset that comes with it, so a run that is not stuck has
shown that the offsets are right at every stage.
-/

namespace PathQuery

/-! ## The stages of the compiler, each as the sequence of what it asks for -/

namespace Compiler

variable {limit depth : Nat} {nested : Bool} {f : Fragment} {position : Position}

theorem path_eq : path limit depth nested f =
    match originOf? nested f.text with
    | none => .error ⟨if nested then .noOrigin else .noRoot, f.offset⟩
    | some origin => do
      let nodes ← NodeText.split f
      match nodes with
      | [] => .error ⟨.emptyNode, f.offset⟩
      | first :: rest => do
        let parts ← NodeParts.split (first.body.drop 1)
        if !parts.name.text.isEmpty then
          .error ⟨.namedMarker origin.marker parts.name.text, parts.name.offset⟩
        else do
          let segments ← parts.bodies.mapM (segment limit depth)
          let steps ← rest.mapM (step limit depth)
          return .mk origin segments steps f.toString := by
  rw [path]
  cases originOf? nested f.text with
  | none => rfl
  | some origin =>
    dsimp only
    split
    · rename_i hs
      simp only [hs]
      rfl
    · rename_i hs
      simp only [hs]
      rfl
    · rename_i first rest hs
      simp only [hs]
      split
      · rename_i hp
        simp only [bind, Except.bind, hp]
      · rename_i parts hp
        simp only [bind, Except.bind, hp]
        split
        · rfl
        · simp

theorem step_eq {node : NodeText} : step limit depth node =
    match marker? node with
    | some marker => .error ⟨.lateMarker marker, node.body.offset⟩
    | none => do
      let parts ← NodeParts.split node.body
      let key := keyTest? parts.name.text
      if !node.deep && key.isNone && parts.bodies.isEmpty then
        .error ⟨.bareNode, node.body.offset⟩
      else do
        let segments ← parts.bodies.mapM (segment limit depth)
        return .mk (if node.deep then .descend key else key.elim .here .child) segments := by
  rw [step]
  cases marker? node with
  | some marker => rfl
  | none =>
    dsimp only
    split
    · rename_i hp
      simp only [hp]
      rfl
    · rename_i parts hp
      simp only [bind, Except.bind, hp]
      split
      · rfl
      · simp

/-- The operator gives a truth value and stands where a value is needed. -/
def refuses : Position → Operator → Bool
  | .value, .logical _ | .value, .comparison _ => true
  | _, _ => false

theorem expression_eq : expression limit depth position f =
    if limit < depth then .error ⟨.tooDeep limit, f.offset⟩
    else if f.trim.text.isEmpty then .error ⟨.emptyExpression, f.trim.offset⟩
    else do
      let found ← f.trim.operators
      match Occurrence.loosest found with
      | [] => operand limit depth position f.trim
      | first :: next :: _ => .error ⟨.ungrouped first.op next.op, next.offset⟩
      | [o] =>
        if refuses position o.op then .error ⟨.operatorAsValue o.op, o.offset⟩
        else do
          let left ← expression limit depth (operandPosition o.op) (o.left f.trim)
          let right ← expression limit depth (operandPosition o.op) (o.right f.trim)
          return binary o.op left right := by
  rw [expression]
  split
  · rfl
  · simp only
    split
    · rfl
    · split
      · rename_i hf
        simp only [bind, Except.bind, hf]
      · rename_i found hf
        simp only [bind, Except.bind, hf]
        split
        · rename_i hl
          rw [hl]
        · rename_i hl
          rw [hl]
        · rename_i o hl
          rw [hl]
          simp only
          split
          · rename_i op hop
            cases position <;> simp [hop, refuses, operandPosition, binary]
          · rename_i op hop
            cases position <;> simp [hop, refuses, operandPosition, binary]
          · rename_i op hop
            cases position <;> simp [hop, refuses, operandPosition, binary]

theorem group_eq {hne : f.text ≠ []} : group limit depth position f hne = (do
    let pieces ← f.closingParen.map fun close => ((f.take close).drop 1, f.drop (close + 1))
    if !pieces.2.text.isEmpty then
      .error ⟨.afterGroup (Text.trim pieces.2.text), pieces.2.offset⟩
    else expression limit (depth + 1) position pieces.1) := by
  rw [group]
  split
  · rename_i hclose
    simp only [hclose]
    rfl
  · rename_i close hclose
    simp only [hclose]
    rfl

end Compiler

/-! ## The compiler on byte offsets -/

namespace Bytewise
open Compiler Slicing

variable (source : List Char)

/-- A constant. -/
def literal (f : Fragment) : Slicing Literal := do
  receive source f
  if f.text.head? = some '\'' ∨ f.text.head? = some '"' then .string <$> Quoted.decodeBytes f
  else ofOutcome (Compiler.literal f)

/-- One name of a list of names. -/
def name (part : Fragment) : Slicing Selector := do
  let trimmed := part.trim
  if trimmed.text.isEmpty then throw ⟨.emptyName, trimmed.offset⟩
  else do
    receive source trimmed
    .name <$> Quoted.decodeBytes trimmed

/-- A list of indexes, if the fragment is one. -/
def indexList (body : Fragment) : Slicing Segment := do
  let parts ← body.splitTopBytes ','
  if parts.all fun part => isIndexText part.trim.text then do
    let indexes ← parts.mapM fun part => ofOutcome (index part)
    return .mk indexes
  else throw ⟨.unknownSelector body.text, body.offset⟩

/-- A segment that is neither a wildcard nor a filter. -/
def plainSegment (body : Fragment) : Slicing Segment := do
  receive source body
  if body.text.head? = some '\'' ∨ body.text.head? = some '"' then do
    let parts ← body.splitTopBytes ','
    let names ← parts.mapM (name source)
    return .mk names
  else do
    let parts ← body.splitTopBytes ':'
    match parts with
    | [start, stop] =>
      let bounds ← ofOutcome (slice start stop none)
      return .mk [.slice bounds]
    | [start, stop, step] =>
      let bounds ← ofOutcome (slice start stop (some step))
      return .mk [.slice bounds]
    | _ :: _ :: _ :: _ :: _ => throw ⟨.longSlice, body.offset⟩
    | _ => indexList body

theorem length_of_nodes {f : Fragment} {nodes : List NodeText}
    (h : NodeText.splitBytes f = ofOutcome (.ok nodes)) {node : NodeText} (hn : node ∈ nodes) :
    node.body.text.length ≤ f.text.length := by
  obtain ⟨source, hf⟩ := f.exists_within
  exact NodeText.length_of_split ((NodeText.splitBytes_safe hf).plain_eq h) hn

theorem length_of_bodies {f : Fragment} {parts : NodeParts}
    (h : NodeParts.splitBytes f = ofOutcome (.ok parts)) {b : Fragment} (hb : b ∈ parts.bodies) :
    b.text.length < f.text.length := by
  obtain ⟨source, hf⟩ := f.exists_within
  exact NodeParts.length_of_split ((NodeParts.splitBytes_safe hf).plain_eq h) hb

theorem length_of_operands {f : Fragment} {found : List Occurrence}
    (h : f.operatorsBytes = ofOutcome (.ok found)) {o : Occurrence} (ho : o ∈ found)
    {left right : Fragment} (hleft : f.slice? f.offset o.offset = some left)
    (hright : f.slice? (o.offset + o.width) f.stop = some right) :
    left.text.length < f.text.length ∧ right.text.length < f.text.length := by
  obtain ⟨source, hf⟩ := f.exists_within
  have hsafe := Fragment.operatorsBytes_safe hf
  have hplace := hsafe.good found (hsafe.plain_eq h) o ho
  rw [hplace.slice?_left] at hleft
  rw [hplace.slice?_right] at hright
  rw [← Option.some.inj hleft, ← Option.some.inj hright]
  exact ⟨Occurrence.length_left (hsafe.plain_eq h) ho,
    Occurrence.length_right (hsafe.plain_eq h) ho⟩

theorem length_of_group {f : Fragment} {pieces : Fragment × Fragment}
    (hopen : f.text.head? = some '(') (h : f.groupBytes = ofOutcome (.ok pieces)) :
    pieces.1.text.length < f.text.length := by
  obtain ⟨source, hf⟩ := f.exists_within
  obtain ⟨close, -, rfl⟩ := map_eq_ok.mp ((Fragment.groupBytes_safe hf hopen).plain_eq h)
  exact length_between (ne_nil_of_head? hopen) close

mutual

/-- Compiles a path; `nested` is true of a reference in a filter. -/
def path (limit depth : Nat) (nested : Bool) (f : Fragment) : Slicing Path := do
  receive source f
  match originOf? nested f.text with
  | none => throw ⟨if nested then .noOrigin else .noRoot, f.offset⟩
  | some origin => do
    let nodes ← (NodeText.splitBytes f).attach
    match hn : nodes.1 with
    | [] => throw ⟨.emptyNode, f.offset⟩
    | first :: rest => do
      receive source (first.body.drop 1)
      let parts ← (NodeParts.splitBytes (first.body.drop 1)).attach
      if !parts.1.name.text.isEmpty then
        throw ⟨.namedMarker origin.marker parts.1.name.text, parts.1.name.offset⟩
      else do
        let segments ← parts.1.bodies.attach.mapM fun ⟨body, hb⟩ =>
          have := length_of_bodies parts.2 hb
          have := first.body.length_drop_le 1
          have := length_of_nodes nodes.2 (hn ▸ List.mem_cons_self ..)
          segment limit depth body
        let steps ← rest.attach.mapM fun ⟨node, hm⟩ =>
          have := length_of_nodes nodes.2 (hn ▸ List.mem_cons_of_mem _ hm)
          step limit depth node
        return .mk origin segments steps f.toString
termination_by 4 * f.text.length + 1
decreasing_by all_goals omega

/-- Compiles a node behind the first. -/
def step (limit depth : Nat) (node : NodeText) : Slicing Step :=
  match marker? node with
  | some marker => throw ⟨.lateMarker marker, node.body.offset⟩
  | none => do
    receive source node.body
    let parts ← (NodeParts.splitBytes node.body).attach
    let key := keyTest? parts.1.name.text
    if !node.deep && key.isNone && parts.1.bodies.isEmpty then
      throw ⟨.bareNode, node.body.offset⟩
    else do
      let segments ← parts.1.bodies.attach.mapM fun ⟨body, hb⟩ =>
        have := length_of_bodies parts.2 hb
        segment limit depth body
      return .mk (if node.deep then .descend key else key.elim .here .child) segments
termination_by 4 * node.body.text.length
decreasing_by all_goals omega

/-- Compiles the text between two brackets. -/
def segment (limit depth : Nat) (inner : Fragment) : Slicing Segment := do
  receive source inner
  let body := inner.trim
  if body.text.isEmpty then throw ⟨.emptySelector, body.offset⟩
  else if body.text = ['*'] then return .mk [.wildcard]
  else if hq : body.text.head? = some '?' then
    have : (inner.trim.drop 1).text.length < inner.text.length :=
      Nat.lt_of_lt_of_le (length_drop_one (ne_nil_of_head? hq)) inner.length_trim_le
    (fun condition => .mk [.filter condition]) <$>
      expression limit (depth + 1) .boolean (body.drop 1)
  else plainSegment source body
termination_by 4 * inner.text.length + 3
decreasing_by all_goals omega

/-- Compiles an expression. -/
def expression (limit depth : Nat) (position : Position) (f : Fragment) : Slicing Filter := do
  receive source f
  if limit < depth then throw ⟨.tooDeep limit, f.offset⟩
  else if f.trim.text.isEmpty then throw ⟨.emptyExpression, f.trim.offset⟩
  else do
    have := f.length_trim_le
    receive source f.trim
    let found ← f.trim.operatorsBytes.attach
    match hl : Occurrence.loosest found.1 with
    | [] => operand limit depth position f.trim
    | first :: next :: _ => throw ⟨.ungrouped first.op next.op, next.offset⟩
    | [o] => do
      let left ← (f.trim.slice? f.trim.offset o.offset).attach
      let right ← (f.trim.slice? (o.offset + o.width) f.trim.stop).attach
      if refuses position o.op then throw ⟨.operatorAsValue o.op, o.offset⟩
      else do
        have := length_of_operands found.2
          (Occurrence.mem_of_loosest (hl ▸ List.mem_cons_self ..)) left.2 right.2
        let first ← expression limit depth (operandPosition o.op) left.1
        let second ← expression limit depth (operandPosition o.op) right.1
        return binary o.op first second
termination_by 4 * f.text.length + 3
decreasing_by all_goals omega

/-- Compiles an expression without a binary operator at its top level. -/
def operand (limit depth : Nat) (position : Position) (f : Fragment) : Slicing Filter := do
  receive source f
  if hn : f.text.head? = some '!' then
    if position = .value then throw ⟨.negationAsValue, f.offset⟩
    else
      let rest := (f.drop 1).trimStart
      have : (f.drop 1).trimStart.text.length < f.text.length :=
        Nat.lt_of_le_of_lt (Text.length_trimStart_le _) (length_drop_one (ne_nil_of_head? hn))
      if hg : rest.text.head? = some '(' then .negation <$> group limit depth .boolean rest hg
      else if startsReference rest then
        (fun p => .existence p true) <$> path limit depth true rest
      else throw ⟨.badNegation, f.offset⟩
  else if hg : f.text.head? = some '(' then group limit depth position f hg
  else if startsReference f then asOperand position <$> path limit depth true f
  else .literal <$> literal source f
termination_by 4 * f.text.length + 2
decreasing_by all_goals omega

/-- Compiles an expression in parentheses. -/
def group (limit depth : Nat) (position : Position) (f : Fragment)
    (hopen : f.text.head? = some '(') : Slicing Filter := do
  receive source f
  let pieces ← f.groupBytes.attach
  if !pieces.1.2.text.isEmpty then
    throw ⟨.afterGroup (Text.trim pieces.1.2.text), pieces.1.2.offset⟩
  else
    have := length_of_group hopen pieces.2
    expression limit (depth + 1) position pieces.1.1
termination_by 4 * f.text.length + 1
decreasing_by all_goals omega

end

/-- Compiles a path text; nothing if a slice cannot be taken on the way. -/
def compile (options : Options) (text : String) : Option (Except SyntaxError Path) :=
  (path text.toList options.maxDepth 0 false ⟨text.toList, 0⟩).run.map fun outcome =>
    outcome.mapError fun fault => ⟨fault.cause, fault.position, text⟩

end Bytewise
end PathQuery
