import PathQuery.Path.Compiler
import PathQuery.Proofs.Outcome

/-! # What a successful compilation did

One lemma for each function of the compiler: it has a result exactly if each of its
parts had one, and the result is made of theirs.
-/

namespace PathQuery
namespace Compiler

/-- Where the head of a step is, given its dots and its name. -/
def headOf (deep : Bool) (key : Option KeyTest) : Head :=
  if deep then .descend key else key.elim .here .child

/-- Where the operands of an operator are used. -/
def operandPosition : Operator → Position
  | .logical _ => .boolean
  | _ => .value

/-- The binary operation of an operator. -/
def binary : Operator → Filter → Filter → Filter
  | .logical op => .logical op
  | .comparison op => .comparison op
  | .arithmetic op => .arithmetic op

/-- What a path stands for in an expression. -/
def asOperand (position : Position) (p : Path) : Filter :=
  match position with
  | .boolean => .existence p false
  | .value => .reference p

/-- An expression with the operator may be used there. -/
def Permits : Position → Operator → Prop
  | .boolean, _ => True
  | .value, op => ∃ a, op = .arithmetic a

variable {limit depth : Nat} {nested : Bool} {f : Fragment} {position : Position}

theorem number_eq_ok {n : Numeral} {x : Number} :
    number n f = .ok x ↔ n.isAscii = true ∧ Number.ofNumeral? n = some x := by
  unfold number
  cases n.isAscii with
  | false => simp
  | true => cases Number.ofNumeral? n <;> simp

/-- A constant is a string, a number or one of three words. -/
theorem literal_cases {l : Literal} (h : literal f = .ok l) :
    (∃ s, Quoted.decode f = .ok s ∧ l = .string s) ∨
      (f.text = "true".toList ∧ l = .bool true) ∨ (f.text = "false".toList ∧ l = .bool false) ∨
      (f.text = "null".toList ∧ l = .null) ∨
      ∃ n x, Numeral.ofText? Text.isDecimalDigit f.text = some n ∧ number n f = .ok x ∧
        l = .number x := by
  unfold literal at h
  split at h
  · obtain ⟨s, hs, rfl⟩ := map_eq_ok.mp h
    exact Or.inl ⟨s, hs, rfl⟩
  split at h
  · exact Or.inr (Or.inl ⟨by assumption, (Except.ok.inj h).symm⟩)
  split at h
  · exact Or.inr (Or.inr (Or.inl ⟨by assumption, (Except.ok.inj h).symm⟩))
  split at h
  · exact Or.inr (Or.inr (Or.inr (Or.inl ⟨by assumption, (Except.ok.inj h).symm⟩)))
  split at h
  · rename_i n hn
    obtain ⟨x, hx, rfl⟩ := map_eq_ok.mp h
    exact Or.inr (Or.inr (Or.inr (Or.inr ⟨n, x, hn, hx, rfl⟩)))
  · simp at h

theorem path_eq_ok {p : Path} : path limit depth nested f = .ok p ↔
    ∃ origin first rest parts segments steps, originOf? nested f.text = some origin ∧
      NodeText.split f = .ok (first :: rest) ∧
      NodeParts.split (first.body.drop 1) = .ok parts ∧ parts.name.text = [] ∧
      parts.bodies.mapM (segment limit depth) = .ok segments ∧
      rest.mapM (step limit depth) = .ok steps ∧ p = .mk origin segments steps f.toString := by
  rw [path]
  split
  · rename_i horigin
    simp [horigin]
  · rename_i origin horigin
    split
    · rename_i fault hs
      simp [hs]
    · rename_i hs
      simp [hs]
    · rename_i first rest hs
      split
      · rename_i fault hp
        simp [hs, hp]
      · rename_i parts hp
        by_cases hname : parts.name.text = []
        · simp [horigin, hs, hp, hname, bind_eq_ok, fmap_eq_ok, @eq_comm _ p]
        · simp [horigin, hs, hp, hname]

/-- Where the text of a path is cut is known: it compiles if its segments and steps do. -/
theorem path_iff_of_split {origin : Origin} {first : NodeText} {rest : List NodeText}
    {parts : NodeParts} (horigin : originOf? nested f.text = some origin)
    (hsplit : NodeText.split f = .ok (first :: rest))
    (hparts : NodeParts.split (first.body.drop 1) = .ok parts) (hname : parts.name.text = [])
    {p : Path} : path limit depth nested f = .ok p ↔
      ∃ segments steps, parts.bodies.mapM (segment limit depth) = .ok segments ∧
        rest.mapM (step limit depth) = .ok steps ∧ p = .mk origin segments steps f.toString := by
  rw [path_eq_ok]
  constructor
  · rintro ⟨origin', first', rest', parts', segments, steps, horigin', hsplit', hparts', -,
      hsegments, hsteps, rfl⟩
    obtain ⟨rfl, rfl⟩ : first = first' ∧ rest = rest' := by
      simpa using Except.ok.inj (hsplit.symm.trans hsplit')
    obtain rfl : parts = parts' := Except.ok.inj (hparts.symm.trans hparts')
    obtain rfl : origin = origin' := Option.some.inj (horigin.symm.trans horigin')
    exact ⟨segments, steps, hsegments, hsteps, rfl⟩
  · rintro ⟨segments, steps, hsegments, hsteps, rfl⟩
    exact ⟨origin, first, rest, parts, segments, steps, horigin, hsplit, hparts, hname, hsegments,
      hsteps, rfl⟩

theorem step_eq_ok {node : NodeText} {s : Step} : step limit depth node = .ok s ↔
    ∃ parts segments, marker? node = none ∧ NodeParts.split node.body = .ok parts ∧
      (node.deep = true ∨ (keyTest? parts.name.text).isSome = true ∨ parts.bodies ≠ []) ∧
      parts.bodies.mapM (segment limit depth) = .ok segments ∧
      s = .mk (headOf node.deep (keyTest? parts.name.text)) segments := by
  rw [step]
  split
  · rename_i marker hmarker
    simp [hmarker]
  · rename_i hmarker
    split
    · rename_i fault hp
      simp [hp]
    · rename_i parts hp
      by_cases hbare : !node.deep && (keyTest? parts.name.text).isNone && parts.bodies.isEmpty
      · rw [if_pos hbare]
        simp only [Bool.and_eq_true, Bool.not_eq_true', Option.isNone_iff_eq_none,
          List.isEmpty_iff] at hbare
        simp [hp, hbare]
      · rw [if_neg hbare]
        have hfull : node.deep = true ∨ (keyTest? parts.name.text).isSome = true ∨
            ¬ parts.bodies = [] := by
          cases hdeep : node.deep <;> cases hkey : keyTest? parts.name.text <;>
            simp_all
        simp [hmarker, hp, fmap_eq_ok, headOf, @eq_comm _ s, hfull]

theorem segment_eq_ok {inner : Fragment} {s : Segment} : segment limit depth inner = .ok s ↔
    (inner.trim.text = ['*'] ∧ s = .mk [.wildcard]) ∨
    (∃ condition, inner.trim.text.head? = some '?' ∧
      expression limit (depth + 1) .boolean (inner.trim.drop 1) = .ok condition ∧
      s = .mk [.filter condition]) ∨
    (inner.trim.text ≠ [] ∧ inner.trim.text ≠ ['*'] ∧ inner.trim.text.head? ≠ some '?' ∧
      plainSegment inner.trim = .ok s) := by
  rw [segment]
  simp only
  split
  · rename_i hempty
    simp at hempty
    simp [hempty]
  · rename_i hempty
    split
    · rename_i hstar
      simp [hstar, @eq_comm _ s]
    · rename_i hstar
      split
      · rename_i hquestion
        simp [hstar, hquestion, map_eq_ok, @eq_comm _ s]
      · rename_i hquestion
        have hne : inner.trim.text ≠ [] := by simpa using hempty
        simp [hstar, hquestion, hne]

/-- A negated operand: a group, or a path. -/
theorem negated_eq_ok {e : Filter} (hn : f.text.head? = some '!') :
    operand limit depth position f = .ok e ↔ position = .boolean ∧
      ((∃ hne condition, (f.drop 1).trimStart.text.head? = some '(' ∧
          group limit depth .boolean (f.drop 1).trimStart hne = .ok condition ∧
          e = .negation condition) ∨
        ∃ p, startsReference (f.drop 1).trimStart = true ∧
          path limit depth true (f.drop 1).trimStart = .ok p ∧ e = .existence p true) := by
  rw [operand, dif_pos hn]
  cases position with
  | value => simp
  | boolean =>
    simp only [reduceCtorEq, if_false]
    by_cases hg : (f.drop 1).trimStart.text.head? = some '('
    · have hne : (f.drop 1).trimStart.text ≠ [] := ne_nil_of_head? hg
      have hstart : startsReference (f.drop 1).trimStart = false := by simp [startsReference, hg]
      simp [hg, hne, hstart, map_eq_ok, @eq_comm _ e]
    · cases hstart : startsReference (f.drop 1).trimStart with
      | false => simp [hg]
      | true => simp [hg, map_eq_ok, @eq_comm _ e]

/-- An operand without a negation: a group, a path or a constant. -/
theorem operand_eq_ok {e : Filter} (hn : f.text.head? ≠ some '!') :
    operand limit depth position f = .ok e ↔
      (∃ hne, f.text.head? = some '(' ∧ group limit depth position f hne = .ok e) ∨
      (∃ p, startsReference f = true ∧ path limit depth true f = .ok p ∧
        e = asOperand position p) ∨
      ∃ l, f.text.head? ≠ some '(' ∧ startsReference f = false ∧ literal f = .ok l ∧
        e = .literal l := by
  rw [operand, dif_neg hn]
  by_cases hg : f.text.head? = some '('
  · have hne : f.text ≠ [] := ne_nil_of_head? hg
    have hstart : startsReference f = false := by simp [startsReference, hg]
    simp [hg, hne, hstart]
  · cases hstart : startsReference f with
    | false => simp [hg, map_eq_ok, @eq_comm _ e]
    | true => cases position <;> simp [hg, map_eq_ok, asOperand, @eq_comm _ e]

theorem group_eq_ok {hne : f.text ≠ []} {e : Filter} : group limit depth position f hne = .ok e ↔
    ∃ close, f.closingParen = .ok close ∧ (f.drop (close + 1)).text = [] ∧
      expression limit (depth + 1) position ((f.take close).drop 1) = .ok e := by
  rw [group]
  split
  · rename_i fault hclose
    simp [hclose]
  · rename_i close hclose
    by_cases hend : (f.drop (close + 1)).text = []
    · simp [hclose, hend]
    · simp [hclose, hend]

theorem expression_eq_ok {e : Filter} : expression limit depth position f = .ok e ↔
    depth ≤ limit ∧ f.trim.text ≠ [] ∧ ∃ found, f.trim.operators = .ok found ∧
      ((Occurrence.loosest found = [] ∧ operand limit depth position f.trim = .ok e) ∨
        ∃ o left right, Occurrence.loosest found = [o] ∧ Permits position o.op ∧
          expression limit depth (operandPosition o.op) (o.left f.trim) = .ok left ∧
          expression limit depth (operandPosition o.op) (o.right f.trim) = .ok right ∧
          e = binary o.op left right) := by
  rw [expression]
  split
  · rename_i hdeep
    simp [Nat.not_le.mpr hdeep]
  · rename_i hdeep
    have hdepth : depth ≤ limit := Nat.le_of_not_lt hdeep
    simp only
    split
    · rename_i hempty
      simp only [List.isEmpty_iff] at hempty
      simp [hempty]
    · rename_i hempty
      have hne : ¬ f.trim.text = [] := by simpa using hempty
      split
      · rename_i fault hf
        simp [hf]
      · rename_i found hf
        split
        · rename_i hl
          simp [hf, hl, hdepth, hne]
        · rename_i first next rest hl
          simp [hf, hl]
        · rename_i o hl
          split
          · rename_i op hop
            cases position <;>
              simp [hf, hl, hdepth, hne, hop, bind_eq_ok, fmap_eq_ok, Permits, operandPosition,
                binary, @eq_comm _ e]
          · rename_i op hop
            cases position <;>
              simp [hf, hl, hdepth, hne, hop, bind_eq_ok, fmap_eq_ok, Permits, operandPosition,
                binary, @eq_comm _ e]
          · rename_i op hop
            cases position <;>
              simp [hf, hl, hdepth, hne, hop, bind_eq_ok, fmap_eq_ok, Permits, operandPosition,
                binary, @eq_comm _ e]

end Compiler

theorem Path.compile_eq_ok {options : Options} {text : String} {p : Path} :
    Path.compile options text = .ok p ↔
      Compiler.path options.maxDepth 0 false ⟨text.toList, 0⟩ = .ok p := by
  unfold Path.compile
  cases Compiler.path options.maxDepth 0 false ⟨text.toList, 0⟩ <;> simp [Except.mapError]

end PathQuery
