import PathQuery.Path.Equality
import PathQuery.Proofs.Path.OperatorChain
import PathQuery.Proofs.Path.SelectorText

/-! # Reading back expressions

An expression `ReadsBack` if, from its canonical text at any depth, the compiler reads the
same expression exactly where it is faithful and no deeper than the limit.  One lemma for
each form of expression says that it reads back if its parts do.
-/

namespace PathQuery

/-- The path is read back from its canonical text exactly if it is faithful and its
filters are no deeper than the limit. -/
def Path.ReadsBack [DoubleText] (limit : Nat) (nested : Bool) (p : Path) : Prop :=
  ∀ (depth : Nat) (f : Fragment), depth ≤ limit → f.text = p.chars →
    ((∃ read, Compiler.path limit depth nested f = .ok read ∧ p.same read = true) ↔
      p.isFaithful = true ∧ depth + p.levels ≤ limit)

/-- The expression is read back from its canonical text exactly if it is faithful and no
deeper than the limit. -/
def Filter.ReadsBack [DoubleText] (limit : Nat) (position : Compiler.Position) (e : Filter) :
    Prop :=
  ∀ (depth : Nat) (f : Fragment), f.trim.text = e.chars →
    ((∃ read, Compiler.expression limit depth position f = .ok read ∧ e.same read = true) ↔
      e.isFaithful = true ∧ depth + e.levels ≤ limit)

namespace Compiler

variable {limit depth : Nat} {position : Position} {f : Fragment} {e : Filter}
  {text : List Char}

/-! ## Groups -/

/-- A text without operators is an operand. -/
theorem expression_operand (hne : f.trim.text ≠ []) (h : f.trim.operators = .ok []) :
    expression limit depth position f = .ok e ↔
      depth ≤ limit ∧ operand limit depth position f.trim = .ok e := by
  constructor
  · intro hread
    obtain ⟨hdepth, -, found, hok, hread⟩ := expression_eq_ok.mp hread
    obtain rfl : [] = found := Except.ok.inj (h.symm.trans hok)
    rcases hread with ⟨-, hread⟩ | ⟨o, left, right, hloosest, -⟩
    · exact ⟨hdepth, hread⟩
    · simp [Occurrence.loosest] at hloosest
  · rintro ⟨hdepth, hread⟩
    exact expression_eq_ok.mpr ⟨hdepth, hne, [], h, Or.inl ⟨rfl, hread⟩⟩

theorem expression_unbroken (hne : f.trim.text ≠ []) (h : Unbroken f.trim.text) :
    expression limit depth position f = .ok e ↔
      depth ≤ limit ∧ operand limit depth position f.trim = .ok e :=
  expression_operand hne (Fragment.operators_unbroken h)

/-- A group is what stands between its parentheses, one level deeper. -/
theorem exists_group (hf : f.text = '(' :: (text ++ [')']))
    (hclosed : Closed true (fun _ => True) text) :
    ∃ inner : Fragment, inner.text = text ∧ ∀ position hne e,
      group limit depth position f hne = .ok e ↔
        expression limit (depth + 1) position inner = .ok e := by
  have hclose := Fragment.closingParen_grouped hf hclosed
  have hafter : (f.drop (text.length + 1 + 1)).text = [] := by simp [Fragment.drop, hf]
  refine ⟨(f.take (text.length + 1)).drop 1, ?_, fun position hne e => ?_⟩
  · simp [Fragment.drop, Fragment.take, hf]
  · rw [group_eq_ok]
    constructor
    · rintro ⟨close, hclose', -, hread⟩
      obtain rfl : text.length + 1 = close := Except.ok.inj (hclose.symm.trans hclose')
      exact hread
    · exact fun hread => ⟨_, hclose, hafter, hread⟩

/-- An expression in parentheses. -/
theorem exists_expression_group (hf : f.trim.text = '(' :: (text ++ [')']))
    (hclosed : Closed true (fun _ => True) text) :
    ∃ inner : Fragment, inner.text = text ∧ ∀ position e,
      expression limit depth position f = .ok e ↔
        depth ≤ limit ∧ expression limit (depth + 1) position inner = .ok e := by
  obtain ⟨inner, hinner, hgroup⟩ := @exists_group limit depth f.trim text hf hclosed
  refine ⟨inner, hinner, fun position e => ?_⟩
  have hne : f.trim.text ≠ [] := by simp [hf]
  have hunbroken : Unbroken f.trim.text := hf ▸ (Quiet.grouped hclosed).unbroken
  have hhead : f.trim.text.head? = some '(' := by rw [hf]; rfl
  have hbang : f.trim.text.head? ≠ some '!' := by simp [hhead]
  rw [expression_unbroken hne hunbroken, operand_eq_ok hbang]
  refine and_congr_right fun _ => ?_
  constructor
  · rintro (⟨hne, -, hread⟩ | ⟨p, hstart, -⟩ | ⟨l, hparen, -⟩)
    · exact (hgroup position hne e).mp hread
    · simp [startsReference, hhead] at hstart
    · exact absurd hhead hparen
  · exact fun hread => Or.inl ⟨hne, hhead, (hgroup position hne e).mpr hread⟩

/-- An operand that starts with a marker is a path. -/
theorem operand_of_marker {origin : Origin} (h : f.text.head? = some origin.marker) :
    operand limit depth position f = .ok e ↔
      ∃ p, path limit depth true f = .ok p ∧ e = asOperand position p := by
  obtain ⟨-, hbang, hparen, -, hmarker⟩ := origin.marker_facts
  have hnegated : f.text.head? ≠ some '!' := by simpa [h] using hbang
  have hgroup : f.text.head? ≠ some '(' := by simpa [h] using hparen
  have hstart : startsReference f = true := by simpa [startsReference, h] using hmarker
  rw [operand_eq_ok hnegated]
  constructor
  · rintro (⟨-, hopen, -⟩ | ⟨p, -, hp⟩ | ⟨l, -, hnot, -⟩)
    · exact absurd hopen hgroup
    · exact ⟨p, hp⟩
    · exact absurd (hstart.symm.trans hnot) (by decide)
  · rintro ⟨p, hp⟩
    exact Or.inr (Or.inl ⟨p, hstart, hp⟩)

/-- A text without operators that starts with a marker is one path. -/
theorem expression_marker {origin : Origin} (hhead : f.trim.text.head? = some origin.marker)
    (h : Unbroken f.trim.text) :
    expression limit depth position f = .ok e ↔
      depth ≤ limit ∧ ∃ p, path limit depth true f.trim = .ok p ∧ e = asOperand position p := by
  rw [expression_unbroken (ne_nil_of_head? hhead) h, operand_of_marker hhead]

/-! ## Negations -/

/-- What follows the sign of a negation. -/
theorem trimStart_negated {c : Char} (hf : f.text = '!' :: c :: text)
    (hc : Text.isBlank c = false) : (f.drop 1).trimStart.text = c :: text := by
  rw [Fragment.trimStart, Fragment.drop, hf]
  exact Text.trimStart_cons hc

/-- A path behind the sign of a negation is one that selects nothing. -/
theorem exists_expression_absence {origin : Origin}
    (hf : f.trim.text = '!' :: origin.marker :: text) (h : Unbroken f.trim.text) :
    ∃ inner : Fragment, inner.text = origin.marker :: text ∧ ∀ {depth e},
      expression limit depth .boolean f = .ok e ↔
        depth ≤ limit ∧ ∃ p, path limit depth true inner = .ok p ∧ e = .existence p true := by
  obtain ⟨hblank, -, hgroup, -, hmarker⟩ := origin.marker_facts
  have hrest := trimStart_negated hf hblank
  have hstart : startsReference (f.trim.drop 1).trimStart = true := by
    simp [startsReference, hrest, hmarker]
  have hparen : (f.trim.drop 1).trimStart.text.head? ≠ some '(' := by simp [hrest, hgroup]
  have hbang : f.trim.text.head? = some '!' := by rw [hf]; rfl
  refine ⟨(f.trim.drop 1).trimStart, hrest, fun {depth e} => ?_⟩
  rw [expression_unbroken (ne_nil_of_head? hbang) h, negated_eq_ok hbang]
  refine and_congr_right fun _ => ?_
  constructor
  · rintro ⟨-, ⟨-, condition, hopen, -⟩ | ⟨p, -, hp⟩⟩
    · exact absurd hopen hparen
    · exact ⟨p, hp⟩
  · rintro ⟨p, hp⟩
    exact ⟨rfl, Or.inr ⟨p, hstart, hp⟩⟩

/-- A group behind the sign of a negation is read one level deeper. -/
theorem exists_expression_negation (hf : f.trim.text = '!' :: '(' :: (text ++ [')']))
    (hclosed : Closed true (fun _ => True) text) :
    ∃ inner : Fragment, inner.text = text ∧ ∀ e, expression limit depth .boolean f = .ok e ↔
      depth ≤ limit ∧ ∃ condition,
        expression limit (depth + 1) .boolean inner = .ok condition ∧ e = .negation condition := by
  have hunbroken : Unbroken f.trim.text :=
    hf ▸ ((Quiet.grouped hclosed).negated (by decide)).unbroken
  have hrest := trimStart_negated hf (by decide)
  obtain ⟨inner, hinner, hread⟩ := @exists_group limit depth _ text hrest hclosed
  have hparen : (f.trim.drop 1).trimStart.text.head? = some '(' := by rw [hrest]; rfl
  have hstart : startsReference (f.trim.drop 1).trimStart = false := by
    simp [startsReference, hparen]
  have hbang : f.trim.text.head? = some '!' := by rw [hf]; rfl
  refine ⟨inner, hinner, fun e => ?_⟩
  rw [expression_unbroken (ne_nil_of_head? hbang) hunbroken, negated_eq_ok hbang]
  refine and_congr_right fun _ => ?_
  constructor
  · rintro ⟨-, ⟨hne, condition, -, hok, rfl⟩ | ⟨p, hnot, -⟩⟩
    · exact ⟨condition, (hread _ hne _).mp hok, rfl⟩
    · exact absurd (hstart.symm.trans hnot) (by decide)
  · rintro ⟨condition, hok, rfl⟩
    have hne := ne_nil_of_head? hparen
    exact ⟨rfl, Or.inl ⟨hne, condition, hparen, (hread _ hne _).mpr hok, rfl⟩⟩

/-! ## Operators -/

/-- The operands on either side of an operator that is found at its place. -/
theorem text_operands {op : Operator} {o : Occurrence} {left right : List Char}
    (hf : f.text = left ++ (op.symbol.toList ++ right)) (hop : o.op = op)
    (hindex : o.index = left.length) : (o.left f).text = left ∧ (o.right f).text = right := by
  constructor
  · rw [Occurrence.left, Fragment.take, hf, hindex]
    exact List.take_left' rfl
  · have hlength : (left ++ op.symbol.toList).length = left.length + op.symbol.length := by
      rw [List.length_append, String.length_toList]
    rw [Occurrence.right, Fragment.drop, hf, ← List.append_assoc, hindex, Occurrence.width, hop]
    exact List.drop_left' hlength

/-- **An expression with one loosest operator is read operand by operand.** -/
theorem exists_expression_operands {op : Operator} {left right : List Char}
    {found : List Occurrence} {o : Occurrence}
    (hf : f.trim.text = left ++ (op.symbol.toList ++ right))
    (hfound : f.trim.operators = .ok found) (hloosest : Occurrence.loosest found = [o])
    (hop : o.op = op) (hindex : o.index = left.length) :
    ∃ a b : Fragment, a.text = left ∧ b.text = right ∧
      ∀ {depth position e}, expression limit depth position f = .ok e ↔ Permits position op ∧
        ∃ x y, expression limit depth (operandPosition op) a = .ok x ∧
          expression limit depth (operandPosition op) b = .ok y ∧ e = binary op x y := by
  obtain ⟨hleft, hright⟩ := text_operands hf hop hindex
  refine ⟨o.left f.trim, o.right f.trim, hleft, hright, fun {depth position e} => ?_⟩
  constructor
  · intro hread
    obtain ⟨-, -, found', hfound', hread⟩ := expression_eq_ok.mp hread
    obtain rfl : found = found' := Except.ok.inj (hfound.symm.trans hfound')
    rcases hread with ⟨hnone, -⟩ | ⟨o', x, y, hone, hpermits, hx, hy, rfl⟩
    · simp [hloosest] at hnone
    · obtain rfl : o = o' := by simpa [hloosest] using hone
      rw [hop] at hpermits hx hy
      exact ⟨hpermits, x, y, hx, hy, by rw [hop]⟩
  · rintro ⟨hpermits, x, y, hx, hy, rfl⟩
    have hdepth : depth ≤ limit := (expression_eq_ok.mp hx).1
    have hne : f.trim.text ≠ [] := by simp [hf, toList_symbol]
    refine expression_eq_ok.mpr ⟨hdepth, hne, found, hfound, Or.inr ⟨o, x, y, hloosest, ?_⟩⟩
    rw [hop]
    exact ⟨hpermits, hx, hy, rfl⟩

/-- White space around the operator does not belong to the operands. -/
theorem exists_expression_binary {op : Operator} {left right : List Char}
    {found : List Occurrence} {o : Occurrence} (hf : f.trim.text = left ++ (op.chars ++ right))
    (hfound : f.trim.operators = .ok found) (hloosest : Occurrence.loosest found = [o])
    (hop : o.op = op) (hindex : o.index = left.length + 1) :
    ∃ a b : Fragment, a.trim.text = Text.trim left ∧ b.trim.text = Text.trim right ∧
      ∀ {depth position e}, expression limit depth position f = .ok e ↔ Permits position op ∧
        ∃ x y, expression limit depth (operandPosition op) a = .ok x ∧
          expression limit depth (operandPosition op) b = .ok y ∧ e = binary op x y := by
  have hblank : Text.isBlank ' ' = true := by decide
  have htext : f.trim.text = (left ++ [' ']) ++ (op.symbol.toList ++ (' ' :: right)) := by
    simp [hf, Operator.chars]
  obtain ⟨a, b, ha, hb, hread⟩ := @exists_expression_operands limit f _ _ _ _ _ htext hfound
    hloosest hop (hindex.trans (by simp))
  refine ⟨a, b, ?_, ?_, hread⟩
  · rw [Fragment.trim, ha]
    exact Text.trim_append_blank hblank
  · rw [Fragment.trim, hb]
    exact Text.trim_blank_append hblank

/-- An expression with a single operator is read operand by operand. -/
theorem exists_expression_single {op : Operator} {left right : List Char} {c : Char}
    (hf : f.trim.text = left ++ (op.chars ++ right)) (hleft : Occurrence.Settles .initial c left)
    (hop : ∀ x, op = .arithmetic x → Occurrence.isOperatorChar c = false)
    (hright : Occurrence.PassesOver (.behind op) right) :
    ∃ a b : Fragment, a.trim.text = Text.trim left ∧ b.trim.text = Text.trim right ∧
      ∀ {depth position e}, expression limit depth position f = .ok e ↔ Permits position op ∧
        ∃ x y, expression limit depth (operandPosition op) a = .ok x ∧
          expression limit depth (operandPosition op) b = .ok y ∧ e = binary op x y := by
  obtain ⟨o, hfound, hop, hindex⟩ := Fragment.operators_binary hf hleft hop hright
  have hloosest : Occurrence.loosest [o] = [o] := by simp [Occurrence.loosest]
  exact exists_expression_binary hf hfound hloosest hop hindex

end Compiler

namespace Filter

variable {limit : Nat} {position : Compiler.Position} {a b : Filter}

theorem same_binary (op : Operator) (a b e : Filter) :
    (Compiler.binary op a b).same e = true ↔
      ∃ a' b', e = Compiler.binary op a' b' ∧ a.same a' = true ∧ b.same b' = true := by
  constructor
  · intro h
    rcases op with op | op | op <;> cases e <;> simp [Compiler.binary, same] at h
    all_goals
      obtain ⟨⟨rfl, ha⟩, hb⟩ := h
      exact ⟨_, _, rfl, ha, hb⟩
  · rintro ⟨a', b', rfl, ha, hb⟩
    rcases op with op | op | op <;> simp [Compiler.binary, same, ha, hb]

theorem chars_binary [DoubleText] (op : Operator) (a b : Filter) : (Compiler.binary op a b).chars =
    a.operandChars a.chars ++ (op.chars ++ b.operandChars b.chars) := by
  rcases op with op | op | op <;> simp [Compiler.binary, chars]

variable [LawfulDoubleText]

/-! ## Operands -/

/-- The text of a well-formed expression is trimmed. -/
theorem trimmed_chars {e : Filter} (h : e.WellFormed position) : Text.Trimmed e.chars := by
  have hbinary : ∀ (op : Operator) (a b : Filter) (right : Compiler.Position),
      b.WellFormed right → Text.Trimmed (Compiler.binary op a b).chars := by
    intro op a b right hb
    rw [chars_binary]
    exact (a.startsSolid_operandChars.append _).trimmed
      (((endsWith_operandChars hb).append _).append _)
  have hplain := trimmed_operandChars h
  cases e with
  | literal l => exact hplain
  | reference p => exact hplain
  | existence p inverted => exact hplain
  | negation e => exact hplain
  | arithmetic op a b => exact hbinary (.arithmetic op) a b _ h.2
  | comparison op a b => exact hbinary (.comparison op) a b _ h.2.2
  | logical op a b => exact hbinary (.logical op) a b _ h.2.2

/-- **An operand is read back, one level deeper if it is in parentheses.** -/
theorem ReadsBack.operand (h : a.ReadsBack limit position) (hwf : a.WellFormed position)
    (depth : Nat) (f : Fragment) (hf : f.trim.text = a.operandChars a.chars) :
    (∃ read, Compiler.expression limit depth position f = .ok read ∧ a.same read = true) ↔
      a.isFaithful = true ∧ depth + a.operandLevels a.levels ≤ limit := by
  unfold operandChars at hf
  unfold operandLevels
  split at hf
  · rename_i hbinary
    rw [if_pos hbinary]
    obtain ⟨inner, hinner, hgroup⟩ :=
      @Compiler.exists_expression_group limit depth f a.chars hf a.closed_chars
    have htrim := (trimmed_chars hwf).text_trim hinner
    have hread := h (depth + 1) inner htrim
    simp only [hgroup]
    constructor
    · rintro ⟨read, ⟨-, hok⟩, hsame⟩
      obtain ⟨hfaithful, hlevels⟩ := hread.mp ⟨read, hok, hsame⟩
      exact ⟨hfaithful, by omega⟩
    · rintro ⟨hfaithful, hlevels⟩
      obtain ⟨read, hok, hsame⟩ := hread.mpr ⟨hfaithful, by omega⟩
      exact ⟨read, ⟨by omega, hok⟩, hsame⟩
  · rename_i hbinary
    rw [if_neg hbinary]
    exact h depth f hf

/-! ## Binary operations -/

/-- An operator that is not found leaves a reference. -/
theorem not_read_swallowed {op : ArithmeticOp} {f : Fragment} {depth : Nat}
    (ha : a.WellFormed .value) (hends : a.endsLikeOperator = true)
    (hf : f.trim.text = (Compiler.binary (.arithmetic op) a b).chars) :
    ¬∃ read, Compiler.expression limit depth position f = .ok read ∧
      (Compiler.binary (.arithmetic op) a b).same read = true := by
  rintro ⟨read, hok, hsame⟩
  obtain ⟨c, hlast, hblank, hc⟩ := endsWith_operandChars ha
  rw [hends] at hc
  have hunbroken : Unbroken f.trim.text := by
    rw [hf, chars_binary]
    exact Unbroken.of_swallowed op a.unbroken_operandChars b.unbroken_operandChars hlast hblank hc
  obtain ⟨p, rfl⟩ : ∃ p, a = .reference p := by
    cases a with
    | reference p => exact ⟨p, rfl⟩
    | existence p inverted => exact absurd ha.1 (by decide)
    | _ => exact absurd hends Bool.false_ne_true
  obtain ⟨rest, hp⟩ := p.chars_eq_cons
  have hhead : f.trim.text.head? = some p.origin.marker := by
    rw [hf, chars_binary]
    change (p.chars ++ _).head? = _
    rw [hp]
    rfl
  obtain ⟨-, q, -, heq⟩ := (Compiler.expression_marker hhead hunbroken).mp hok
  obtain ⟨a', b', rfl, -⟩ := (same_binary _ _ _ _).mp hsame
  cases position <;> simp [Compiler.binary, Compiler.asOperand] at heq

/-- **A binary operation is read back if its operands are and its operator is found.** -/
theorem ReadsBack.binary_iff (op : Operator) (hpermits : Compiler.Permits position op)
    (ha : a.ReadsBack limit (Compiler.operandPosition op))
    (hb : b.ReadsBack limit (Compiler.operandPosition op))
    (hwa : a.WellFormed (Compiler.operandPosition op))
    (hwb : b.WellFormed (Compiler.operandPosition op)) {depth : Nat} {f : Fragment}
    (hf : f.trim.text = (Compiler.binary op a b).chars) :
    (∃ read, Compiler.expression limit depth position f = .ok read ∧
      (Compiler.binary op a b).same read = true) ↔
    (∀ x, op = .arithmetic x → a.endsLikeOperator = false) ∧
      (a.isFaithful = true ∧ depth + a.operandLevels a.levels ≤ limit) ∧
      (b.isFaithful = true ∧ depth + b.operandLevels b.levels ≤ limit) := by
  by_cases hswallowed : ∀ x, op = .arithmetic x → a.endsLikeOperator = false
  · obtain ⟨c, hlast, hblank, hc⟩ := endsWith_operandChars hwa
    have hsettles : Occurrence.Settles .initial c (a.operandChars a.chars) :=
      (a.unbroken_operandChars.passesOver rfl rfl).settles hlast hblank
    -- binary operands are in parentheses, so the operator is the only one at the top level
    obtain ⟨l, r, hleft, hright, hread⟩ :=
      @Compiler.exists_expression_single limit f _ _ _ _ (hf.trans (chars_binary op a b)) hsettles
        (fun x hx => hc.trans (hswallowed x hx)) (.of_unbroken b.unbroken_operandChars op)
    rw [(trimmed_operandChars hwa).trim_eq] at hleft
    rw [(trimmed_operandChars hwb).trim_eq] at hright
    rw [← ha.operand hwa depth _ hleft, ← hb.operand hwb depth _ hright]
    simp only [hread]
    constructor
    · rintro ⟨read, ⟨-, left, right, hokLeft, hokRight, rfl⟩, hsame⟩
      obtain ⟨a', b', heq, hsameLeft, hsameRight⟩ := (same_binary _ _ _ _).mp hsame
      obtain ⟨rfl, rfl⟩ : left = a' ∧ right = b' := by
        rcases op with op | op | op <;> simpa [Compiler.binary] using heq
      exact ⟨hswallowed, ⟨left, hokLeft, hsameLeft⟩, ⟨right, hokRight, hsameRight⟩⟩
    · rintro ⟨-, ⟨left, hokLeft, hsameLeft⟩, ⟨right, hokRight, hsameRight⟩⟩
      exact ⟨Compiler.binary op left right, ⟨hpermits, left, right, hokLeft, hokRight, rfl⟩,
        (same_binary _ _ _ _).mpr ⟨left, right, rfl, hsameLeft, hsameRight⟩⟩
  · refine iff_of_false ?_ fun h => hswallowed h.1
    simp only [not_forall] at hswallowed
    obtain ⟨x, rfl, hends⟩ := hswallowed
    exact not_read_swallowed hwa (by simpa using hends) hf

/-- The operands of a binary operation are in their places. -/
theorem ReadsBack.binary (op : Operator) (hpermits : Compiler.Permits position op)
    (ha : a.ReadsBack limit (Compiler.operandPosition op))
    (hb : b.ReadsBack limit (Compiler.operandPosition op))
    (hwa : a.WellFormed (Compiler.operandPosition op))
    (hwb : b.WellFormed (Compiler.operandPosition op)) :
    (Compiler.binary op a b).ReadsBack limit position := by
  intro depth f hf
  rw [ReadsBack.binary_iff op hpermits ha hb hwa hwb hf]
  have hlevels : (Compiler.binary op a b).levels =
      max (a.operandLevels a.levels) (b.operandLevels b.levels) := by
    rcases op with op | op | op <;> simp [Compiler.binary, levels]
  have hfaithful : (Compiler.binary op a b).isFaithful = true ↔
      (∀ x, op = .arithmetic x → a.endsLikeOperator = false) ∧ a.isFaithful = true ∧
        b.isFaithful = true := by
    rcases op with op | op | op <;> simp [Compiler.binary, isFaithful]
  rw [hfaithful, hlevels, ← Nat.add_max_add_left, Nat.max_le]
  constructor
  · rintro ⟨hends, ⟨hfa, hla⟩, ⟨hfb, hlb⟩⟩
    exact ⟨⟨hends, hfa, hfb⟩, hla, hlb⟩
  · rintro ⟨⟨hends, hfa, hfb⟩, hla, hlb⟩
    exact ⟨hends, ⟨hfa, hla⟩, ⟨hfb, hlb⟩⟩

/-! ## Other expressions -/

theorem ReadsBack.literal (l : Literal) : (Filter.literal l).ReadsBack limit position := by
  intro depth f hf
  obtain ⟨c, hhead, hc⟩ : ∃ c, f.trim.text.head? = some c ∧
      c ≠ '!' ∧ c ≠ '(' ∧ c ≠ '$' ∧ c ≠ '@' := by
    rw [hf]
    obtain ⟨c, hhead, -, hc⟩ := l.head_chars
    exact ⟨c, hhead, hc⟩
  have hunbroken : Unbroken f.trim.text := hf ▸ l.unbroken_chars
  have hne := Compiler.ne_nil_of_head? hhead
  have hbang : f.trim.text.head? ≠ some '!' := by simp [hhead, hc.1]
  have hparen : f.trim.text.head? ≠ some '(' := by simp [hhead, hc.2.1]
  have hstart : Compiler.startsReference f.trim = false := by
    simp [Compiler.startsReference, hhead, hc.2.2]
  simp only [isFaithful, levels, Nat.add_zero, true_and]
  constructor
  · rintro ⟨read, hok, -⟩
    exact (Compiler.expression_eq_ok.mp hok).1
  · intro hdepth
    refine ⟨.literal l, (Compiler.expression_unbroken hne hunbroken).mpr ⟨hdepth, ?_⟩, ?_⟩
    · exact (Compiler.operand_eq_ok hbang).mpr
        (Or.inr (Or.inr ⟨l, hparen, hstart, Compiler.literal_chars hf, rfl⟩))
    · cases l <;> simp [same, Literal.same]

/-- A path that stands alone. -/
theorem read_path_iff {p : Path} (h : p.ReadsBack limit true) {depth : Nat} {f : Fragment}
    (hf : f.trim.text = p.chars) {e : Filter}
    (hsame : ∀ q, e.same (Compiler.asOperand position q) = p.same q) :
    (∃ read, Compiler.expression limit depth position f = .ok read ∧ e.same read = true) ↔
      p.isFaithful = true ∧ depth + p.levels ≤ limit := by
  obtain ⟨rest, hp⟩ := p.chars_eq_cons
  have hhead : f.trim.text.head? = some p.origin.marker := by
    rw [hf, hp]
    rfl
  have hunbroken : Unbroken f.trim.text := hf ▸ p.quiet_chars.unbroken
  simp only [Compiler.expression_marker hhead hunbroken]
  constructor
  · rintro ⟨read, ⟨hdepth, q, hok, rfl⟩, heq⟩
    exact (h depth f.trim hdepth hf).mp ⟨q, hok, hsame q ▸ heq⟩
  · rintro ⟨hfaithful, hlevels⟩
    have hdepth : depth ≤ limit := by omega
    obtain ⟨q, hok, heq⟩ := (h depth f.trim hdepth hf).mpr ⟨hfaithful, hlevels⟩
    exact ⟨_, ⟨hdepth, q, hok, rfl⟩, (hsame q).trans heq⟩

theorem ReadsBack.reference {p : Path} (h : p.ReadsBack limit true) :
    (Filter.reference p).ReadsBack limit .value :=
  fun _ _ hf => read_path_iff h hf fun _ => by rw [Compiler.asOperand, same]

theorem ReadsBack.existence {p : Path} (h : p.ReadsBack limit true) (inverted : Bool) :
    (Filter.existence p inverted).ReadsBack limit .boolean := by
  intro depth f hf
  cases inverted with
  | false =>
    refine read_path_iff h hf fun q => ?_
    simp [Compiler.asOperand, same]
  | true =>
    have hunbroken : Unbroken f.trim.text := hf ▸ unbroken_operandChars (.existence p true)
    obtain ⟨rest, hp⟩ := p.chars_eq_cons
    have hchars : f.trim.text = '!' :: p.origin.marker :: rest := by
      rw [hf, ← hp]
      rfl
    obtain ⟨inner, hinner, hread⟩ := @Compiler.exists_expression_absence limit f rest _ hchars
      hunbroken
    have hpath : inner.text = p.chars := hinner.trans hp.symm
    simp only [hread]
    constructor
    · rintro ⟨read, ⟨hdepth, q, hok, rfl⟩, hsame⟩
      exact (h depth inner hdepth hpath).mp ⟨q, hok, by simpa [same] using hsame⟩
    · rintro ⟨hfaithful, hlevels⟩
      have hdepth : depth ≤ limit := Nat.le_of_add_right_le hlevels
      obtain ⟨q, hok, hsame⟩ := (h depth inner hdepth hpath).mpr ⟨hfaithful, hlevels⟩
      exact ⟨_, ⟨hdepth, q, hok, rfl⟩, by simpa [same] using hsame⟩

theorem ReadsBack.negation {e : Filter} (h : e.ReadsBack limit .boolean)
    (hwf : e.WellFormed .boolean) : (Filter.negation e).ReadsBack limit .boolean := by
  intro depth f hf
  obtain ⟨inner, hinner, hread⟩ :=
    @Compiler.exists_expression_negation limit depth f e.chars hf e.closed_chars
  have hback := h (depth + 1) inner ((trimmed_chars hwf).text_trim hinner)
  -- the parentheses that a negation always has cost one level
  have hlevels : depth + (Filter.negation e).levels = depth + 1 + e.levels := by
    simp only [levels]
    omega
  simp only [hread, hlevels]
  constructor
  · rintro ⟨read, ⟨-, condition, hok, rfl⟩, hsame⟩
    exact hback.mp ⟨condition, hok, by simpa [same] using hsame⟩
  · rintro ⟨hfaithful, hdeep⟩
    obtain ⟨condition, hok, hsame⟩ := hback.mpr ⟨hfaithful, hdeep⟩
    exact ⟨_, ⟨by omega, condition, hok, rfl⟩, by simpa [same] using hsame⟩

end Filter
end PathQuery
