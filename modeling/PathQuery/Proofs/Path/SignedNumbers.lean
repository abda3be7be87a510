import PathQuery.Proofs.Path.LeftOperand

/-! # Operators between numbers

A plus or a minus may be an operator, the sign of a number or the sign of its exponent.  Behind
a number it is always an operator: a number ends with a digit, so no exponent is begun there
(`Context.Admits.of_digit`).  Behind an operator it is always a sign, as nothing that stands
there so far is an operand.  Thus the operator that is written between two numbers is the only
one that is found (`Fragment.operators_between`), with or without white space around it, and the
text is the operation on the two numbers that are read from its parts
(`Path.compile_signedNumbers`).
-/

namespace PathQuery

open Occurrence

variable {a b before after blanks text : List Char} {c : Char} {x y : Number} {op : Operator}

/-! ## White space around an operator -/

namespace Occurrence

variable {context : Context}

/-- What white space does not change holds behind it. -/
theorem Context.over_blanks {P : Context → Prop}
    (hstep : ∀ context c, P context → Text.isBlank c = true → P (context.afterBlank c))
    (hblanks : ∀ c ∈ blanks, Text.isBlank c = true) (h : P context) (offset : Nat) :
    P (context.over (topMarks offset blanks)) := by
  induction blanks generalizing context offset with
  | nil => exact h
  | cons c rest ih =>
    rw [List.forall_mem_cons] at hblanks
    have hnext : context.next ⟨c, offset, true, 0, 0⟩ = context.afterBlank c :=
      next_blank rfl hblanks.1
    rw [topMarks, over_cons, hnext]
    exact ih hblanks.2 (hstep context c h hblanks.1) _

theorem Context.Admits.afterBlank (h : context.Admits) (hc : Text.isBlank c = true) :
    (context.afterBlank c).Admits where
  operand := h.operand
  exponent := rfl
  wildcard := by
    show some c ≠ some '.' ∧ some c ≠ some '['
    simp only [ne_eq, Option.some.injEq]
    constructor <;> rintro rfl <;> exact absurd hc (by decide)

/-- Behind a digit arithmetic may begin. -/
theorem Context.Admits.afterDigit (hc : c.isDigit = true) : (context.afterChar c).Admits where
  operand := by simp [afterChar, followsOperand, isOperatorChar_of_isDigit hc]
  exponent := by
    have hletter : c ≠ 'e' ∧ c ≠ 'E' := by
      constructor <;> rintro rfl <;> exact absurd hc (by decide)
    simp [afterChar, isExponentStart, hletter]
  wildcard := by
    show some c ≠ some '.' ∧ some c ≠ some '['
    simp only [ne_eq, Option.some.injEq]
    constructor <;> rintro rfl <;> exact absurd hc (by decide)

/-- So it may behind a text that ends with one. -/
theorem Context.Admits.of_digit {marks : List Mark} (hmarks : marks.map Mark.char = a)
    (hlast : a.getLast? = some c) (hc : c.isDigit = true) : (context.over marks).Admits := by
  rcases List.eq_nil_or_concat marks with rfl | ⟨front, m, rfl⟩
  · simp [← hmarks] at hlast
  · obtain rfl : m.char = c := by simpa [← hmarks] using hlast
    have hnext : (context.over front).next m = (context.over front).afterChar m.char := by
      simp [Context.next, isBlank_of_isDigit hc]
    rw [List.concat_eq_append, over_append, over_cons, hnext]
    exact .afterDigit hc

theorem passes_blanks (hblanks : ∀ c ∈ blanks, Text.isBlank c = true) (offset : Nat) :
    Passes context (topMarks offset blanks) :=
  passes_topMarks fun c hc => not_isOperatorChar_of_isBlank (hblanks c hc)

end Occurrence

/-- The text of an operation, with white space around the operator. -/
def operationText (a before : List Char) (op : Operator) (after b : List Char) : List Char :=
  (a ++ before) ++ (op.symbol.toList ++ (after ++ b))

/-- Behind a first operand that ends with a digit, and white space, an operator may stand. -/
theorem exists_marks_before (ha : Unbroken a) (hlast : a.getLast? = some c)
    (hc : c.isDigit = true) (hbefore : ∀ c ∈ before, Text.isBlank c = true) (offset : Nat) :
    ∃ left, ScanState.initial.walk true offset (a ++ before) = some (left, .initial) ∧
      Passes .initial left ∧ (Context.over .initial left).Admits := by
  obtain ⟨marks, hwalk, hpasses⟩ := ha .initial offset rfl rfl
  have hblanks := walk_topMarks (fun c hc => KeyTest.ordinary_of_isBlank (hbefore c hc))
    (offset + Text.byteSize a)
  refine ⟨_, ScanState.walk_append hwalk hblanks, hpasses.append (passes_blanks hbefore _), ?_⟩
  rw [over_append]
  exact Context.over_blanks (fun _ _ h hblank => h.afterBlank hblank) hbefore
    (.of_digit (ScanState.map_char_of_walk hwalk) hlast hc) _

/-- Behind an operator and white space nothing is an operand, so a sign belongs to what follows. -/
theorem exists_marks_behind (hb : Unbroken b) (hafter : ∀ c ∈ after, Text.isBlank c = true)
    (op : Operator) (offset : Nat) :
    ∃ right, ScanState.initial.walk true offset (after ++ b) = some (right, .initial) ∧
      Passes (.afterOperator op) right := by
  obtain ⟨hstart, htoken⟩ := Context.over_blanks
    (P := fun context => context.followsOperand = false ∧ context.token = [])
    (fun _ _ h _ => ⟨h.1, rfl⟩) hafter
    (⟨followsOperand_behind op, rfl⟩ : (Context.afterOperator op).followsOperand = false ∧ _) offset
  obtain ⟨later, hwalk, hpasses⟩ := hb _ (offset + Text.byteSize after) hstart htoken
  have hblanks := walk_topMarks (fun c hc => KeyTest.ordinary_of_isBlank (hafter c hc)) offset
  exact ⟨_, ScanState.walk_append hblanks hwalk, (passes_blanks hafter offset).append hpasses⟩

theorem head?_blanks_append (hafter : ∀ c ∈ after, Text.isBlank c = true)
    (hhead : b.head? ≠ some '=') : (after ++ b).head? ≠ some '=' := by
  cases after with
  | nil => exact hhead
  | cons d rest =>
    intro h
    obtain rfl : d = '=' := Option.some.inj h
    exact absurd (hafter '=' (List.mem_cons_self ..)) (by decide)

/-- **Between two operands the first of which ends with a digit, exactly one operator is found**,
however much white space is around it. -/
theorem Fragment.operators_between {f : Fragment} (hf : f.text = operationText a before op after b)
    (ha : Unbroken a) (hlast : a.getLast? = some c) (hc : c.isDigit = true) (hb : Unbroken b)
    (hhead : b.head? ≠ some '=') (hbefore : ∀ c ∈ before, Text.isBlank c = true)
    (hafter : ∀ c ∈ after, Text.isBlank c = true) :
    ∃ o, f.operators = .ok [o] ∧ o.op = op ∧ o.index = (a ++ before).length := by
  obtain ⟨left, hwalkLeft, hpassesLeft, hadmits⟩ :=
    exists_marks_before ha hlast hc hbefore f.offset
  set place := f.offset + Text.byteSize (a ++ before)
  obtain ⟨right, hwalkRight, hpassesRight⟩ :=
    exists_marks_behind hb hafter op (place + Text.byteSize op.symbol.toList)
  have hequals : right.head?.map Mark.char ≠ some '=' := by
    rw [← List.head?_map, ScanState.map_char_of_walk hwalkRight]
    exact head?_blanks_append hafter hhead
  have hend := hpassesRight (left.length + op.symbol.length) []
  rw [List.append_nil] at hend
  have hfound := hpassesLeft 0 (topMarks place op.symbol.toList ++ right)
  rw [Nat.zero_add, scan_symbol op (fun _ _ => hadmits) _ _ hequals, hend] at hfound
  have hwalk := ScanState.walk_append hwalkLeft
    (ScanState.walk_append (walk_topMarks (ordinary_symbol op) place) hwalkRight)
  rw [← operationText, ← hf] at hwalk
  refine ⟨⟨op, left.length, place⟩, ?_, rfl, ScanState.length_of_walk hwalkLeft⟩
  simp only [operators, Fragment.scan_of_walk hwalk, hfound, Scan.check, bind, Except.bind,
    pure, Except.pure]
  rfl

/-! ## Operations on numbers -/

namespace Compiler

theorem literal_of_writtenAs (h : x.WrittenAs a) (offset : Nat) :
    literal ⟨a, offset⟩ = .ok (.number x) :=
  literal_number_iff.mpr h

theorem trim_of_writtenAs (h : x.WrittenAs a) : Text.trim a = a := by
  obtain ⟨hstart, hend⟩ := ends_of_literal (literal_of_writtenAs h 0)
  exact (hstart.trimmed hend).trim_eq

/-- A number ends with a digit, and starts with a minus or a digit. -/
theorem exists_ends_of_writtenAs (h : x.WrittenAs a) :
    (∃ c, a.getLast? = some c ∧ c.isDigit = true) ∧ a.head? ≠ some '=' := by
  obtain ⟨n, hspells, hascii, -⟩ := h
  refine ⟨hspells.last hascii, fun hequals => ?_⟩
  obtain ⟨c, hhead, hc⟩ := hspells.head hascii
  obtain rfl : '=' = c := Option.some.inj (hequals.symm.trans hhead)
  exact absurd hc (by decide)

section
variable (ha : x.WrittenAs a) (hb : y.WrittenAs b)
  (hbefore : ∀ c ∈ before, Text.isBlank c = true) (hafter : ∀ c ∈ after, Text.isBlank c = true)
include ha hb hbefore hafter

theorem operators_numbers {f : Fragment} (hf : f.text = operationText a before op after b) :
    ∃ o, f.operators = .ok [o] ∧ o.op = op ∧ o.index = (a ++ before).length := by
  obtain ⟨⟨c, hlast, hc⟩, -⟩ := exists_ends_of_writtenAs ha
  have hunbroken : Unbroken a := unbroken_of_literal (literal_of_writtenAs ha 0)
  have hunbroken' : Unbroken b := unbroken_of_literal (literal_of_writtenAs hb 0)
  exact Fragment.operators_between hf hunbroken hlast hc hunbroken'
    (exists_ends_of_writtenAs hb).2 hbefore hafter

/-- **An operator between two numbers is read as the operation on them.** -/
theorem expression_numbers {limit depth : Nat} {position : Position} {f : Fragment}
    (hf : f.trim.text = operationText a before op after b) (hdepth : depth ≤ limit)
    (hpermits : Permits position op) :
    expression limit depth position f =
      .ok (binary op (.literal (.number x)) (.literal (.number y))) := by
  obtain ⟨o, hfound, hop, hindex⟩ := operators_numbers ha hb hbefore hafter hf
  have hloosest : Occurrence.loosest [o] = [o] := by simp [Occurrence.loosest]
  obtain ⟨left, right, hleft, hright, hread⟩ :=
    exists_expression_operands hf hfound hloosest hop hindex
  have htrimLeft : left.trim.text = a := by
    rw [Fragment.trim, hleft, Text.trim_append_blanks hbefore, trim_of_writtenAs ha]
  have htrimRight : right.trim.text = b := by
    rw [Fragment.trim, hright, Text.trim_blanks_append hafter, trim_of_writtenAs hb]
  refine hread.mpr ⟨hpermits, _, _, ?_, ?_, rfl⟩
  · exact expression_number (literal_of_writtenAs ha 0) htrimLeft hdepth
  · exact expression_number (literal_of_writtenAs hb 0) htrimRight hdepth

end

end Compiler

namespace Path

/-- **Signs and exponents neither split nor join tokens.**  Two numbers in any form that is read,
with an operator and any white space between them, are read as the operation on the numbers that
their texts write on their own: wherever such an operation may stand, and as the filter of a
path. -/
theorem compile_signedNumbers {options : Options} (hroom : 1 ≤ options.maxDepth)
    (ha : x.WrittenAs a) (hb : y.WrittenAs b) (hbefore : ∀ c ∈ before, Text.isBlank c = true)
    (hafter : ∀ c ∈ after, Text.isBlank c = true) (op : Operator) :
    let text := operationText a before op after b
    let operation := Compiler.binary op (.literal (.number x)) (.literal (.number y))
    Compiler.literal ⟨a, 0⟩ = .ok (.number x) ∧ Compiler.literal ⟨b, 0⟩ = .ok (.number y) ∧
      (∀ (depth : Nat) (position : Compiler.Position) (f : Fragment), f.trim.text = text →
        depth ≤ options.maxDepth → Compiler.Permits position op →
        Compiler.expression options.maxDepth depth position f = .ok operation) ∧
      compile options (filterText text) = .ok (filterPath operation (filterText text)) := by
  intro text operation
  obtain ⟨hstart, -⟩ := Compiler.ends_of_literal (Compiler.literal_of_writtenAs ha 0)
  obtain ⟨-, hend⟩ := Compiler.ends_of_literal (Compiler.literal_of_writtenAs hb 0)
  have hends : EndsWith false text := ((hend.append _).append _).append _
  have htrimmed : Text.Trimmed text := ((hstart.append _).append _).trimmed hends
  have hexpression : ∀ (depth : Nat) (position : Compiler.Position) (f : Fragment),
      f.trim.text = text → depth ≤ options.maxDepth → Compiler.Permits position op →
      Compiler.expression options.maxDepth depth position f = .ok operation :=
    fun _ _ _ hf hdepth hpermits =>
      Compiler.expression_numbers ha hb hbefore hafter hf hdepth hpermits
  obtain ⟨o, hfound, -⟩ :=
    Compiler.operators_numbers (f := ⟨text, 0⟩) ha hb hbefore hafter rfl
  obtain ⟨f, hf, hcompile⟩ :=
    compile_filterText options (Fragment.closed_of_operators hfound) hends
  refine ⟨Compiler.literal_of_writtenAs ha 0, Compiler.literal_of_writtenAs hb 0, hexpression, ?_⟩
  exact hcompile.mpr
    ⟨operation, hexpression 1 .boolean f (htrimmed.text_trim hf) hroom trivial, rfl⟩

/-- A minus behind a negative exponent, and in front of the minus of a number with an exponent of
the other sign, is the operator. -/
theorem compile_signedNumbers_minus :
    let small : Numeral := ⟨false, ['1'], [], some (true, ['5'])⟩
    let large : Numeral := ⟨true, ['2'], [], some (false, ['3'])⟩
    ∃ x y : Number, Number.ofNumeral? small = some x ∧ Number.ofNumeral? large = some y ∧
      Compiler.literal ⟨"1e-5".toList, 0⟩ = .ok (.number x) ∧
      Compiler.literal ⟨"-2E+3".toList, 0⟩ = .ok (.number y) ∧
      compile {} "$[?1e-5--2E+3]" = .ok (filterPath
        (.arithmetic .subtract (.literal (.number x)) (.literal (.number y)))
        "$[?1e-5--2E+3]") := by
  intro small large
  obtain ⟨x, hx⟩ := Option.isSome_iff_exists.mp
    (by decide +kernel : (Number.ofNumeral? small).isSome = true)
  obtain ⟨y, hy⟩ := Option.isSome_iff_exists.mp
    (by decide +kernel : (Number.ofNumeral? large).isSome = true)
  have ha : x.WrittenAs "1e-5".toList :=
    ⟨small, ⟨by decide, "e-5".toList, ⟨'e', ['-'], rfl, by decide, .inl rfl, rfl⟩, rfl⟩, rfl, hx⟩
  have hb : y.WrittenAs "-2E+3".toList :=
    ⟨large, ⟨by decide, "E+3".toList, ⟨'E', ['+'], rfl, by decide, .inr rfl, .inr rfl⟩, rfl⟩, rfl,
      hy⟩
  have hroom : 1 ≤ ({} : Options).maxDepth := by decide
  have hnone : ∀ c ∈ ([] : List Char), Text.isBlank c = true := nofun
  obtain ⟨hleft, hright, -, hcompile⟩ :=
    compile_signedNumbers hroom ha hb hnone hnone (.arithmetic .subtract)
  exact ⟨x, y, hx, hy, hleft, hright, hcompile⟩

end Path
end PathQuery
