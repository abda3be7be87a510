import PathQuery.Proofs.Path.ExpressionText
import PathQuery.Proofs.Path.Relocation
import PathQuery.Proofs.Path.StepText

/-! # The left operand of arithmetic

An operand in parentheses means the same as the operand alone, wherever it stands.  In front
of an arithmetic operator the two spellings differ, if the operand ends like an operator, as a
wildcard step does: the search for operators then takes the operator for a sign, and what is
meant as arithmetic is read as one reference with a longer name (`Path.compile_zeroTest`).
-/

namespace PathQuery

open Occurrence

variable {c : Char} {text n : List Char}

/-! ## Numbers -/

namespace Compiler

variable {limit depth offset : Nat} {position : Position} {f : Fragment} {x : Number}

/-- A constant that is read as a number spells a numeral of ASCII digits. -/
theorem spells_of_literal (h : literal f = .ok (.number x)) :
    ∃ numeral : Numeral, numeral.Spells f.text ∧ numeral.isAscii = true := by
  obtain ⟨numeral, hspells, hascii, -⟩ := literal_number_iff.mp h
  exact ⟨numeral, hspells, hascii⟩

/-- Such a constant is trimmed, and ends like no operator. -/
theorem ends_of_literal (h : literal f = .ok (.number x)) :
    StartsSolid f.text ∧ EndsWith false f.text := by
  obtain ⟨numeral, hspells, hascii⟩ := spells_of_literal h
  obtain ⟨c, hhead, hc⟩ := hspells.head hascii
  obtain ⟨d, hlast, hd⟩ := hspells.last hascii
  refine ⟨⟨c, hhead, ?_⟩, d, hlast, isBlank_of_isDigit hd, isOperatorChar_of_isDigit hd⟩
  rcases hc with rfl | hc
  · decide
  · exact isBlank_of_isDigit hc

theorem unbroken_of_literal (h : literal f = .ok (.number x)) : Unbroken f.text := by
  obtain ⟨numeral, hspells, hascii⟩ := spells_of_literal h
  exact hspells.unbroken hascii

/-- A number is an expression, at every depth up to the limit. -/
theorem expression_number {g : Fragment} (h : literal f = .ok (.number x))
    (hg : g.trim.text = f.text) (hdepth : depth ≤ limit) :
    expression limit depth position g = .ok (.literal (.number x)) := by
  obtain ⟨numeral, hspells, hascii⟩ := spells_of_literal h
  obtain ⟨c, hhead, hc⟩ := hspells.head hascii
  rw [← hg] at hhead
  have hother : c ≠ '!' ∧ c ≠ '(' ∧ c ≠ '$' ∧ c ≠ '@' := by
    rcases hc with rfl | hc
    · decide
    · refine ⟨?_, ?_, ?_, ?_⟩ <;> rintro rfl <;> exact absurd hc (by decide)
  have hunbroken : Unbroken g.trim.text := hg ▸ unbroken_of_literal h
  have hbang : g.trim.text.head? ≠ some '!' := by simp [hhead, hother]
  have hparen : g.trim.text.head? ≠ some '(' := by simp [hhead, hother]
  have hstart : startsReference g.trim = false := by simp [startsReference, hhead, hother]
  have hread : literal g.trim = .ok (.number x) := (literal_relocated hg).eq_ok h
  rw [expression_unbroken (ne_nil_of_head? hhead) hunbroken, operand_eq_ok hbang]
  exact ⟨hdepth, Or.inr (Or.inr ⟨_, hparen, hstart, hread, rfl⟩)⟩

/-! ## How operands end -/

/-- A constant ends like no operator. -/
theorem last_of_literal {l : Literal} (h : literal f = .ok l)
    (hlast : f.text.getLast? = some c) : isOperatorChar c = false := by
  have hends : EndsWith false f.text := by
    rcases literal_cases h with
      ⟨s, hs, -⟩ | ⟨htext, -⟩ | ⟨htext, -⟩ | ⟨htext, -⟩ | ⟨n, x, -, -, rfl⟩
    · rcases Quoted.last_of_decode hs with hquote | hquote
      · exact ⟨_, hquote, by decide, by decide⟩
      · exact ⟨_, hquote, by decide, by decide⟩
    · exact ⟨'e', by rw [htext]; rfl, by decide, by decide⟩
    · exact ⟨'e', by rw [htext]; rfl, by decide, by decide⟩
    · exact ⟨'l', by rw [htext]; rfl, by decide, by decide⟩
    · exact (ends_of_literal h).2
  obtain ⟨d, hd, -, hplain⟩ := hends
  obtain rfl : c = d := Option.some.inj (hlast.symm.trans hd)
  exact hplain

/-- **Of the operands that are values, only a path ends like an operator.** -/
theorem exists_marker_of_last {e : Filter} (h : operand limit depth .value f = .ok e)
    (hlast : f.text.getLast? = some c) (hc : isOperatorChar c = true) :
    ∃ origin : Origin, f.text.head? = some origin.marker := by
  by_cases hbang : f.text.head? = some '!'
  · obtain ⟨hboolean, -⟩ := (negated_eq_ok hbang).mp h
    simp at hboolean
  · rcases (operand_eq_ok hbang).mp h with ⟨hne, -, hgroup⟩ | ⟨p, hstart, -⟩ | ⟨l, -, -, hl, -⟩
    · obtain ⟨close, hclose, hend, -⟩ := group_eq_ok.mp hgroup
      obtain rfl : c = ')' :=
        Option.some.inj (hlast.symm.trans (Fragment.last_of_closingParen hclose hend))
      exact absurd hc (by decide)
    · simp only [startsReference, Bool.or_eq_true, beq_iff_eq] at hstart
      rcases hstart with hroot | hcurrent
      · exact ⟨.root, hroot⟩
      · exact ⟨.current, hcurrent⟩
    · exact absurd ((last_of_literal hl hlast).symm.trans hc) (by decide)

end Compiler

/-! ## A comparison with zero -/

/-- The text of arithmetic that is compared with zero. -/
def zeroTest (left : List Char) (op : ArithmeticOp) (right : List Char) : List Char :=
  left ++ ((Operator.arithmetic op).chars ++ (right ++ ((Operator.comparison .eq).chars ++ ['0'])))

/-- The expression is compared with zero. -/
def Filter.equalsZero (e : Filter) : Filter :=
  .comparison .eq e (.literal (.number (.ofInt64 0)))

namespace Compiler

variable {limit offset : Nat} {f : Fragment} {x : Number} {left right : List Char}

theorem literal_zero : literal ⟨['0'], 0⟩ = .ok (.number (.ofInt64 0)) := by
  rfl

/-- A right operand that is a number is read at every depth where the left one is. -/
theorem right_number {g a b : Fragment} {op : Operator} {p q : Position} {depth : Nat}
    {e : Filter} (hg : literal g = .ok (.number x)) (hb : b.trim.text = g.text) :
    (∃ y z, expression limit depth p a = .ok y ∧ expression limit depth q b = .ok z ∧
        e = binary op y z) ↔
      ∃ y, expression limit depth p a = .ok y ∧ e = binary op y (.literal (.number x)) := by
  constructor
  · rintro ⟨y, z, hy, hz, rfl⟩
    have hdepth : depth ≤ limit := (expression_eq_ok.mp hy).1
    obtain rfl := Except.ok.inj (hz.symm.trans (expression_number hg hb hdepth))
    exact ⟨y, hy, rfl⟩
  · rintro ⟨y, hy, rfl⟩
    have hdepth : depth ≤ limit := (expression_eq_ok.mp hy).1
    exact ⟨y, _, hy, expression_number hg hb hdepth, rfl⟩

/-- Arithmetic with a number behind it is trimmed. -/
theorem trim_solid (hleft : StartsSolid left) (hn : literal ⟨n, offset⟩ = .ok (.number x))
    (op : Operator) : Text.trim (left ++ (op.chars ++ n)) = left ++ (op.chars ++ n) := by
  have hend : EndsWith false (left ++ (op.chars ++ n)) :=
    ((ends_of_literal hn).2.append _).append _
  exact ((hleft.append _).trimmed hend).trim_eq

theorem passesOver_zero : PassesOver (.behind (.comparison .eq)) ['0'] :=
  .of_unbroken (unbroken_of_literal literal_zero) _

/-- Behind an operand that does not end like an operator both operators are found, and the
comparison is the loosest one. -/
theorem operators_zeroTest (op : ArithmeticOp) (hf : f.text = zeroTest left op n)
    (hsettles : Settles .initial c left) (hc : isOperatorChar c = false)
    (hn : literal ⟨n, offset⟩ = .ok (.number x)) :
    ∃ found o, f.operators = .ok found ∧ loosest found = [o] ∧ o.op = .comparison .eq ∧
      o.index = (left ++ ((Operator.arithmetic op).chars ++ n)).length + 1 := by
  have hunbroken : Unbroken n := unbroken_of_literal hn
  obtain ⟨-, d, hlast, hblank, -⟩ := ends_of_literal hn
  have hchain : f.text = chainChars left [(.arithmetic op, n), (.comparison .eq, ['0'])] := hf
  have hchained : Chained .initial left [(.arithmetic op, n), (.comparison .eq, ['0'])] :=
    ⟨⟨c, hsettles, fun _ _ => hc⟩,
      ⟨d, (PassesOver.of_unbroken hunbroken _).settles hlast hblank, nofun⟩, passesOver_zero⟩
  obtain ⟨found, hfound, hplaces⟩ := Fragment.operators_chain hchain hchained
  obtain ⟨o₁, rest, rfl, ho₁, hrest⟩ := List.map_eq_cons_iff.mp hplaces
  obtain ⟨o₂, rest, rfl, ho₂, hrest⟩ := List.map_eq_cons_iff.mp hrest
  obtain rfl := List.map_eq_nil_iff.mp hrest
  obtain ⟨hop₁, -⟩ := Prod.mk.inj ho₁
  obtain ⟨hop₂, hindex⟩ := Prod.mk.inj ho₂
  refine ⟨[o₁, o₂], o₂, hfound, ?_, hop₂, ?_⟩
  · cases op <;> simp [loosest, hop₁, hop₂, Operator.tier, List.min?_cons]
  · rw [hindex]
    simp only [Operator.chars, List.length_append, List.length_cons, List.length_nil,
      String.length_toList]
    omega

/-- **Behind an operand that does not end like an operator, arithmetic is read as such.** -/
theorem exists_expression_zeroTest (op : ArithmeticOp) (hf : f.trim.text = zeroTest left op n)
    (hleft : StartsSolid left) (hsettles : Settles .initial c left)
    (hc : isOperatorChar c = false) (hn : literal ⟨n, offset⟩ = .ok (.number x)) :
    ∃ a : Fragment, a.trim.text = Text.trim left ∧ ∀ {depth e},
      expression limit depth .boolean f = .ok e ↔
        ∃ y, expression limit depth .value a = .ok y ∧
          e = (Filter.arithmetic op y (.literal (.number x))).equalsZero := by
  obtain ⟨found, o, hfound, hloosest, hop, hindex⟩ := operators_zeroTest op hf hsettles hc hn
  have hsplit : f.trim.text = (left ++ ((Operator.arithmetic op).chars ++ n)) ++
      ((Operator.comparison .eq).chars ++ ['0']) := by
    simp [hf, zeroTest]
  obtain ⟨a, z, ha, hz, hread⟩ :=
    @exists_expression_binary limit f _ _ _ _ _ hsplit hfound hloosest hop hindex
  -- in front of the comparison, the arithmetic operator is the only one
  rw [trim_solid hleft hn] at ha
  obtain ⟨b, r, hb, hr, hread'⟩ := @exists_expression_single limit a _ _ _ _ ha hsettles
    (fun _ _ => hc) (.of_unbroken (unbroken_of_literal hn) _)
  rw [((ends_of_literal hn).1.trimmed (ends_of_literal hn).2).trim_eq] at hr
  refine ⟨b, hb, fun {depth e} => ?_⟩
  rw [hread, right_number literal_zero hz]
  simp only [operandPosition, hread', right_number hn hr]
  constructor
  · rintro ⟨-, _, ⟨-, y, hy, rfl⟩, rfl⟩
    exact ⟨y, hy, rfl⟩
  · rintro ⟨y, hy, rfl⟩
    exact ⟨trivial, _, ⟨⟨op, rfl⟩, y, hy, rfl⟩, rfl⟩

/-- **Behind an operand that ends like an operator, arithmetic is not found**, and all in front
of the comparison is read as one reference. -/
theorem expression_swallowed (op : ArithmeticOp) (hf : f.trim.text = zeroTest left op n)
    {origin : Origin} (hhead : left.head? = some origin.marker)
    (hsettles : Settles .initial c left) (hc : isOperatorChar c = true)
    (hn : literal ⟨n, offset⟩ = .ok (.number x)) {depth : Nat} {e : Filter}
    (h : expression limit depth .boolean f = .ok e) :
    ∃ q, e = (Filter.reference q).equalsZero := by
  have hpasses := hsettles.passes_swallowed op (unbroken_of_literal hn) hc
  set text := left ++ ((Operator.arithmetic op).chars ++ n) with htext
  obtain ⟨d, hlast, hblank, -⟩ : EndsWith false text :=
    ((ends_of_literal hn).2.append _).append _
  have hsplit : f.trim.text = text ++ ((Operator.comparison .eq).chars ++ ['0']) := by
    simp [hf, zeroTest, htext]
  obtain ⟨a, z, ha, hz, hread⟩ := @exists_expression_single limit f _ _ _ _ hsplit
    (hpasses.settles hlast hblank) nofun passesOver_zero
  obtain ⟨-, hequals⟩ := hread.mp h
  obtain ⟨y, hy, rfl⟩ := (right_number literal_zero hz).mp hequals
  have hleft : StartsSolid left := ⟨origin.marker, hhead, by cases origin <;> decide⟩
  rw [htext, trim_solid hleft hn] at ha
  -- without an operator the text is one operand, and the marker at its front makes it a path
  obtain ⟨found, hnone, hplaces⟩ := @Fragment.operators_chain text a.trim [] ha hpasses
  obtain rfl := List.map_eq_nil_iff.mp hplaces
  have hmarker : a.trim.text.head? = some origin.marker := by
    rw [ha, List.head?_append, hhead]
    rfl
  obtain ⟨-, hoperand⟩ := (expression_operand (ne_nil_of_head? hmarker) hnone).mp hy
  obtain ⟨q, -, rfl⟩ := (operand_of_marker hmarker).mp hoperand
  exact ⟨q, rfl⟩

end Compiler

/-! ## Filters at the root -/

namespace Path

/-- The text of a path that selects the children of the root for which a condition holds. -/
def filterText (condition : List Char) : String :=
  String.ofList ('$' :: NodeParts.bracketed ('?' :: condition))

/-- Such a path. -/
def filterPath (condition : Filter) (source : String) : Path :=
  .mk .root [.mk [.filter condition]] [] source

/-- A filter at the root compiles if its condition does, one level deep. -/
theorem compile_filterText (options : Options) {text : List Char}
    (hclosed : Closed false (fun _ => True) text) (hend : EndsWith false text) :
    ∃ f : Fragment, f.text = text ∧ ∀ {p}, compile options (filterText text) = .ok p ↔
      ∃ condition, Compiler.expression options.maxDepth 1 .boolean f = .ok condition ∧
        p = filterPath condition (filterText text) := by
  have hbody : Closed false (fun _ => True) ('?' :: text) :=
    Closed.cons (by decide) trivial hclosed
  have hchars : (filterText text).toList = '$' :: ['?' :: text].flatMap NodeParts.bracketed := by
    rw [filterText, String.toList_ofList, List.flatMap_singleton]
  obtain ⟨parts, hparts, hpath⟩ := Compiler.path_bracketed options.maxDepth 0
    (f := ⟨(filterText text).toList, 0⟩) hchars fun t ht => List.mem_singleton.mp ht ▸ hbody
  obtain ⟨part, rest, rfl, hpart, hrest⟩ := List.map_eq_cons_iff.mp hparts
  obtain rfl := List.map_eq_nil_iff.mp hrest
  have hsolid : StartsSolid ('?' :: text) := ⟨'?', rfl, by decide⟩
  have htrim : part.trim.text = '?' :: text := (hsolid.trimmed (hend.cons '?')).text_trim hpart
  have hquestion : part.trim.text.head? = some '?' := by rw [htrim]; rfl
  have hsource : Fragment.toString ⟨(filterText text).toList, 0⟩ = filterText text :=
    String.ofList_toList
  refine ⟨part.trim.drop 1, by rw [Fragment.drop, htrim]; rfl, fun {p} => ?_⟩
  rw [compile_eq_ok, hpath, hsource]
  simp only [mapM_eq_ok, List.forall₂_cons_left_iff, List.forall₂_nil_left_iff,
    Compiler.segment_question hquestion]
  constructor
  · rintro ⟨_, ⟨_, _, ⟨condition, hcondition, rfl⟩, rfl, rfl⟩, rfl⟩
    exact ⟨condition, hcondition, rfl⟩
  · rintro ⟨condition, hcondition, rfl⟩
    exact ⟨_, ⟨_, _, ⟨condition, hcondition, rfl⟩, rfl, rfl⟩, rfl⟩

theorem endsWith_zeroTest (e : List Char) (op : ArithmeticOp) (n : List Char) :
    EndsWith false (zeroTest e op n) := by
  have hzero : EndsWith false ['0'] := ⟨'0', rfl, by decide, by decide⟩
  exact (((hzero.append _).append _).append _).append _

/-- What arithmetic is compared with zero has nothing open. -/
theorem closed_zeroTest {e : List Char} {x : Number} (he : Closed false (fun _ => True) e)
    (hn : Compiler.literal ⟨n, 0⟩ = .ok (.number x)) (op : ArithmeticOp) :
    Closed false (fun _ => True) (zeroTest e op n) := by
  have hchars : ∀ op : Operator, Closed false (fun _ => True) op.chars := fun op =>
    Flat.closed (Flat.chars fun c hc => ⟨(ordinary_operatorChars op c hc).of_true, trivial⟩)
  have hnumber : Closed false (fun _ => True) n :=
    (PassesOver.of_unbroken (Compiler.unbroken_of_literal hn) (.arithmetic op)).closed
  exact he.append ((hchars _).append (hnumber.append ((hchars _).append
    Compiler.passesOver_zero.closed)))

/-- The condition of such a filter, without the white space in front of it. -/
theorem exists_condition_zeroTest (options : Options) {e : List Char} {x : Number}
    (hclosed : Closed false (fun _ => True) e) (hsolid : StartsSolid (Text.trimStart e))
    (hn : Compiler.literal ⟨n, 0⟩ = .ok (.number x)) (op : ArithmeticOp) :
    ∃ f : Fragment, f.trim.text = zeroTest (Text.trimStart e) op n ∧ ∀ {p},
      compile options (filterText (zeroTest e op n)) = .ok p ↔
        ∃ condition, Compiler.expression options.maxDepth 1 .boolean f = .ok condition ∧
          p = filterPath condition (filterText (zeroTest e op n)) := by
  obtain ⟨f, hf, hcompile⟩ := compile_filterText options (closed_zeroTest hclosed hn op)
    (endsWith_zeroTest e op n)
  have htrimmed : Text.Trimmed (zeroTest (Text.trimStart e) op n) :=
    (hsolid.append _).trimmed (endsWith_zeroTest _ op n)
  refine ⟨f, ?_, hcompile⟩
  rw [Fragment.trim, hf, Text.trim, zeroTest, Text.trimStart_append_of_ne_nil hsolid.ne_nil,
    ← zeroTest, Text.trimEnd_eq_self htrimmed.last]

/-- The filter of a left operand that does not end like an operator. -/
theorem exists_operand_zeroTest (options : Options) {e : List Char} {x : Number}
    (hclosed : Closed false (fun _ => True) e) (hsolid : StartsSolid (Text.trimStart e))
    (hsettles : Settles .initial c (Text.trimStart e)) (hc : isOperatorChar c = false)
    (hn : Compiler.literal ⟨n, 0⟩ = .ok (.number x)) (op : ArithmeticOp) :
    ∃ a : Fragment, a.trim.text = Text.trim e ∧ ∀ {p},
      compile options (filterText (zeroTest e op n)) = .ok p ↔
        ∃ y, Compiler.expression options.maxDepth 1 .value a = .ok y ∧
          p = filterPath (Filter.arithmetic op y (.literal (.number x))).equalsZero
            (filterText (zeroTest e op n)) := by
  obtain ⟨f, hf, hcompile⟩ := exists_condition_zeroTest options hclosed hsolid hn op
  obtain ⟨a, ha, hread⟩ := @Compiler.exists_expression_zeroTest _ _ options.maxDepth _ f _ _ op hf
    hsolid hsettles hc hn
  rw [Text.trim_trimStart] at ha
  refine ⟨a, ha, fun {p} => ?_⟩
  rw [hcompile]
  simp only [hread]
  constructor
  · rintro ⟨_, ⟨y, hy, rfl⟩, rfl⟩
    exact ⟨y, hy, rfl⟩
  · rintro ⟨y, hy, rfl⟩
    exact ⟨_, ⟨y, hy, rfl⟩, rfl⟩

/-- A text that is more than white space starts with something else. -/
theorem startsSolid_trimStart {e : List Char} (h : Text.trim e ≠ []) :
    StartsSolid (Text.trimStart e) := by
  obtain ⟨d, rest, hd⟩ := List.exists_cons_of_ne_nil h
  have hhead : (Text.trim e).head? = some d := by rw [hd]; rfl
  exact ⟨d, Text.head_trimEnd hhead, (Text.trimmed_trim e).head d hhead⟩

section
variable {options : Options} {limit : Nat} {e : List Char} {tree : Filter} {x : Number}
  (hcompiles : Compiler.expression limit 0 .value ⟨e, 0⟩ = .ok tree)
  (hplain : (Fragment.trim ⟨e, 0⟩).operators = .ok [])
  (hn : Compiler.literal ⟨n, 0⟩ = .ok (.number x)) (op : ArithmeticOp)
include hcompiles hplain hn

/-- **A left operand in parentheses means what it means alone.** -/
theorem compile_zeroTest_grouped (hroom : limit + 2 ≤ options.maxDepth) :
    compile options (filterText (zeroTest ('(' :: (e ++ [')'])) op n)) =
      .ok (filterPath (Filter.arithmetic op tree (.literal (.number x))).equalsZero
        (filterText (zeroTest ('(' :: (e ++ [')'])) op n))) := by
  have hclosed : ∀ grouping, Closed grouping (fun _ => True) e := fun _ =>
    closed_of_trim (Fragment.closed_of_operators hplain)
  have hsolid : StartsSolid ('(' :: (e ++ [')'])) := ⟨'(', rfl, by decide⟩
  have hend : EndsWith false ('(' :: (e ++ [')'])) := (endsWith_closeParen e).cons '('
  have htrimmed := hsolid.trimmed hend
  have hstart : Text.trimStart ('(' :: (e ++ [')'])) = '(' :: (e ++ [')']) :=
    Text.trimStart_eq_self htrimmed.head
  obtain ⟨c, hlast, hblank, hc⟩ := hend
  have hsettles : Settles .initial c ('(' :: (e ++ [')'])) :=
    ((Quiet.grouped (hclosed true)).unbroken.passesOver rfl rfl).settles hlast hblank
  have hgrouped : Closed false (fun _ => True) ('(' :: (e ++ [')'])) :=
    Closed.cons (by decide) trivial
      ((hclosed false).append (Flat.closed (Flat.char (by decide) trivial)))
  rw [← hstart] at hsolid hsettles
  obtain ⟨a, ha, hcompile⟩ := exists_operand_zeroTest options hgrouped hsolid hsettles hc hn op
  obtain ⟨inner, hinner, hgroup⟩ := @Compiler.exists_expression_group options.maxDepth 1 a e
    (ha.trans htrimmed.trim_eq) (hclosed true)
  have hread : Compiler.expression options.maxDepth 2 .value inner = .ok tree :=
    (Compiler.expression_relocated hroom (congrArg Text.trim hinner)).eq_ok hcompiles
  exact hcompile.mpr ⟨tree, (hgroup _ _).mpr ⟨by omega, hread⟩, rfl⟩

/-- Without parentheses too, if it does not end like an operator. -/
theorem compile_zeroTest_bare (hroom : limit + 1 ≤ options.maxDepth)
    (hlast : (Text.trim e).getLast? = some c) (hc : isOperatorChar c = false) :
    compile options (filterText (zeroTest e op n)) =
      .ok (filterPath (Filter.arithmetic op tree (.literal (.number x))).equalsZero
        (filterText (zeroTest e op n))) := by
  obtain ⟨-, hne, -⟩ := Compiler.expression_eq_ok.mp hcompiles
  obtain ⟨a, ha, hcompile⟩ := exists_operand_zeroTest options
    (closed_of_trim (Fragment.closed_of_operators hplain)) (startsSolid_trimStart hne)
    (settles_trimStart hplain hlast) hc hn op
  have hread : Compiler.expression options.maxDepth 1 .value a = .ok tree :=
    (Compiler.expression_relocated hroom ha).eq_ok hcompiles
  exact hcompile.mpr ⟨tree, hread, rfl⟩

/-- If it ends like an operator, the filter compares a single reference. -/
theorem compile_zeroTest_swallowed (hlast : (Text.trim e).getLast? = some c)
    (hc : isOperatorChar c = true) {p : Path}
    (h : compile options (filterText (zeroTest e op n)) = .ok p) :
    ∃ q, p = filterPath (Filter.reference q).equalsZero (filterText (zeroTest e op n)) := by
  obtain ⟨-, hne, -⟩ := Compiler.expression_eq_ok.mp hcompiles
  obtain ⟨-, hoperand⟩ := (Compiler.expression_operand hne hplain).mp hcompiles
  obtain ⟨origin, horigin⟩ := Compiler.exists_marker_of_last hoperand hlast hc
  have hhead : (Text.trimStart e).head? = some origin.marker := Text.head_trimEnd horigin
  obtain ⟨f, hf, hcompile⟩ := exists_condition_zeroTest options
    (closed_of_trim (Fragment.closed_of_operators hplain)) (startsSolid_trimStart hne) hn op
  obtain ⟨condition, hread, rfl⟩ := hcompile.mp h
  obtain ⟨q, rfl⟩ :=
    Compiler.expression_swallowed op hf hhead (settles_trimStart hplain hlast) hc hn hread
  exact ⟨q, rfl⟩

end

/-- **A left operand in front of an arithmetic operator.**  A text that is read as a value and
has no operator of its own keeps its meaning in parentheses.  Without them it does exactly if it
does not end like an operator; if it does, the filter is none with arithmetic in it, but
compares a single reference. -/
theorem compile_zeroTest {options : Options} {limit : Nat} {e : List Char} {tree : Filter}
    {x : Number} (hcompiles : Compiler.expression limit 0 .value ⟨e, 0⟩ = .ok tree)
    (hplain : (Fragment.trim ⟨e, 0⟩).operators = .ok [])
    (hn : Compiler.literal ⟨n, 0⟩ = .ok (.number x)) (hroom : limit + 2 ≤ options.maxDepth)
    (op : ArithmeticOp) :
    let condition := (Filter.arithmetic op tree (.literal (.number x))).equalsZero
    let grouped := filterText (zeroTest ('(' :: (e ++ [')'])) op n)
    let bare := filterText (zeroTest e op n)
    compile options grouped = .ok (filterPath condition grouped) ∧
      (compile options bare = .ok (filterPath condition bare) ↔
        ∀ c, (Text.trim e).getLast? = some c → isOperatorChar c = false) ∧
      ∀ c, (Text.trim e).getLast? = some c → isOperatorChar c = true →
        ∀ p, compile options bare = .ok p →
          ∃ q, p = filterPath (Filter.reference q).equalsZero bare := by
  intro condition grouped bare
  obtain ⟨-, hne, -⟩ := Compiler.expression_eq_ok.mp hcompiles
  obtain ⟨c, hlast⟩ : ∃ c, (Text.trim e).getLast? = some c :=
    ⟨_, List.getLast?_eq_some_getLast hne⟩
  refine ⟨compile_zeroTest_grouped hcompiles hplain hn op hroom, ⟨fun hbare d hd => ?_,
    fun hall => ?_⟩, fun d hd hop p hp => ?_⟩
  · by_contra hop
    obtain ⟨q, hq⟩ :=
      compile_zeroTest_swallowed hcompiles hplain hn op hd (by simpa using hop) hbare
    simp [filterPath, condition, Filter.equalsZero] at hq
  · exact compile_zeroTest_bare hcompiles hplain hn op (by omega) hlast (hall c hlast)
  · exact compile_zeroTest_swallowed hcompiles hplain hn op hd hop hp

example : filterText (zeroTest "@.a".toList .subtract "1".toList) = "$[?@.a - 1 == 0]" := by
  decide

/-- A wildcard in quotes keeps its meaning in front of a minus; a bare one needs parentheses. -/
theorem compile_zeroTest_minus :
    (∃ tree, Compiler.expression 0 0 .value ⟨"@['*']".toList, 0⟩ = .ok tree ∧
      compile {} "$[?@['*'] - 1 == 0]" =
        .ok (filterPath (Filter.arithmetic .subtract tree
          (.literal (.number (.ofInt64 1)))).equalsZero "$[?@['*'] - 1 == 0]")) ∧
    ∃ tree, Compiler.expression 0 0 .value ⟨"@.*".toList, 0⟩ = .ok tree ∧
      compile {} "$[?(@.*) - 1 == 0]" =
        .ok (filterPath (Filter.arithmetic .subtract tree
          (.literal (.number (.ofInt64 1)))).equalsZero "$[?(@.*) - 1 == 0]") ∧
      compile {} "$[?@.* - 1 == 0]" ≠
        .ok (filterPath (Filter.arithmetic .subtract tree
          (.literal (.number (.ofInt64 1)))).equalsZero "$[?@.* - 1 == 0]") := by
  have hquoted : ((Compiler.expression 0 0 .value ⟨"@['*']".toList, 0⟩).toOption.any
      fun _ => true) = true := by decide +kernel
  have hbare : ((Compiler.expression 0 0 .value ⟨"@.*".toList, 0⟩).toOption.any
      fun _ => true) = true := by decide +kernel
  have hone : Compiler.literal ⟨"1".toList, 0⟩ = .ok (.number (.ofInt64 1)) := by rfl
  obtain ⟨quoted, hok, -⟩ := exists_of_any hquoted
  obtain ⟨bare, hok', -⟩ := exists_of_any hbare
  obtain ⟨-, hquotes, -⟩ := @compile_zeroTest _ {} _ _ _ _ hok (by decide +kernel) hone (by decide)
    .subtract
  obtain ⟨hgroup, hstar, -⟩ := @compile_zeroTest _ {} _ _ _ _ hok' (by decide +kernel) hone
    (by decide) .subtract
  refine ⟨⟨quoted, hok, hquotes.mpr fun c hc => ?_⟩, bare, hok', hgroup, fun h => ?_⟩
  · obtain rfl : ']' = c := Option.some.inj hc
    decide
  · exact absurd (hstar.mp h '*' rfl) (by decide)

/-- Without parentheses `@.* + 1` is no sum: it is a reference to a member whose name is the
star, the plus and the digit. -/
theorem compile_zeroTest_name :
    (Fragment.trim ⟨"@.*".toList, 0⟩).operators = .ok [] ∧
      Compiler.literal ⟨"1".toList, 0⟩ = .ok (.number (.ofInt64 1)) ∧
      ∃ tree p, Compiler.expression 0 0 .value ⟨"@.*".toList, 0⟩ = .ok tree ∧
        compile {} (filterText (zeroTest "@.*".toList .add "1".toList)) = .ok p ∧
        p.same (filterPath (Filter.reference (.mk .current []
          [.mk (.child (.name "* + 1")) []] "@.* + 1")).equalsZero "$[?@.* + 1 == 0]") = true ∧
        ∀ source, p ≠ filterPath (Filter.arithmetic .add tree
          (.literal (.number (.ofInt64 1)))).equalsZero source := by
  have hoperand : ((Compiler.expression 0 0 .value ⟨"@.*".toList, 0⟩).toOption.any
      fun _ => true) = true := by decide +kernel
  have hfilter : ((compile {} (filterText (zeroTest "@.*".toList .add "1".toList))).toOption.any
      fun p => p.same (filterPath (Filter.reference (.mk .current []
        [.mk (.child (.name "* + 1")) []] "@.* + 1")).equalsZero "$[?@.* + 1 == 0]")) = true := by
    decide +kernel
  obtain ⟨tree, htree, -⟩ := exists_of_any hoperand
  obtain ⟨p, hp, hsame⟩ := exists_of_any hfilter
  refine ⟨by decide +kernel, rfl, tree, p, htree, hp, hsame, ?_⟩
  rintro source rfl
  simp [filterPath, Filter.equalsZero, same, Segment.sameList, Segment.same, Selector.sameList,
    Selector.same, Filter.same] at hsame

end Path
end PathQuery
