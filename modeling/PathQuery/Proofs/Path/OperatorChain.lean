import PathQuery.Proofs.Path.BareName
import PathQuery.Proofs.Path.OperatorScan
import PathQuery.Proofs.Path.Placement

/-! # Operators between operands

Where operands stand in a row with operators between them, the search finds these operators
and no others (`Fragment.operators_chain`).  What it has to know of an operand in front of an
operator is that it is passed over, and which character is the last one of it (`Settles`).

The exception is an arithmetic operator behind an operand that ends like an operator: it is
not found, and the two operands with it are one text without operators
(`Settles.passes_swallowed`).
-/

namespace PathQuery

open Occurrence

variable {text a b : List Char} {c : Char}

namespace Occurrence

/-! ## Operands in front of an operator -/

/-- The search for operators passes over the text, from a given context on. -/
def PassesOver (context : Context) (text : List Char) : Prop :=
  ∀ offset, ∃ marks,
    ScanState.initial.walk true offset text = some (marks, .initial) ∧ Passes context marks

/-- The search for operators passes over the operand and white space behind it, and then knows
`last` as the last character of an operand. -/
def Settles (context : Context) (last : Char) (text : List Char) : Prop :=
  ∀ offset, ∃ marks, ScanState.initial.walk true offset text = some (marks, .initial) ∧
    (context.over marks).significant = some last ∧
    ∀ m : Mark, m.plain = true → Text.isBlank m.char = true → Passes context (marks ++ [m])

variable {context : Context} {last : Char}

theorem not_isOperatorChar_of_isBlank (h : Text.isBlank c = true) : isOperatorChar c = false := by
  by_contra hop
  have hspecial := KeyTest.isSpecial_of_isOperatorChar (by simpa using hop)
  exact Bool.false_ne_true ((KeyTest.not_isSpecial_of_isBlank h).symm.trans hspecial)

theorem passes_blank {m : Mark} (hblank : Text.isBlank m.char = true) : Passes context [m] :=
  Passes.of_ignores fun _ => ignores_of_not_operator (not_isOperatorChar_of_isBlank hblank)

theorem next_blank {m : Mark} (hplain : m.plain = true) (hblank : Text.isBlank m.char = true) :
    context.next m = context.afterBlank m.char := by
  simp [Context.next, hplain, hblank]

end Occurrence

/-- White space around a text is balanced. -/
theorem closed_of_trim {grouping : Bool} (h : Closed grouping (fun _ => True) (Text.trim text)) :
    Closed grouping (fun _ => True) text := by
  have hblanks : ∀ blanks : List Char, (∀ c ∈ blanks, Text.isBlank c = true) →
      Closed grouping (fun _ => True) blanks := fun blanks hall => Flat.closed (Flat.chars
    fun c hc => ⟨KeyTest.ordinary_of_isBlank (hall c hc), trivial⟩)
  obtain ⟨front, hfront, hblank⟩ := Text.exists_append_trimStart text
  obtain ⟨back, hback, hblank'⟩ := Text.exists_trimEnd_append (Text.trimStart text)
  rw [hfront, hback]
  exact (hblanks front hblank).append (h.append (hblanks back hblank'))

theorem Unbroken.passesOver {context : Context} (h : Unbroken a)
    (hstart : context.followsOperand = false) (htoken : context.token = []) :
    PassesOver context a :=
  fun offset => h context offset hstart htoken

namespace Occurrence

variable {context : Context} {last : Char}

/-- The last character of a text is what the context knows behind it. -/
theorem significant_of_last {marks : List Mark} (hmarks : marks.map Mark.char = text)
    (hlast : text.getLast? = some c) (hblank : Text.isBlank c = false) :
    (context.over marks).significant = some c := by
  rcases List.eq_nil_or_concat marks with rfl | ⟨front, m, rfl⟩
  · simp [← hmarks] at hlast
  · have hm : m.char = c := by simpa [← hmarks] using hlast
    rw [← hm] at hblank ⊢
    rw [List.concat_eq_append, significant_over hblank]

theorem PassesOver.settles (h : PassesOver context a) (hlast : a.getLast? = some c)
    (hblank : Text.isBlank c = false) : Settles context c a := by
  intro offset
  obtain ⟨marks, hwalk, hpasses⟩ := h offset
  refine ⟨marks, hwalk, ?_, fun m _ hm => hpasses.append (passes_blank hm)⟩
  exact significant_of_last (ScanState.map_char_of_walk hwalk) hlast hblank

theorem PassesOver.closed {grouping : Bool} (h : PassesOver context a) :
    Closed grouping (fun _ => True) a := by
  obtain ⟨marks, hwalk, -⟩ := h 0
  exact ScanState.closed_of_walk (fun _ => rfl) hwalk

/-- White space behind an operand does not count. -/
theorem Settles.append_blank (h : Settles context last a) {blanks : List Char}
    (hblanks : ∀ c ∈ blanks, Text.isBlank c = true) : Settles context last (a ++ blanks) := by
  induction blanks generalizing a with
  | nil => rwa [List.append_nil]
  | cons c rest ih =>
    rw [List.forall_mem_cons] at hblanks
    rw [List.append_cons]
    refine ih ?_ hblanks.2
    intro offset
    obtain ⟨marks, hwalk, hsignificant, hpasses⟩ := h offset
    have hordinary : ∀ d ∈ [c], Ordinary true d := by
      intro d hd
      rw [List.mem_singleton.mp hd]
      exact KeyTest.ordinary_of_isBlank hblanks.1
    have hspace := walk_topMarks hordinary (offset + Text.byteSize a)
    set mark : Mark := ⟨c, offset + Text.byteSize a, true, 0, 0⟩ with hmark
    have hnext : (context.over marks).next mark = (context.over marks).afterBlank c :=
      next_blank rfl hblanks.1
    have hbehind : Passes context (marks ++ [mark]) := hpasses mark rfl hblanks.1
    refine ⟨marks ++ [mark], ScanState.walk_append hwalk hspace, ?_, fun m _ hm => ?_⟩
    · rw [over_append, over_cons, hnext]
      exact hsignificant
    · exact hbehind.append (passes_blank hm)

/-- A character that begins no operator at the end of a text begins none before white space. -/
theorem operatorAt_blank (h : context.operatorAt c none = .ok none) {d : Char}
    (hd : Text.isBlank d = true) : context.operatorAt c (some d) = .ok none := by
  have hequals : some d ≠ some '=' := by
    rintro hsome
    obtain rfl := Option.some.inj hsome
    exact absurd hd (by decide)
  -- half an operator is an error at the end, so what is behind the character makes no difference
  unfold Context.operatorAt at h ⊢
  by_cases hbar : c = '|'
  · simp [hbar] at h
  rw [if_neg hbar] at h ⊢
  by_cases hand : c = '&'
  · simp [hand] at h
  rw [if_neg hand] at h ⊢
  by_cases hequal : c = '='
  · simp [hequal] at h
  rw [if_neg hequal] at h ⊢
  rw [if_neg hequals, if_neg hequals, if_neg hequals]
  exact h

/-- Marks among which no operator is found are passed over, if white space is behind them. -/
theorem passes_of_scan {marks : List Mark} {index : Nat}
    (h : Occurrence.scan context index marks = .ok []) {m : Mark}
    (hm : Text.isBlank m.char = true) : Passes context (marks ++ [m]) := by
  fun_induction Occurrence.scan context index marks with
  | case1 => exact passes_blank hm
  | case2 context index first rest hblank ih =>
    have hnext : context.next first = context.afterBlank first.char := if_pos hblank
    rw [List.cons_append]
    refine Passes.cons (Passes.of_ignores fun htop => ?_) (hnext ▸ ih h)
    simp only [Bool.and_eq_true] at hblank
    exact ignores_of_not_operator (not_isOperatorChar_of_isBlank hblank.2)
  | case3 context index first rest hblank htop ih =>
    have hnext : context.next first = context.afterChar first.char := if_neg hblank
    rw [List.cons_append]
    exact Passes.cons (Passes.of_ignores fun hfirst => by simp [hfirst] at htop) (hnext ▸ ih h)
  | case4 => simp at h
  | case5 context index first rest hblank htop hop ih =>
    have hnext : context.next first = context.afterChar first.char := if_neg hblank
    have hlater := hnext ▸ ih h
    cases rest with
    | nil => exact Passes.cons_of_next (operatorAt_blank hop hm) hlater
    | cons next rest => exact Passes.cons_of_next hop hlater
  | case6 context index first rest hblank htop op hop hwidth ih =>
    obtain ⟨later, -, hnone⟩ := map_eq_ok.mp h
    simp at hnone
  | case7 => simp at h
  | case8 context index first hblank htop op hwidth next after hop ih =>
    obtain ⟨later, -, hnone⟩ := map_eq_ok.mp h
    simp at hnone

/-- A fragment without operators settles as an operand, if it is trimmed. -/
theorem settles_of_operators {f : Fragment} (h : f.operators = .ok [])
    (hlast : f.text.getLast? = some c) (hblank : Text.isBlank c = false) :
    Settles .initial c f.text := by
  intro offset
  obtain ⟨found, hfound, hplaces⟩ :=
    @Fragment.operators_relocated f ⟨f.text, offset⟩ _ rfl h
  obtain rfl := List.map_eq_nil_iff.mp hplaces
  obtain ⟨all, hall, hrest⟩ := bind_eq_ok.mp hfound
  obtain ⟨⟨⟩, hcheck, hall'⟩ := bind_eq_ok.mp hrest
  obtain rfl := Except.ok.inj hall'
  obtain ⟨marks, hwalk, hscan⟩ := Fragment.walk_of_check hcheck
  rw [hscan] at hall
  refine ⟨marks, hwalk, ?_, fun m _ hm => passes_of_scan hall hm⟩
  exact significant_of_last (ScanState.map_char_of_walk hwalk) hlast hblank

/-- White space behind such a fragment does not count. -/
theorem settles_trimStart {f : Fragment} (h : f.trim.operators = .ok [])
    (hlast : f.trim.text.getLast? = some c) : Settles .initial c (Text.trimStart f.text) := by
  have hsettles : Settles .initial c (Text.trim f.text) :=
    settles_of_operators h hlast ((Text.trimmed_trim _).last c hlast)
  obtain ⟨blanks, hblanks, hall⟩ := Text.exists_trimEnd_append (Text.trimStart f.text)
  rw [hblanks]
  exact hsettles.append_blank hall

/-- The context in front of an operator that is written behind an operand and a space. -/
theorem Settles.exists_marks (h : Settles context last a) (offset : Nat) :
    ∃ marks, ScanState.initial.walk true offset (a ++ [' ']) = some (marks, .initial) ∧
      marks.length = a.length + 1 ∧ Passes context marks ∧
      context.over marks = ⟨some last, some ' ', []⟩ := by
  obtain ⟨marks, hwalk, hsignificant, hpasses⟩ := h offset
  have hspace := @walk_topMarks [' '] (by simpa using ordinary_space) (offset + Text.byteSize a)
  have hblank : Text.isBlank ' ' = true := by decide
  refine ⟨_, ScanState.walk_append hwalk hspace, ?_, hpasses _ rfl hblank, ?_⟩
  · rw [List.length_append, ScanState.length_of_walk hwalk, length_topMarks]
    rfl
  · rw [over_append, ← hsignificant]
    rfl

/-! ## Operands in a row -/

/-- The context in which an operand starts behind an operator. -/
def Context.behind (op : Operator) : Context :=
  (Context.afterOperator op).afterBlank ' '

theorem followsOperand_behind (op : Operator) : (Context.behind op).followsOperand = false := by
  rcases op with op | op | op <;> cases op <;> rfl

theorem PassesOver.of_unbroken (h : Unbroken a) (op : Operator) :
    PassesOver (.behind op) a :=
  h.passesOver (followsOperand_behind op) rfl

/-- The text of operands in a row, each but the first behind an operator. -/
def chainChars : List Char → List (Operator × List Char) → List Char
  | a, [] => a
  | a, (op, b) :: rest => a ++ (op.chars ++ chainChars b rest)

/-- The operators between operands in a row, and how many characters stand before each. -/
def chainPlaces (index : Nat) : List Char → List (Operator × List Char) → List (Operator × Nat)
  | _, [] => []
  | a, (op, b) :: rest =>
    (op, index + a.length + 1) ::
      chainPlaces (index + a.length + 1 + op.symbol.length + 1) b rest

/-- No operator is found in the operands of a row, and every operator is one that is found
behind its left operand. -/
def Chained (context : Context) : List Char → List (Operator × List Char) → Prop
  | a, [] => PassesOver context a
  | a, (op, b) :: rest =>
    (∃ last, Settles context last a ∧ ∀ x, op = .arithmetic x → isOperatorChar last = false) ∧
      Chained (.behind op) b rest

/-- **The search finds the operators of a row, and no others.** -/
theorem scan_chain {tail : List (Operator × List Char)} (h : Chained context a tail)
    (index offset : Nat) : ∃ marks found,
      ScanState.initial.walk true offset (chainChars a tail) = some (marks, .initial) ∧
      scan context index marks = .ok found ∧ found.map place = chainPlaces index a tail := by
  induction tail generalizing context a index offset with
  | nil =>
    obtain ⟨marks, hwalk, hpasses⟩ : ∃ marks, _ ∧ Passes context marks := h offset
    have hend := hpasses index []
    rw [List.append_nil] at hend
    exact ⟨marks, [], hwalk, hend, rfl⟩
  | cons p rest ih =>
    obtain ⟨op, b⟩ := p
    obtain ⟨⟨last, hsettles, hop⟩, hrest⟩ := h
    obtain ⟨marks, hwalk, hlength, hpasses, hcontext⟩ := hsettles.exists_marks offset
    set place := offset + Text.byteSize (a ++ [' ']) with hplace
    have hsymbol := walk_topMarks (ordinary_symbol op) place
    set behind := place + Text.byteSize op.symbol.toList with hbehind
    have hspace := @walk_topMarks [' '] (by simpa using ordinary_space) behind
    obtain ⟨later, found, hlater, hfound, hplaces⟩ := ih hrest
      (index + a.length + 1 + op.symbol.length + 1) (behind + Text.byteSize [' '])
    have htext : chainChars a ((op, b) :: rest) =
        (a ++ [' ']) ++ (op.symbol.toList ++ ([' '] ++ chainChars b rest)) := by
      simp [chainChars, Operator.chars]
    have hadmits : ∀ x, op = .arithmetic x → (⟨some last, some ' ', []⟩ : Context).Admits :=
      fun x hx => ⟨by simp [Context.followsOperand, hop x hx], rfl, by simp⟩
    have hscan := hpasses index
      (topMarks place op.symbol.toList ++ (topMarks behind [' '] ++ later))
    rw [hcontext, hlength, scan_symbol op hadmits _ _ (by simp [topMarks])] at hscan
    -- the space behind the symbol is passed over, and then the next operand starts
    have hbehindSymbol : scan (.afterOperator op) (index + (a.length + 1) + op.symbol.length)
        (topMarks behind [' '] ++ later) = .ok found := by
      rw [topMarks, List.cons_append, scan]
      exact hfound
    rw [hbehindSymbol] at hscan
    rw [htext]
    refine ⟨_, _, ScanState.walk_append hwalk (ScanState.walk_append hsymbol
      (ScanState.walk_append hspace hlater)), hscan, ?_⟩
    rw [List.map_cons, hplaces]
    rfl

end Occurrence

/-- **The operators of a text are those between its operands.** -/
theorem Fragment.operators_chain {f : Fragment} {tail : List (Operator × List Char)}
    (hf : f.text = chainChars a tail) (h : Chained .initial a tail) :
    ∃ found, f.operators = .ok found ∧ found.map place = chainPlaces 0 a tail := by
  obtain ⟨marks, found, hwalk, hfound, hplaces⟩ := scan_chain h 0 f.offset
  rw [← hf] at hwalk
  refine ⟨found, ?_, hplaces⟩
  simp only [operators, Fragment.scan_of_walk hwalk, hfound, Scan.check, bind, Except.bind, pure,
    Except.pure]

/-- **Between two operands, an operator is found**, unless it is an arithmetic one
behind an operand that ends like an operator. -/
theorem Fragment.operators_binary {f : Fragment} {op : Operator}
    (hf : f.text = a ++ (op.chars ++ b)) (ha : Settles .initial c a)
    (hop : ∀ x, op = .arithmetic x → isOperatorChar c = false) (hb : PassesOver (.behind op) b) :
    ∃ o, f.operators = .ok [o] ∧ o.op = op ∧ o.index = a.length + 1 := by
  have hchained : Chained .initial a [(op, b)] := ⟨⟨c, ha, hop⟩, hb⟩
  obtain ⟨found, hfound, hplaces⟩ := Fragment.operators_chain hf hchained
  obtain ⟨o, rest, rfl, ho, hrest⟩ := List.map_eq_cons_iff.mp hplaces
  obtain rfl := List.map_eq_nil_iff.mp hrest
  obtain ⟨hop, hindex⟩ : o.op = op ∧ o.index = 0 + a.length + 1 := Prod.mk.inj ho
  exact ⟨o, hfound, hop, by omega⟩

/-! ## Operators that are not found -/

/-- An arithmetic operator behind an operand that ends like an operator is not found, so
both operands and the operator are passed over as one text. -/
theorem Occurrence.Settles.passes_swallowed {context : Context} (op : ArithmeticOp)
    (ha : Settles context c a) (hb : Unbroken b) (hc : isOperatorChar c = true) :
    PassesOver context (a ++ ((Operator.arithmetic op).chars ++ b)) := by
  intro offset
  obtain ⟨marks, hwalk, -, hpasses, hcontext⟩ := ha.exists_marks offset
  set symbol := firstChar (.arithmetic op) with hsymbol
  have hchars : (Operator.arithmetic op).chars = [' '] ++ [symbol, ' '] := by
    rw [Operator.chars, toList_symbol]
    rfl
  have hordinary : ∀ d ∈ [symbol, ' '], Ordinary true d := fun d hd =>
    ordinary_operatorChars (.arithmetic op) d (hchars ▸ List.mem_append_right _ hd)
  have hmiddle := walk_topMarks hordinary (offset + Text.byteSize (a ++ [' ']))
  set between := topMarks (offset + Text.byteSize (a ++ [' '])) [symbol, ' '] with hbetween
  have hopChar : isOperatorChar symbol = true := by cases op <;> decide
  have hcontext' : ((context.over marks).over between) = ⟨some symbol, some ' ', []⟩ := by
    rw [hcontext]
    cases op <;> rfl
  -- no operand seems to end before the symbol, so it is taken for a sign and passed over
  have hswallowed : Passes (context.over marks) between := by
    rw [hcontext]
    refine Passes.cons (Passes.of_ignores fun _ => ignores_of_start ?_ ?_)
      (Passes.of_ignores fun _ => ignores_of_not_operator not_isOperatorChar_space)
    · cases op <;> simp [hsymbol, firstChar]
    · simp [Context.followsOperand, hc]
  have hstart' : ((context.over marks).over between).followsOperand = false := by
    rw [hcontext']
    simp [Context.followsOperand, hopChar]
  obtain ⟨later, hlater, hpasses'⟩ := hb ((context.over marks).over between)
    (offset + Text.byteSize (a ++ [' ']) + Text.byteSize [symbol, ' ']) hstart' (by rw [hcontext'])
  refine ⟨_, ?_, hpasses.append (hswallowed.append hpasses')⟩
  have htext : a ++ ((Operator.arithmetic op).chars ++ b) =
      (a ++ [' ']) ++ ([symbol, ' '] ++ b) := by
    simp [hchars]
  rw [htext]
  exact ScanState.walk_append hwalk (ScanState.walk_append hmiddle hlater)

/-- Such a text is unbroken if its operands are. -/
theorem Unbroken.of_swallowed (op : ArithmeticOp) (ha : Unbroken a) (hb : Unbroken b)
    (hlast : a.getLast? = some c) (hblank : Text.isBlank c = false)
    (hc : isOperatorChar c = true) : Unbroken (a ++ ((Operator.arithmetic op).chars ++ b)) :=
  fun _ offset hstart htoken =>
    ((ha.passesOver hstart htoken).settles hlast hblank).passes_swallowed op hb hc offset

end PathQuery
