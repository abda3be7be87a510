import PathQuery.Path.Operators
import PathQuery.Path.Printer
import PathQuery.Proofs.Path.Nesting
import PathQuery.Proofs.Text.NumeralText
import PathQuery.Proofs.Text.Trimming

/-! # Where the search finds operators

The search for operators passes over a text if none of its characters begins one.  A
`Quiet` text is passed over wherever it stands, an `Unbroken` one at the places where an
operand may start: a numeral, whose minus would be an operator behind an operand
(`Numeral.Spells.unbroken`).  The symbol of an operator is found behind an operand and a
space (`scan_symbol`).
-/

namespace PathQuery
namespace Occurrence

/-! ## Marks that begin no operator -/

/-- The context behind a mark that begins no operator. -/
def Context.next (context : Context) (m : Mark) : Context :=
  if m.plain && Text.isBlank m.char then context.afterBlank m.char else context.afterChar m.char

/-- The context behind marks that begin no operator. -/
def Context.over (context : Context) (marks : List Mark) : Context :=
  marks.foldl Context.next context

/-- The search for operators finds none among the marks. -/
def Passes (context : Context) (marks : List Mark) : Prop :=
  ∀ index rest, scan context index (marks ++ rest) =
    scan (context.over marks) (index + marks.length) rest

variable {context : Context} {m : Mark} {marks marks' : List Mark} {c : Char}

theorem Passes.nil : Passes context [] := fun _ _ => rfl

theorem Passes.append (h : Passes context marks) (h' : Passes (context.over marks) marks') :
    Passes context (marks ++ marks') := by
  intro index rest
  rw [List.append_assoc, h, h', List.length_append, Nat.add_assoc, Context.over, Context.over,
    Context.over, List.foldl_append]

theorem Passes.cons (h : Passes context [m]) (h' : Passes (context.next m) marks) :
    Passes context (m :: marks) :=
  Passes.append h h'

/-- No operator begins at a plain top-level character with this context. -/
def Context.Ignores (context : Context) (c : Char) : Prop :=
  ∀ next, context.operatorAt c next = .ok none

theorem Passes.of_ignores (h : m.isTop = true → context.Ignores m.char) : Passes context [m] := by
  intro index rest
  rw [List.singleton_append, scan]
  change _ = scan (context.next m) (index + 1) rest
  unfold Context.next
  split
  · rfl
  · split
    · rfl
    · rename_i htop
      rw [h (by simpa using htop)]

/-- A mark that begins no operator for the sake of the mark behind it. -/
theorem Passes.cons_of_next {next : Mark}
    (h : context.operatorAt m.char (some next.char) = .ok none)
    (h' : Passes (context.next m) (next :: marks)) : Passes context (m :: next :: marks) := by
  intro index rest
  have hone : scan context index (m :: (next :: marks ++ rest)) =
      scan (context.next m) (index + 1) (next :: marks ++ rest) := by
    rw [scan]
    unfold Context.next
    split
    · rfl
    · split
      · rfl
      · simp [h]
  rw [List.cons_append, hone, h', Nat.add_assoc, Nat.add_comm 1]
  rfl

theorem Passes.of_forall
    (h : ∀ context : Context, ∀ m ∈ marks, m.isTop = true → context.Ignores m.char) :
    Passes context marks := by
  induction marks generalizing context with
  | nil => exact Passes.nil
  | cons m rest ih =>
    exact Passes.cons (Passes.of_ignores (h _ m (List.mem_cons_self ..)))
      (ih fun context m hm => h context m (List.mem_cons_of_mem _ hm))

theorem ignores_of_not_operator (h : isOperatorChar c = false) : context.Ignores c := by
  intro next
  simp [isOperatorChar] at h
  simp [Context.operatorAt, h]

/-- Where an operand may start, a sign is part of it. -/
theorem ignores_of_start (hc : isOperatorChar c = false ∨ c = '+' ∨ c = '-' ∨ c = '*' ∨ c = '/' ∨
    c = '%') (h : context.followsOperand = false) : context.Ignores c := by
  intro next
  rcases hc with hc | rfl | rfl | rfl | rfl | rfl
  · exact ignores_of_not_operator hc next
  all_goals simp [Context.operatorAt, h]

/-- Behind a dot, a star is a wildcard. -/
theorem ignores_wildcard (h : context.last = some '.') : context.Ignores '*' := by
  intro next
  simp [Context.operatorAt, h]

/-- A sign behind the start of an exponent belongs to it. -/
theorem ignores_exponentSign (hc : c = '+' ∨ c = '-')
    (h : isExponentStart context.token = true) : context.Ignores c := by
  intro next
  rcases hc with rfl | rfl <;> simp [Context.operatorAt, h]

/-! ## What the context says behind marks -/

theorem over_cons : context.over (m :: marks) = (context.next m).over marks := rfl

theorem over_append : context.over (marks ++ marks') = (context.over marks).over marks' :=
  List.foldl_append

theorem significant_over (h : Text.isBlank m.char = false) :
    (context.over (marks ++ [m])).significant = some m.char := by
  rw [over_append, over_cons]
  simp [Context.over, Context.next, h, Context.afterChar]

theorem token_over (h : ∀ m ∈ marks, Text.isBlank m.char = false) :
    (context.over marks).token = (marks.map Mark.char).reverse ++ context.token := by
  induction marks generalizing context with
  | nil => rfl
  | cons m rest ih =>
    have hm : context.next m = context.afterChar m.char := by
      simp [Context.next, h m (List.mem_cons_self ..)]
    rw [over_cons, ih fun m hm => h m (List.mem_cons_of_mem _ hm), hm]
    simp [Context.afterChar]

end Occurrence

/-! ## Texts without an operator -/

open Occurrence

/-- The search for operators passes over the text wherever it stands. -/
def Quiet (text : List Char) : Prop :=
  ∀ (context : Context) (offset : Nat), ∃ marks,
    ScanState.initial.walk true offset text = some (marks, .initial) ∧ Passes context marks

/-- The search for operators passes over the text where an operand may start. -/
def Unbroken (text : List Char) : Prop :=
  ∀ (context : Context) (offset : Nat), context.followsOperand = false → context.token = [] →
    ∃ marks, ScanState.initial.walk true offset text = some (marks, .initial) ∧
      Passes context marks

variable {text a b : List Char} {c : Char}

theorem Quiet.unbroken (h : Quiet text) : Unbroken text :=
  fun context offset _ _ => h context offset

theorem Quiet.nil : Quiet [] := fun _ _ => ⟨[], rfl, Passes.nil⟩

theorem Quiet.append (ha : Quiet a) (hb : Quiet b) : Quiet (a ++ b) := by
  intro context offset
  obtain ⟨marks, hwalk, hpasses⟩ := ha context offset
  obtain ⟨marks', hwalk', hpasses'⟩ := hb (context.over marks) (offset + Text.byteSize a)
  exact ⟨marks ++ marks', ScanState.walk_append hwalk hwalk', hpasses.append hpasses'⟩

theorem Quiet.flatMap {α : Type} {f : α → List Char} {list : List α}
    (h : ∀ x ∈ list, Quiet (f x)) : Quiet (list.flatMap f) := by
  induction list with
  | nil => exact Quiet.nil
  | cons x rest ih =>
    rw [List.flatMap_cons]
    exact (h x (List.mem_cons_self ..)).append (ih fun y hy => h y (List.mem_cons_of_mem _ hy))

/-- A flat text without operator characters is quiet. -/
theorem Flat.quiet (h : Flat true (fun c => isOperatorChar c = false) text) : Quiet text := by
  intro context offset
  obtain ⟨marks, hwalk, hmarks⟩ := h [] [] offset
  refine ⟨marks, hwalk, Passes.of_forall fun context m hm htop => ?_⟩
  simp only [Mark.isTop, Bool.and_eq_true] at htop
  exact ignores_of_not_operator ((hmarks m hm).2.2 htop.1.1)

theorem not_isOperatorChar_closing : isOperatorChar ']' = false ∧ isOperatorChar ')' = false := by
  decide

theorem Quiet.bracketed (h : Closed true (fun _ => True) text) :
    Quiet ('[' :: (text ++ [']'])) := by
  intro context offset
  obtain ⟨inner, hwalk, -, hinner⟩ := h.walk_bracketed [] [] offset
  refine ⟨_, hwalk, Passes.of_forall fun context m hm htop => ?_⟩
  simp only [Mark.isTop, Bool.and_eq_true, beq_iff_eq] at htop
  rcases List.mem_cons.mp hm with rfl | hm
  · simp at htop
  · rcases List.mem_append.mp hm with hm | hm
    · exact absurd htop.1.2 (Nat.ne_of_gt (hinner m hm).1)
    · rw [List.mem_singleton.mp hm]
      exact ignores_of_not_operator not_isOperatorChar_closing.1

theorem Quiet.grouped (h : Closed true (fun _ => True) text) :
    Quiet ('(' :: (text ++ [')'])) := by
  intro context offset
  obtain ⟨inner, hwalk, -, hinner⟩ := h.walk_grouped [] [] offset
  refine ⟨_, hwalk, Passes.of_forall fun context m hm htop => ?_⟩
  simp only [Mark.isTop, Bool.and_eq_true, beq_iff_eq] at htop
  rcases List.mem_cons.mp hm with rfl | hm
  · simp at htop
  · rcases List.mem_append.mp hm with hm | hm
    · exact absurd htop.2 (Nat.ne_of_gt (hinner m hm).2)
    · rw [List.mem_singleton.mp hm]
      exact ignores_of_not_operator not_isOperatorChar_closing.2

/-! ## Top-level characters one by one -/

/-- The marks of characters that mean nothing to the scanner, outside everything. -/
def topMarks (offset : Nat) : List Char → List Mark
  | [] => []
  | c :: rest => ⟨c, offset, true, 0, 0⟩ :: topMarks (offset + c.utf8Size) rest

theorem walk_topMarks (h : ∀ c ∈ text, Ordinary true c) (offset : Nat) :
    ScanState.initial.walk true offset text = some (topMarks offset text, .initial) := by
  induction text generalizing offset with
  | nil => rfl
  | cons c rest ih =>
    have hstep : ScanState.initial.step true offset c = .ok (.initial, true) :=
      ScanState.step_ordinary (h c (List.mem_cons_self ..))
    exact ScanState.walk_cons hstep (ih (fun d hd => h d (List.mem_cons_of_mem _ hd)) _)

theorem ordinary_of_operatorChar (hc : isOperatorChar c = true) (hparen : c ≠ '(') :
    Ordinary true c := by
  simp [isOperatorChar, hparen] at hc
  rcases hc with rfl | rfl | rfl | rfl | rfl | rfl | rfl | rfl | rfl | rfl | rfl <;>
    decide

/-! ## Numerals -/

/-- Letters and digits mean nothing, neither to the scanner nor to the search for
operators. -/
theorem plain_of_isAlphanum (h : c.isAlphanum = true) :
    Ordinary true c ∧ isOperatorChar c = false := by
  constructor
  · refine ⟨?_, ?_, ?_, ?_, ?_, fun _ => ⟨?_, ?_⟩⟩ <;> rintro rfl <;> simp at h
  · cases hop : isOperatorChar c with
    | false => rfl
    | true =>
      simp [isOperatorChar] at hop
      rcases hop with rfl | rfl | rfl | rfl | rfl | rfl | rfl | rfl | rfl | rfl | rfl | rfl <;>
        simp at h

theorem isAlphanum_of_isDigit (h : c.isDigit = true) : c.isAlphanum = true := by
  rw [Char.isAlphanum, h, Bool.or_true]

theorem ordinary_of_isDigit (h : c.isDigit = true) : Ordinary true c :=
  (plain_of_isAlphanum (isAlphanum_of_isDigit h)).1

theorem isOperatorChar_of_isDigit (h : c.isDigit = true) : isOperatorChar c = false :=
  (plain_of_isAlphanum (isAlphanum_of_isDigit h)).2

theorem isBlank_of_isDigit (h : c.isDigit = true) : Text.isBlank c = false := by
  cases hblank : Text.isBlank c with
  | false => rfl
  | true =>
    simp only [Text.isBlank, Bool.or_eq_true, Bool.and_eq_true, decide_eq_true_eq,
      beq_iff_eq] at hblank
    simp only [Char.isDigit, ge_iff_le, Bool.and_eq_true, decide_eq_true_eq,
      UInt32.le_iff_toNat_le] at h
    have hlow : 48 ≤ c.toNat := h.1
    have hhigh : c.toNat ≤ 57 := h.2
    omega

/-- The characters of a mantissa. -/
def IsMantissa (text : List Char) : Prop :=
  (∃ c rest, text = c :: rest ∧ c.isDigit = true) ∧ ∀ c ∈ text, c.isDigit = true ∨ c = '.'

theorem IsMantissa.ordinary (h : IsMantissa text) : ∀ c ∈ text, Ordinary true c := by
  intro c hc
  rcases h.2 c hc with hc | rfl
  · exact ordinary_of_isDigit hc
  · decide

theorem IsMantissa.not_isBlank (h : IsMantissa text) : ∀ c ∈ text, Text.isBlank c = false := by
  intro c hc
  rcases h.2 c hc with hc | rfl
  · exact isBlank_of_isDigit hc
  · decide

theorem IsMantissa.not_isOperatorChar (h : IsMantissa text) :
    ∀ c ∈ text, isOperatorChar c = false := by
  intro c hc
  rcases h.2 c hc with hc | rfl
  · exact isOperatorChar_of_isDigit hc
  · decide

/-- The letter behind a mantissa, with or without a minus before it, starts an exponent. -/
theorem isExponentStart_mantissa (h : IsMantissa text) {sign : List Char} {letter : Char}
    (hsign : sign = [] ∨ sign = ['-']) (hletter : letter = 'e' ∨ letter = 'E') :
    isExponentStart (letter :: (sign ++ text).reverse) = true := by
  obtain ⟨⟨c, rest, rfl, hdigit⟩, hall⟩ := h
  have hminus : (Numeral.readMinus (sign ++ c :: rest)).2 = c :: rest := by
    rcases hsign with rfl | rfl
    · unfold Numeral.readMinus
      split
      · rename_i tail heq
        obtain rfl : c = '-' := (List.cons.inj heq).1
        simp at hdigit
      · rfl
    · rfl
  have hchars : ((c :: rest).all fun d => d.isDigit || d == '.') = true := by
    simpa only [List.all_eq_true, Bool.or_eq_true, beq_iff_eq] using hall
  rw [isExponentStart, List.reverse_reverse, hminus]
  simp [hdigit] at hchars ⊢
  exact ⟨hletter, hchars⟩

theorem topMarks_append (offset : Nat) :
    topMarks offset (a ++ b) = topMarks offset a ++ topMarks (offset + Text.byteSize a) b := by
  induction a generalizing offset with
  | nil => rfl
  | cons c rest ih => simp [topMarks, ih, Nat.add_assoc]

theorem char_mem_of_mem_topMarks {offset : Nat} {m : Mark} (h : m ∈ topMarks offset text) :
    m.char ∈ text := by
  induction text generalizing offset with
  | nil => simp [topMarks] at h
  | cons c rest ih =>
    rcases List.mem_cons.mp h with rfl | h
    · exact List.mem_cons_self ..
    · exact List.mem_cons_of_mem _ (ih h)

theorem passes_topMarks {context : Context} {offset : Nat}
    (h : ∀ c ∈ text, isOperatorChar c = false) : Passes context (topMarks offset text) :=
  Passes.of_forall fun _ _ hm _ => ignores_of_not_operator (h _ (char_mem_of_mem_topMarks hm))

theorem map_char_topMarks (offset : Nat) : (topMarks offset text).map Mark.char = text := by
  induction text generalizing offset with
  | nil => rfl
  | cons c rest ih => rw [topMarks, List.map_cons, ih]

theorem length_topMarks (offset : Nat) : (topMarks offset text).length = text.length := by
  have hlength := congrArg List.length (@map_char_topMarks text offset)
  rwa [List.length_map] at hlength

/-- What is written before the exponent of a numeral, without its sign. -/
theorem Numeral.isMantissa {n : Numeral} (hwhole : n.whole ≠ []) (hascii : n.isAscii = true) :
    IsMantissa (n.whole ++ Numeral.fractionChars n.fraction) := by
  obtain ⟨hdigits, hfraction, -⟩ := Numeral.digits_of_isAscii hascii
  obtain ⟨c, rest, hchars⟩ := List.exists_cons_of_ne_nil hwhole
  refine ⟨⟨c, rest ++ Numeral.fractionChars n.fraction, by rw [hchars]; rfl,
    hdigits c (hchars ▸ List.mem_cons_self ..)⟩, fun d hd => ?_⟩
  rcases List.mem_append.mp hd with hd | hd
  · exact Or.inl (hdigits d hd)
  · unfold Numeral.fractionChars at hd
    split at hd
    · simp at hd
    · rcases List.mem_cons.mp hd with rfl | hd
      · exact Or.inr rfl
      · exact Or.inl (hfraction d hd)

theorem eq_of_mem_sign {sign : List Char} (hsign : sign = [] ∨ sign = ['+'] ∨ sign = ['-'])
    (hc : c ∈ sign) : c = '+' ∨ c = '-' := by
  rcases hsign with rfl | rfl | rfl
  · exact absurd hc List.not_mem_nil
  · exact Or.inl (List.mem_singleton.mp hc)
  · exact Or.inr (List.mem_singleton.mp hc)

theorem ordinary_of_sign {sign : List Char} (hsign : sign = [] ∨ sign = ['+'] ∨ sign = ['-']) :
    ∀ c ∈ sign, Ordinary true c := by
  intro c hc
  rcases eq_of_mem_sign hsign hc with rfl | rfl <;> decide

theorem isBlank_of_sign {sign : List Char} (hsign : sign = [] ∨ sign = ['+'] ∨ sign = ['-']) :
    ∀ c ∈ sign, Text.isBlank c = false := by
  intro c hc
  rcases eq_of_mem_sign hsign hc with rfl | rfl <;> decide

/-- A sign is passed over if it begins no operator. -/
theorem passes_sign {context : Context} {sign : List Char}
    (hsign : sign = [] ∨ sign = ['+'] ∨ sign = ['-'])
    (h : ∀ c, c = '+' ∨ c = '-' → context.Ignores c) (offset : Nat) :
    Passes context (topMarks offset sign) := by
  rcases hsign with rfl | rfl | rfl
  · exact Passes.nil
  · exact Passes.of_ignores fun _ => h '+' (Or.inl rfl)
  · exact Passes.of_ignores fun _ => h '-' (Or.inr rfl)

section
variable {e : Option (Bool × List Char)} (h : Numeral.SpellsExponent text e)
  (hdigits : ∀ d, e = some d → ∀ c ∈ d.2, c.isDigit = true)
include h hdigits

theorem Numeral.SpellsExponent.ordinary : ∀ c ∈ text, Ordinary true c := by
  intro c hc
  cases e with
  | none =>
    obtain rfl : text = [] := h
    exact absurd hc List.not_mem_nil
  | some e =>
    obtain ⟨letter, sign, rfl, -, hletter, hsign⟩ := h
    rcases List.mem_cons.mp hc with rfl | hc
    · rcases hletter with rfl | rfl <;> decide
    · rcases List.mem_append.mp hc with hc | hc
      · exact ordinary_of_sign hsign.cases c hc
      · exact ordinary_of_isDigit (hdigits e rfl c hc)

/-- An exponent is passed over with its sign where its letter starts one. -/
theorem Numeral.SpellsExponent.passes {context : Context}
    (hstart : ∀ letter, letter = 'e' ∨ letter = 'E' →
      isExponentStart (letter :: context.token) = true) (offset : Nat) :
    Passes context (topMarks offset text) := by
  cases e with
  | none =>
    obtain rfl : text = [] := h
    exact Passes.nil
  | some e =>
    obtain ⟨letter, sign, rfl, -, hletter, hsign⟩ := h
    have hplain : isOperatorChar letter = false := by
      rcases hletter with rfl | rfl <;> decide
    have htoken : (context.next ⟨letter, offset, true, 0, 0⟩).token = letter :: context.token := by
      rcases hletter with rfl | rfl <;> rfl
    refine Passes.cons (Passes.of_ignores fun _ => ignores_of_not_operator hplain) ?_
    rw [topMarks_append]
    refine (passes_sign hsign.cases (fun c hc => ignores_exponentSign hc ?_) _).append
      (passes_topMarks fun c hc => isOperatorChar_of_isDigit (hdigits e rfl c hc))
    rw [htoken]
    exact hstart letter hletter

end

theorem Numeral.Spells.ordinary {n : Numeral} (h : n.Spells text) (hascii : n.isAscii = true) :
    ∀ c ∈ text, Ordinary true c := by
  obtain ⟨hwhole, exponent, hexponent, rfl⟩ := h
  obtain ⟨-, -, hdigits⟩ := Numeral.digits_of_isAscii hascii
  have hsign : ∀ c ∈ (if n.negative then ['-'] else []), Ordinary true c := by
    split
    · exact ordinary_of_sign (.inr (.inr rfl))
    · exact ordinary_of_sign (.inl rfl)
  intro c hc
  rcases List.mem_append.mp hc with hc | hc
  · exact hsign c hc
  · exact (List.mem_append.mp hc).elim ((Numeral.isMantissa hwhole hascii).ordinary c)
      (hexponent.ordinary hdigits c)

/-- **A numeral is passed over where an operand may start**, its signs included, in every form
that is read. -/
theorem Numeral.Spells.unbroken {n : Numeral} (h : n.Spells text) (hascii : n.isAscii = true) :
    Unbroken text := by
  have hordinary := h.ordinary hascii
  obtain ⟨hwhole, exponent, hexponent, rfl⟩ := h
  intro context offset hstart htoken
  obtain ⟨-, -, hdigits⟩ := Numeral.digits_of_isAscii hascii
  have hm := Numeral.isMantissa hwhole hascii
  have hminus : (if n.negative then ['-'] else []) = [] ∨
      (if n.negative then ['-'] else []) = ['-'] := by
    split <;> simp
  generalize n.whole ++ Numeral.fractionChars n.fraction = mantissa at hm hordinary ⊢
  generalize (if n.negative then ['-'] else []) = sign at hminus hordinary ⊢
  have hsign : sign = [] ∨ sign = ['+'] ∨ sign = ['-'] := hminus.imp_right Or.inr
  refine ⟨_, walk_topMarks hordinary offset, ?_⟩
  rw [topMarks_append, topMarks_append]
  -- a minus where an operand may start is a sign, and digits and the point are no operators
  refine (passes_sign hsign (fun c hc => ignores_of_start ?_ hstart) offset).append
    ((passes_topMarks hm.not_isOperatorChar).append (hexponent.passes hdigits ?_ _))
  · rcases hc with rfl | rfl <;> simp
  · intro letter hletter
    -- the token before the letter is the mantissa with its minus
    have hblank : ∀ m ∈ topMarks offset (sign ++ mantissa), Text.isBlank m.char = false := by
      intro m hmem
      rcases List.mem_append.mp (char_mem_of_mem_topMarks hmem) with hc | hc
      · exact isBlank_of_sign hsign _ hc
      · exact hm.not_isBlank _ hc
    have htokens := @token_over context _ hblank
    rw [map_char_topMarks, htoken, List.append_nil, topMarks_append, over_append] at htokens
    rw [htokens]
    exact isExponentStart_mantissa hm hminus hletter

/-- An unbroken text has no operator. -/
theorem Fragment.operators_unbroken {f : Fragment} (h : Unbroken f.text) :
    f.operators = .ok [] := by
  obtain ⟨marks, hwalk, hpasses⟩ := h .initial f.offset rfl rfl
  have hscan : Occurrence.scan .initial 0 marks = .ok [] := by
    have hend := hpasses 0 []
    rwa [List.append_nil] at hend
  simp [operators, Fragment.scan_of_walk hwalk, hscan, Scan.check, bind, Except.bind, pure,
    Except.pure]

/-! ## Operators and their symbols -/

/-- The first character of an operator. -/
def firstChar : Operator → Char
  | .logical .and => '&'
  | .logical .or => '|'
  | .comparison .eq => '='
  | .comparison .ne => '!'
  | .comparison .lt | .comparison .le => '<'
  | .comparison .gt | .comparison .ge => '>'
  | .arithmetic .add => '+'
  | .arithmetic .subtract => '-'
  | .arithmetic .multiply => '*'
  | .arithmetic .divide => '/'
  | .arithmetic .modulo => '%'

/-- The second character of an operator, if it has one. -/
def secondChar : Operator → List Char
  | .logical .and => ['&']
  | .logical .or => ['|']
  | .comparison .lt | .comparison .gt | .arithmetic _ => []
  | .comparison _ => ['=']

theorem toList_symbol (op : Operator) : op.symbol.toList = firstChar op :: secondChar op := by
  rcases op with op | op | op <;> cases op <;> rfl

theorem isOperatorChar_symbol (op : Operator) :
    ∀ c ∈ op.symbol.toList, isOperatorChar c = true ∧ c ≠ '(' := by
  have hall : (op.symbol.toList.all fun c => isOperatorChar c && c != '(') = true := by
    rw [toList_symbol]
    rcases op with op | op | op <;> cases op <;> rfl
  simpa only [List.all_eq_true, Bool.and_eq_true, bne_iff_ne] using hall

theorem ordinary_symbol (op : Operator) : ∀ c ∈ op.symbol.toList, Ordinary true c :=
  fun c hc => ordinary_of_operatorChar (isOperatorChar_symbol op c hc).1
    (isOperatorChar_symbol op c hc).2

/-- What a found operator consists of is not looked at again. -/
theorem scan_found {context : Context} {op : Operator} {m : Mark} {tail rest : List Mark}
    (htop : m.isTop = true) (hblank : Text.isBlank m.char = false)
    (hop : context.operatorAt m.char ((tail ++ rest).head?.map Mark.char) = .ok (some op))
    (hlength : op.symbol.length = tail.length + 1) (hshort : tail.length ≤ 1) (index : Nat) :
    scan context index (m :: (tail ++ rest)) =
      (scan (.afterOperator op) (index + op.symbol.length) rest).map
        (⟨op, index, m.offset⟩ :: ·) := by
  rw [scan]
  simp only [hblank, Bool.and_false, Bool.false_eq_true, if_false, htop, Bool.not_true, hop]
  match tail with
  | [] => simp [hlength]
  | [next] => simp [hlength]
  | _ :: _ :: _ => simp at hshort

/-- Arithmetic may begin here: an operand stands before, and neither the exponent of a number
nor a wildcard has been begun. -/
structure Occurrence.Context.Admits (context : Context) : Prop where
  operand : context.followsOperand = true
  exponent : isExponentStart context.token = false
  wildcard : context.last ≠ some '.' ∧ context.last ≠ some '['

/-- **An operator is found where it may begin**, whatever stands behind it, unless that makes it
another operator. -/
theorem scan_symbol (op : Operator) {context : Context}
    (hop : ∀ a, op = .arithmetic a → context.Admits) (index offset : Nat)
    {rest : List Mark} (hrest : rest.head?.map Mark.char ≠ some '=') :
    scan context index (topMarks offset op.symbol.toList ++ rest) =
      (scan (.afterOperator op) (index + op.symbol.length) rest).map
        (⟨op, index, offset⟩ :: ·) := by
  have hblank : Text.isBlank (firstChar op) = false := by
    rcases op with op | op | op <;> cases op <;> decide
  rw [toList_symbol, topMarks, List.cons_append]
  refine @scan_found context op ⟨firstChar op, offset, true, 0, 0⟩ _ rest rfl hblank
    ?_ ?_ ?_ index
  · rcases op with op | op | op
    · cases op <;> rfl
    · cases op <;> simp [firstChar, secondChar, topMarks, Context.operatorAt, hrest]
    · obtain ⟨hfollows, hexponent, hwildcard⟩ := hop op rfl
      cases op <;> simp [firstChar, Context.operatorAt, hfollows, hexponent, hwildcard]
  · rw [length_topMarks, ← String.length_toList, toList_symbol, List.length_cons]
  · rw [length_topMarks]
    rcases op with op | op | op <;> cases op <;> decide

theorem ordinary_space : Ordinary true ' ' := by decide

theorem not_isOperatorChar_space : isOperatorChar ' ' = false := by decide

theorem ordinary_operatorChars (op : Operator) : ∀ c ∈ op.chars, Ordinary true c := by
  intro c hc
  rcases List.mem_cons.mp hc with rfl | hc
  · exact ordinary_space
  · rcases List.mem_append.mp hc with hc | hc
    · exact ordinary_symbol op c hc
    · exact List.mem_singleton.mp hc ▸ ordinary_space

end PathQuery
