import PathQuery.Proofs.Outcome
import PathQuery.Query.Evaluator

/-! # Exact arithmetic on integers

Numbers of a document are words of 64 bits, and computations on them are done with integers of
128 bits as long as these hold the result.  An expression over integers has an integer as its
value exactly if, at each of its operators, the result over the integers is one of 128 bits
(`Filter.operand_eq_integer_iff`); otherwise it falls back to floats, or it meets a divisor that
is zero.  So comparisons of such expressions decide the relations of the integers, and no
expression over integers fails in another way (`Filter.operand_exact`).
-/

namespace PathQuery

/-! ## One operation -/

/-- The operation has an exact result over the integers: a quotient is exact, a remainder is
rounded toward zero, and no divisor is zero.  The remainder of the least integer of 128 bits by
`-1` is left out, since the quotient is not one of 128 bits. -/
def ArithmeticOp.Gives (op : ArithmeticOp) (x y z : Int) : Prop :=
  match op with
  | .add => z = x + y
  | .subtract => z = x - y
  | .multiply => z = x * y
  | .divide => y ≠ 0 ∧ x = z * y
  | .modulo => y ≠ 0 ∧ z = x.tmod y ∧
      ¬(x = -0x80000000000000000000000000000000 ∧ y = -1)

/-- The relation of the integers that a comparison is about. -/
def ComparisonOp.Holds (op : ComparisonOp) (x y : Int) : Prop :=
  match op with
  | .eq => x = y
  | .ne => x ≠ y
  | .lt => x < y
  | .le => x ≤ y
  | .gt => y < x
  | .ge => y ≤ x

instance (op : ComparisonOp) (x y : Int) : Decidable (op.Holds x y) :=
  match op with
  | .eq => inferInstanceAs (Decidable (x = y))
  | .ne => inferInstanceAs (Decidable (x ≠ y))
  | .lt => inferInstanceAs (Decidable (x < y))
  | .le => inferInstanceAs (Decidable (x ≤ y))
  | .gt => inferInstanceAs (Decidable (y < x))
  | .ge => inferInstanceAs (Decidable (y ≤ x))

/-- The operation divides. -/
def ArithmeticOp.Divides (op : ArithmeticOp) : Prop :=
  op = .divide ∨ op = .modulo

instance (op : ArithmeticOp) : Decidable op.Divides :=
  inferInstanceAs (Decidable (_ ∨ _))

theorem FitsWord.fitsExact {n : Int} (h : FitsWord n) : Numeric.FitsExact n := by
  unfold FitsWord at h
  unfold Numeric.FitsExact
  omega

namespace Numeric

variable {x y z : Int} {op : ArithmeticOp}

theorem fit_eq_some_iff : fit x = some z ↔ z = x ∧ FitsExact z := by
  unfold fit
  split <;> grind

theorem natAbs_tdiv_le (x : Int) (hy : 2 ≤ y.natAbs) : 2 * (x.tdiv y).natAbs ≤ x.natAbs := by
  rw [Int.natAbs_tdiv]
  have hmul : x.natAbs / y.natAbs * y.natAbs ≤ x.natAbs := Nat.div_mul_le_self ..
  have htwo : x.natAbs / y.natAbs * 2 ≤ x.natAbs / y.natAbs * y.natAbs := Nat.mul_le_mul_left _ hy
  show 2 * (x.natAbs / y.natAbs) ≤ x.natAbs
  omega

/-- A quotient does not fit only if it is that of the least integer and `-1`. -/
theorem fitsExact_tdiv_iff (hx : FitsExact x) (hy : y ≠ 0) :
    FitsExact (x.tdiv y) ↔ ¬(x = -0x80000000000000000000000000000000 ∧ y = -1) := by
  unfold FitsExact at hx ⊢
  by_cases hone : y = 1
  · subst hone
    rw [Int.tdiv_one]
    omega
  · by_cases hminus : y = -1
    · subst hminus
      rw [Int.tdiv_neg, Int.tdiv_one]
      omega
    · have hquotient := natAbs_tdiv_le x (y := y) (by omega)
      omega

theorem fitsExact_tmod (hx : FitsExact x) : FitsExact (x.tmod y) := by
  have hle : (x.tmod y).natAbs ≤ x.natAbs := by
    rw [Int.natAbs_tmod]
    exact Nat.mod_le ..
  unfold FitsExact at hx ⊢
  by_cases hsign : 0 ≤ x
  · have hnonneg := Int.tmod_nonneg y hsign
    omega
  · -- the remainder has the sign of the dividend, so it is not the negated least integer
    have hneg := Int.tmod_nonneg y (a := -x) (by omega)
    rw [Int.neg_tmod] at hneg
    omega

/-- An exact result is an integer of 128 bits that the operation gives. -/
theorem exact_eq_some_iff (hx : FitsExact x) :
    exact op x y = some z ↔ op.Gives x y z ∧ FitsExact z := by
  cases op with
  | add | subtract | multiply => exact fit_eq_some_iff
  | divide =>
    simp only [exact, ArithmeticOp.Gives, Option.ite_none_right_eq_some, fit_eq_some_iff]
    constructor
    · rintro ⟨⟨hy, hrem⟩, rfl, hfits⟩
      exact ⟨⟨hy, (Int.tdiv_mul_cancel (Int.dvd_of_tmod_eq_zero hrem)).symm⟩, hfits⟩
    · rintro ⟨⟨hy, rfl⟩, hfits⟩
      exact ⟨⟨hy, Int.mul_tmod_left ..⟩, (Int.mul_tdiv_cancel z hy).symm, hfits⟩
  | modulo =>
    simp only [exact, ArithmeticOp.Gives, Option.ite_none_right_eq_some, Option.some.injEq]
    constructor
    · rintro ⟨⟨hy, hquotient⟩, rfl⟩
      exact ⟨⟨hy, rfl, (fitsExact_tdiv_iff hx hy).mp hquotient⟩, fitsExact_tmod hx⟩
    · rintro ⟨⟨hy, rfl, hleast⟩, -⟩
      exact ⟨⟨hy, (fitsExact_tdiv_iff hx hy).mpr hleast⟩, rfl⟩

theorem apply_eq_integer_iff {a b : Numeric} {n : Int} :
    a.apply op b = .integer n ↔
      ∃ x y, a = .integer x ∧ b = .integer y ∧ exact op x y = some n := by
  cases a with
  | float => simp [apply]
  | integer x =>
    cases b with
    | float => simp [apply]
    | integer y => cases hexact : exact op x y <;> simp [apply, hexact]

/-- An integer in a computation is one of 128 bits. -/
def InRange : Numeric → Prop
  | .integer n => FitsExact n
  | .float _ => True

theorem InRange.apply {a b : Numeric} (ha : a.InRange) (op : ArithmeticOp) :
    (a.apply op b).InRange := by
  cases hresult : a.apply op b with
  | float => trivial
  | integer n =>
    obtain ⟨x, y, rfl, rfl, hexact⟩ := apply_eq_integer_iff.mp hresult
    exact ((exact_eq_some_iff ha).mp hexact).2

end Numeric

theorem Scalar.arithmetic_number (a b : Numeric) (op : ArithmeticOp) :
    (Scalar.number a).arithmetic op (.number b) =
      if op.Divides ∧ b.isZero then .error (.zeroDivisor op) else .ok (.number (a.apply op b)) :=
  rfl

theorem Scalar.asNumber?_eq_some {s : Scalar} {v : Numeric} :
    s.asNumber? = some v ↔ s = .number v := by
  cases s <;> simp [asNumber?]

/-- A number that arithmetic gives is that of an operation on two numbers. -/
theorem Operand.exists_of_arithmetic {left right : Operand} {op : ArithmeticOp} {v : Numeric}
    (h : left.arithmetic op right = .ok (some (.number v))) :
    ∃ a b, left = some (.number a) ∧ right = some (.number b) ∧ v = a.apply op b := by
  match left, right with
  | none, _ | some _, none => simp [arithmetic] at h
  | some a, some b =>
    obtain ⟨result, hresult, h⟩ := map_eq_ok.mp h
    obtain rfl := Option.some.inj h
    unfold Scalar.arithmetic at hresult
    split at hresult
    · rename_i x y hx hy
      rw [Scalar.asNumber?_eq_some.mp hx, Scalar.asNumber?_eq_some.mp hy]
      split at hresult
      · cases hresult
      · cases hresult
        exact ⟨x, y, rfl, rfl, rfl⟩
    · cases hresult

/-- An operand that is an integer comes from one match, an integer of the document. -/
theorem Operand.exists_of_ofMatches {source : String} {found : List Match} {n : Int}
    (h : ofMatches source found = .ok (some (.number (.integer n)))) :
    ∃ m, found = [m] ∧ ∃ hword : FitsWord n, m.value = .number (.integer n hword) := by
  unfold ofMatches at h
  split at h
  · rename_i m
    refine ⟨m, rfl, ?_⟩
    split at h
    · rename_i s hs
      cases h
      cases hvalue : m.value with
      | number number =>
        rw [hvalue] at hs
        cases number with
        | integer k hword =>
          cases hs
          exact ⟨hword, rfl⟩
        | float => cases hs
      | _ => simp [hvalue, Scalar.ofJson?] at hs
    · cases h
  · cases h

/-- A comparison of integers decides their relation. -/
theorem Scalar.compare_integer (x y : Int) (op : ComparisonOp) :
    (Scalar.number (.integer x)).compare op (.number (.integer y)) = decide (op.Holds x y) := by
  cases op with
  | ne => exact (decide_not ..).symm
  | _ => rfl

/-! ## Expressions -/

namespace Filter

section
variable (limit : Nat) (root : Json) (current : Match)

/-- A constant that is an integer, or a reference to one in the document. -/
inductive LeafOf : Filter → Int → Prop
  | literal (n : Int) (h : FitsWord n) : LeafOf (.literal (.number (.integer n h))) n
  | reference {p : Path} {m : Match} {n : Int} {h : FitsWord n}
      (hp : p.resolve limit root .lenient current = .ok [m])
      (hm : m.value = .number (.integer n h)) : LeafOf (.reference p) n

/-- **The value of an expression over the integers**: each of its operations gives an exact result,
and that is an integer of 128 bits. -/
inductive Denotes : Filter → Int → Prop
  | leaf {f : Filter} {n : Int} (h : LeafOf limit root current f n) : Denotes f n
  | arithmetic {op : ArithmeticOp} {a b : Filter} {x y z : Int} (ha : Denotes a x)
      (hb : Denotes b y) (hgives : op.Gives x y z) (hfits : Numeric.FitsExact z) :
      Denotes (.arithmetic op a b) z

/-- The expression computes with integers. -/
inductive OverIntegers : Filter → Prop
  | leaf {f : Filter} {n : Int} (h : LeafOf limit root current f n) : OverIntegers f
  | arithmetic (op : ArithmeticOp) {a b : Filter} (ha : OverIntegers a) (hb : OverIntegers b) :
      OverIntegers (.arithmetic op a b)

end

/-- The divisors in an expression. -/
def divisors : Filter → List Filter
  | .arithmetic op a b =>
    a.divisors ++ b.divisors ++ if op.Divides then [b] else []
  | _ => []

variable {limit : Nat} {root : Json} {current : Match} {f a b : Filter} {n x y : Int}

theorem mem_divisors_arithmetic {op : ArithmeticOp} {d : Filter} :
    d ∈ (Filter.arithmetic op a b).divisors ↔
      d ∈ a.divisors ∨ d ∈ b.divisors ∨ op.Divides ∧ d = b := by
  simp only [divisors, List.mem_append, or_assoc]
  split <;> simp [*]

theorem operand_arithmetic (op : ArithmeticOp) (a b : Filter) :
    (Filter.arithmetic op a b).operand limit root current = (do
      let left ← a.operand limit root current
      let right ← b.operand limit root current
      left.arithmetic op right) := by
  rw [operand]

theorem LeafOf.operand_eq (h : LeafOf limit root current f n) :
    f.operand limit root current = .ok (some (.number (.integer n))) := by
  cases h with
  | literal => rfl
  | reference hp hm =>
    simp only [operand, hp, bind_eq_ok, Except.ok.injEq, exists_eq_left']
    rw [Operand.ofMatches, hm]
    rfl

theorem LeafOf.fitsExact (h : LeafOf limit root current f n) : Numeric.FitsExact n := by
  cases h with
  | literal _ h => exact h.fitsExact
  | @reference _ _ _ hword _ _ => exact hword.fitsExact

theorem LeafOf.divisors_eq (h : LeafOf limit root current f n) : f.divisors = [] := by
  cases h <;> rfl

theorem Denotes.fitsExact (h : f.Denotes limit root current n) : Numeric.FitsExact n := by
  cases h with
  | leaf h => exact h.fitsExact
  | arithmetic _ _ _ hfits => exact hfits

theorem Denotes.overIntegers (h : f.Denotes limit root current n) :
    f.OverIntegers limit root current := by
  induction h with
  | leaf h => exact .leaf h
  | arithmetic _ _ _ _ iha ihb => exact .arithmetic _ iha ihb

/-- The outcome of an operation on two numbers. -/
theorem operand_arithmetic_of_numbers {v w : Numeric} (op : ArithmeticOp)
    (ha : a.operand limit root current = .ok (some (.number v)))
    (hb : b.operand limit root current = .ok (some (.number w))) :
    (Filter.arithmetic op a b).operand limit root current =
      if op.Divides ∧ w.isZero then .error (.zeroDivisor op)
      else .ok (some (.number (v.apply op w))) := by
  rw [operand_arithmetic, ha, hb]
  show (Scalar.arithmetic _ op _).map some = _
  rw [Scalar.arithmetic_number]
  split <;> rfl

theorem Denotes.operand_eq (h : f.Denotes limit root current n) :
    f.operand limit root current = .ok (some (.number (.integer n))) := by
  induction h with
  | leaf h => exact h.operand_eq
  | @arithmetic op a b x y z ha hb hgives hfits iha ihb =>
    have hexact := (Numeric.exact_eq_some_iff ha.fitsExact).mpr ⟨hgives, hfits⟩
    have hzero : ¬(op.Divides ∧ (Numeric.integer y).isZero) := by
      rintro ⟨rfl | rfl, hy⟩ <;> exact hgives.1 (eq_of_beq hy)
    rw [operand_arithmetic_of_numbers op iha ihb, if_neg hzero]
    rw [Numeric.apply_eq_integer_iff.mpr ⟨x, y, rfl, rfl, hexact⟩]

/-- An expression that has an integer as its value has been computed exactly throughout. -/
theorem denotes_of_operand : ∀ (f : Filter) {n : Int},
    f.operand limit root current = .ok (some (.number (.integer n))) →
      f.Denotes limit root current n
  | .literal value, n, h => by
    cases value with
    | number number =>
      cases number with
      | integer m hm =>
        simp only [operand, Scalar.ofLiteral, Numeric.ofNumber, Except.ok.injEq, Option.some.injEq,
          Scalar.number.injEq, Numeric.integer.injEq] at h
        exact h ▸ .leaf (.literal m hm)
      | float => simp [operand, Scalar.ofLiteral, Numeric.ofNumber] at h
    | _ => simp [operand, Scalar.ofLiteral] at h
  | .reference p, n, h => by
    rw [operand, bind_eq_ok] at h
    obtain ⟨found, hp, h⟩ := h
    obtain ⟨m, rfl, _, hm⟩ := Operand.exists_of_ofMatches h
    exact .leaf (.reference hp hm)
  | .arithmetic op a b, n, h => by
    rw [operand_arithmetic, bind_eq_ok] at h
    obtain ⟨left, ha, h⟩ := h
    obtain ⟨right, hb, h⟩ := bind_eq_ok.mp h
    obtain ⟨v, w, rfl, rfl, hresult⟩ := Operand.exists_of_arithmetic h
    obtain ⟨x, y, rfl, rfl, hexact⟩ := Numeric.apply_eq_integer_iff.mp hresult.symm
    have hx := denotes_of_operand a ha
    obtain ⟨hgives, hfits⟩ := (Numeric.exact_eq_some_iff hx.fitsExact).mp hexact
    exact .arithmetic hx (denotes_of_operand b hb) hgives hfits
  | .existence .., _, h | .negation _, _, h | .comparison .., _, h | .logical .., _, h => by
    simp [operand] at h

/-- **The value of an expression is an integer exactly if it is so over the integers**, with an
exact result of 128 bits at each operator. -/
theorem operand_eq_integer_iff :
    f.operand limit root current = .ok (some (.number (.integer n))) ↔
      f.Denotes limit root current n :=
  ⟨denotes_of_operand f, Denotes.operand_eq⟩

theorem holds_comparison (op : ComparisonOp) (ha : a.Denotes limit root current x)
    (hb : b.Denotes limit root current y) :
    (Filter.comparison op a b).holds limit root current = .ok (decide (op.Holds x y)) := by
  rw [holds, ha.operand_eq, hb.operand_eq]
  exact congrArg Except.ok (Scalar.compare_integer x y op)

/-- A divisor of the expression has the value zero. -/
def HasZeroDivisor (limit : Nat) (root : Json) (current : Match) (f : Filter) : Prop :=
  ∃ d ∈ f.divisors, ∃ v : Numeric,
    d.operand limit root current = .ok (some (.number v)) ∧ v.isZero = true

theorem hasZeroDivisor_arithmetic {op : ArithmeticOp} :
    (Filter.arithmetic op a b).HasZeroDivisor limit root current ↔
      a.HasZeroDivisor limit root current ∨ b.HasZeroDivisor limit root current ∨
      op.Divides ∧ ∃ v : Numeric,
        b.operand limit root current = .ok (some (.number v)) ∧ v.isZero = true := by
  unfold HasZeroDivisor
  simp only [mem_divisors_arithmetic]
  constructor
  · rintro ⟨d, ha | hb | ⟨hop, rfl⟩, hzero⟩
    · exact .inl ⟨d, ha, hzero⟩
    · exact .inr (.inl ⟨d, hb, hzero⟩)
    · exact .inr (.inr ⟨hop, hzero⟩)
  · rintro (⟨d, ha, hzero⟩ | ⟨d, hb, hzero⟩ | ⟨hop, hzero⟩)
    · exact ⟨d, .inl ha, hzero⟩
    · exact ⟨d, .inr (.inl hb), hzero⟩
    · exact ⟨b, .inr (.inr ⟨hop, rfl⟩), hzero⟩

/-- Either the expression has no divisor that is zero and a number as its value, an integer of 128
bits or a float, or it has such a divisor and fails with an error about one. -/
theorem OverIntegers.outcome (h : f.OverIntegers limit root current) :
    (¬f.HasZeroDivisor limit root current ∧ ∃ v : Numeric, v.InRange ∧
      f.operand limit root current = .ok (some (.number v))) ∨
    (f.HasZeroDivisor limit root current ∧ ∃ op : ArithmeticOp, op.Divides ∧
      f.operand limit root current = .error (.zeroDivisor op)) := by
  induction h with
  | leaf h =>
    refine .inl ⟨?_, .integer _, h.fitsExact, h.operand_eq⟩
    rintro ⟨d, hd, -⟩
    rw [h.divisors_eq] at hd
    cases hd
  | @arithmetic op a b _ _ iha ihb =>
    rw [hasZeroDivisor_arithmetic]
    rcases iha with ⟨hanone, v, hv, ha⟩ | ⟨hzero, op', hop', ha⟩
    · rcases ihb with ⟨hbnone, w, hw, hb⟩ | ⟨hzero, op', hop', hb⟩
      · by_cases hdivisor : op.Divides ∧ w.isZero = true
        · refine .inr ⟨.inr (.inr ⟨hdivisor.1, w, hb, hdivisor.2⟩), op, hdivisor.1, ?_⟩
          rw [operand_arithmetic_of_numbers op ha hb, if_pos hdivisor]
        · refine .inl ⟨?_, v.apply op w, hv.apply op, ?_⟩
          · rintro (h | h | ⟨hop, w', hw', hzero⟩)
            · exact hanone h
            · exact hbnone h
            · rw [hb] at hw'
              cases hw'
              exact hdivisor ⟨hop, hzero⟩
          · rw [operand_arithmetic_of_numbers op ha hb, if_neg hdivisor]
      · refine .inr ⟨.inr (.inl hzero), op', hop', ?_⟩
        rw [operand_arithmetic, ha, hb]
        rfl
    · refine .inr ⟨.inl hzero, op', hop', ?_⟩
      rw [operand_arithmetic, ha]
      rfl

/-- **Arithmetic on integers is exact.**  The value of an expression is an integer exactly if it is
one over the integers, with an exact result of 128 bits at each operator; a comparison of two such
expressions decides the relation of these integers.  Without the conditions on the results an
expression over integers still has a number as its value, and it fails exactly if one of its
divisors is zero. -/
theorem operand_exact (limit : Nat) (root : Json) (current : Match) :
    (∀ (f : Filter) (n : Int), f.operand limit root current = .ok (some (.number (.integer n))) ↔
      f.Denotes limit root current n) ∧
    (∀ (op : ComparisonOp) (a b : Filter) (x y : Int), a.Denotes limit root current x →
      b.Denotes limit root current y →
      (Filter.comparison op a b).holds limit root current = .ok (decide (op.Holds x y))) ∧
    ∀ f : Filter, f.OverIntegers limit root current →
      ((∃ v : Numeric, v.InRange ∧ f.operand limit root current = .ok (some (.number v))) ∨
        ∃ op : ArithmeticOp, op.Divides ∧
          f.operand limit root current = .error (.zeroDivisor op)) ∧
      ((∃ e, f.operand limit root current = .error e) ↔ f.HasZeroDivisor limit root current) := by
  refine ⟨fun f n => operand_eq_integer_iff, fun op a b x y => holds_comparison op, fun f hf => ?_⟩
  rcases hf.outcome with ⟨hnone, v, hv, hvalue⟩ | ⟨hzero, op, hop, herror⟩
  · refine ⟨.inl ⟨v, hv, hvalue⟩, fun ⟨e, he⟩ => ?_, fun hzero => absurd hzero hnone⟩
    rw [hvalue] at he
    cases he
  · exact ⟨.inr ⟨op, hop, herror⟩, fun _ => hzero, fun _ => ⟨_, herror⟩⟩

/-- The product of the least signed and the greatest unsigned word is exact, and so are its quotient
by the former and the remainder of that by `-4`; the cube of the latter is no integer of 128 bits,
and a difference of equal words is a zero divisor. -/
theorem operand_exact_words :
    let doc : Json := .object
      [("low", .number (.integer (-9223372036854775808) (by decide))),
        ("high", .number (.integer 18446744073709551615 (by decide)))]
    let low : Filter := .reference (.mk .current [] [.mk (.child (.name "low")) []] "@.low")
    let high : Filter := .reference (.mk .current [] [.mk (.child (.name "high")) []] "@.high")
    let minusFour : Filter := .literal (.number (.integer (-4) (by decide)))
    let rest : Filter :=
      .arithmetic .modulo (.arithmetic .divide (.arithmetic .multiply high low) low) minusFour
    let cube : Filter := .arithmetic .multiply high (.arithmetic .multiply high high)
    let ratio : Filter := .arithmetic .divide cube (.arithmetic .subtract low low)
    rest.operand 9 doc ⟨[], doc⟩ = .ok (some (.number (.integer 3))) ∧
      (Filter.comparison .le rest low).holds 9 doc ⟨[], doc⟩ = .ok false ∧
      (∃ v : Numeric, v.InRange ∧ cube.operand 9 doc ⟨[], doc⟩ = .ok (some (.number v))) ∧
      ∃ e, ratio.operand 9 doc ⟨[], doc⟩ = .error e := by
  intro doc low high minusFour rest cube ratio
  obtain ⟨hinteger, hcompare, houtcome⟩ := operand_exact 9 doc ⟨[], doc⟩
  have hlow : low.LeafOf 9 doc ⟨[], doc⟩ (-9223372036854775808) := .reference rfl rfl
  have hhigh : high.LeafOf 9 doc ⟨[], doc⟩ 18446744073709551615 := .reference rfl rfl
  have hproduct : (Filter.arithmetic .multiply high low).Denotes 9 doc ⟨[], doc⟩
      (-170141183460469231722463931679029329920) :=
    .arithmetic (.leaf hhigh) (.leaf hlow) (by simp [ArithmeticOp.Gives]) (by decide)
  have hquotient : (Filter.arithmetic .divide (.arithmetic .multiply high low) low).Denotes 9 doc
      ⟨[], doc⟩ 18446744073709551615 :=
    .arithmetic hproduct (.leaf hlow) (by simp [ArithmeticOp.Gives]) (by decide)
  have hrest : rest.Denotes 9 doc ⟨[], doc⟩ 3 :=
    .arithmetic hquotient (.leaf (.literal (-4) (by decide))) (by simp [ArithmeticOp.Gives])
      (by decide)
  have hzero : (Filter.arithmetic .subtract low low).Denotes 9 doc ⟨[], doc⟩ 0 :=
    .arithmetic (.leaf hlow) (.leaf hlow) (by simp [ArithmeticOp.Gives]) (by decide)
  have hcube : cube.OverIntegers 9 doc ⟨[], doc⟩ :=
    .arithmetic _ (.leaf hhigh) (.arithmetic _ (.leaf hhigh) (.leaf hhigh))
  refine ⟨(hinteger rest 3).mpr hrest, hcompare .le _ _ _ _ hrest (.leaf hlow), ?_, ?_⟩
  · refine (houtcome cube hcube).1.resolve_right fun ⟨op, _, herror⟩ => ?_
    obtain ⟨d, hd, -⟩ := (houtcome cube hcube).2.mp ⟨_, herror⟩
    simp [cube, high, divisors, ArithmeticOp.Divides] at hd
  · refine (houtcome ratio (.arithmetic _ hcube hzero.overIntegers)).2.mpr ?_
    exact ⟨_, mem_divisors_arithmetic.mpr (.inr (.inr ⟨.inl rfl, rfl⟩)), .integer 0,
      (hinteger _ _).mpr hzero, rfl⟩

end Filter
end PathQuery
