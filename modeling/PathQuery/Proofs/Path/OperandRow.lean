import PathQuery.Proofs.Path.ExpressionText

/-! # Rows of operands

A text is a row if it is operands that are passed over, with operators between them that are all
found (`IsRow`).  Two rows with an operator between them are a row (`IsRow.join`).  If all their
own operators bind tighter, that operator is the only one of its tier, so the row is read as one
binary operation on the two (`Compiler.exists_expression_join`).
-/

namespace PathQuery

open Occurrence

variable {tier : Nat} {op : Operator} {operator : Bool} {a b : List Char}
  {tail rest : List (Operator × List Char)}

/-! ## Operands and operators in a list -/

/-- The operator is found behind a text that ends like an operator or not: behind one that does,
only arithmetic is not found. -/
def Operator.FoundBehind (op : Operator) (operator : Bool) : Prop :=
  ∀ x, op = .arithmetic x → operator = false

/-- The operands are passed over one by one, and every operator between them is found and no
looser than the tier. -/
def Linked (tier : Nat) : List Char → List (Operator × List Char) → Prop
  | a, [] => Unbroken a
  | a, (op, b) :: rest => Unbroken a ∧ (∃ operator, EndsWith operator a ∧ op.FoundBehind operator) ∧
    tier ≤ op.tier ∧ Linked tier b rest

theorem Linked.mono {looser : Nat} (hle : looser ≤ tier) (h : Linked tier a tail) :
    Linked looser a tail := by
  induction tail generalizing a with
  | nil => exact h
  | cons p rest ih => exact ⟨h.1, h.2.1, Nat.le_trans hle h.2.2.1, ih h.2.2.2⟩

theorem chainChars_append : chainChars a (tail ++ (op, b) :: rest) =
    chainChars a tail ++ (op.chars ++ chainChars b rest) := by
  induction tail generalizing a with
  | nil => rfl
  | cons p tail ih =>
    rw [List.cons_append, chainChars, chainChars, ih, List.append_assoc, List.append_assoc]

theorem chainPlaces_append (index : Nat) : ∃ later,
    chainPlaces index a (tail ++ (op, b) :: rest) = chainPlaces index a tail ++
      (op, index + (chainChars a tail).length + 1) :: chainPlaces later b rest := by
  induction tail generalizing a index with
  | nil => exact ⟨_, rfl⟩
  | cons p tail ih =>
    obtain ⟨first, c⟩ := p
    obtain ⟨later, hlater⟩ := @ih c (index + a.length + 1 + first.symbol.length + 1)
    refine ⟨later, ?_⟩
    have hlength : (chainChars a ((first, c) :: tail)).length =
        a.length + 1 + first.symbol.length + 1 + (chainChars c tail).length := by
      simp only [chainChars, Operator.chars, List.length_append, List.length_cons,
        List.length_nil, String.length_toList]
      omega
    have hindex : index + a.length + 1 + first.symbol.length + 1 + (chainChars c tail).length + 1 =
        index + (chainChars a ((first, c) :: tail)).length + 1 := by
      omega
    rw [List.cons_append, chainPlaces, hlater, hindex]
    rfl

/-- Operands in a row end like the last of them. -/
theorem EndsWith.of_chainChars (h : EndsWith operator (chainChars a ((op, b) :: rest))) :
    EndsWith operator (chainChars b rest) := by
  obtain ⟨c, hlast, hblank, hc⟩ := h
  refine ⟨c, ?_, hblank, hc⟩
  have htext : chainChars a ((op, b) :: rest) =
      (a ++ (' ' :: op.symbol.toList)) ++ (' ' :: chainChars b rest) := by
    simp [chainChars, Operator.chars]
  rw [htext, List.getLast?_append, List.getLast?_cons] at hlast
  cases hrest : (chainChars b rest).getLast? with
  | some d => simpa [hrest] using hlast
  | none =>
    -- the last character cannot be the space behind the operator
    obtain rfl : ' ' = c := by simpa [hrest] using hlast
    exact absurd hblank (by decide)

theorem Linked.append (h : Linked tier a tail) (hend : EndsWith operator (chainChars a tail))
    (hop : op.FoundBehind operator) (htier : tier ≤ op.tier) (hb : Linked tier b rest) :
    Linked tier a (tail ++ (op, b) :: rest) := by
  induction tail generalizing a with
  | nil => exact ⟨h, ⟨operator, hend, hop⟩, htier, hb⟩
  | cons p tail ih => exact ⟨h.1, h.2.1, h.2.2.1, ih h.2.2.2 hend.of_chainChars⟩

/-- The search finds the operators of the row. -/
theorem Linked.chained {context : Context} (h : Linked tier a tail)
    (hstart : context.followsOperand = false) (htoken : context.token = []) :
    Chained context a tail := by
  induction tail generalizing context a with
  | nil => exact Unbroken.passesOver h hstart htoken
  | cons p tail ih =>
    obtain ⟨ha, ⟨operator, ⟨c, hlast, hblank, hc⟩, hop⟩, -, hrest⟩ := h
    refine ⟨⟨c, (ha.passesOver hstart htoken).settles hlast hblank, fun x hx => ?_⟩, ?_⟩
    · exact hc.trans (hop x hx)
    · exact ih hrest (followsOperand_behind p.1) rfl

theorem Linked.tier_le (h : Linked tier a tail) {index : Nat} {p : Operator × Nat}
    (hp : p ∈ chainPlaces index a tail) : tier ≤ p.1.tier := by
  induction tail generalizing a index with
  | nil => simp [chainPlaces] at hp
  | cons q tail ih =>
    rcases List.mem_cons.mp hp with rfl | hp
    · exact h.2.2.1
    · exact ih h.2.2.2 hp

/-- The loosest operators are those of the tier that none is looser than. -/
theorem Occurrence.loosest_eq_filter {found : List Occurrence} {o : Occurrence} (ho : o ∈ found)
    (hmin : ∀ o' ∈ found, o.op.tier ≤ o'.op.tier) :
    loosest found = found.filter fun o' => o'.op.tier == o.op.tier := by
  have htier : (found.map fun o => o.op.tier).min? = some o.op.tier := by
    rw [List.min?_eq_some_iff]
    refine ⟨List.mem_map_of_mem ho, fun t ht => ?_⟩
    obtain ⟨o', ho', rfl⟩ := List.mem_map.mp ht
    exact hmin o' ho'
  unfold loosest
  rw [htier]

/-- An operator that is alone in its tier, and the loosest, is the one to split at. -/
theorem Occurrence.loosest_of_places {found : List Occurrence} {pre post : List (Operator × Nat)}
    {index : Nat} (h : found.map place = pre ++ (op, index) :: post)
    (hpre : ∀ p ∈ pre, op.tier < p.1.tier) (hpost : ∀ p ∈ post, op.tier < p.1.tier) :
    ∃ o, loosest found = [o] ∧ o.op = op ∧ o.index = index := by
  obtain ⟨before, behind, rfl, hbefore, hbehind⟩ := List.map_eq_append_iff.mp h
  obtain ⟨o, after, rfl, ho, hafter⟩ := List.map_eq_cons_iff.mp hbehind
  obtain ⟨rfl, hindex⟩ : o.op = op ∧ o.index = index := Prod.mk.inj ho
  have hfront : ∀ o' ∈ before, o.op.tier < o'.op.tier := fun o' ho' =>
    hpre (place o') (hbefore ▸ List.mem_map_of_mem ho')
  have hback : ∀ o' ∈ after, o.op.tier < o'.op.tier := fun o' ho' =>
    hpost (place o') (hafter ▸ List.mem_map_of_mem ho')
  have hmin : ∀ o' ∈ before ++ o :: after, o.op.tier ≤ o'.op.tier := by
    intro o' ho'
    rcases List.mem_append.mp ho' with ho' | ho'
    · exact Nat.le_of_lt (hfront o' ho')
    · rcases List.mem_cons.mp ho' with rfl | ho'
      · exact Nat.le_refl _
      · exact Nat.le_of_lt (hback o' ho')
  have hnone : ∀ list : List Occurrence, (∀ o' ∈ list, o.op.tier < o'.op.tier) →
      (list.filter fun o' => o'.op.tier == o.op.tier) = [] := by
    intro list hlist
    refine List.filter_eq_nil_iff.mpr fun o' ho' heq => ?_
    exact absurd (beq_iff_eq.mp heq) (Nat.ne_of_gt (hlist o' ho'))
  refine ⟨o, ?_, rfl, hindex⟩
  rw [loosest_eq_filter (by simp) hmin, List.filter_append, hnone before hfront, List.nil_append,
    List.filter_cons_of_pos (by simp), hnone after hback]

/-! ## Rows -/

/-- The text is operands in a row, with no operator between them that is looser than the tier. -/
def IsRow (tier : Nat) (text : List Char) : Prop :=
  ∃ a tail, text = chainChars a tail ∧ Linked tier a tail

theorem Unbroken.isRow (h : Unbroken a) : IsRow tier a :=
  ⟨a, [], rfl, h⟩

namespace IsRow

theorem mono {looser : Nat} (hle : looser ≤ tier) (h : IsRow tier a) : IsRow looser a := by
  obtain ⟨first, tail, rfl, hlinked⟩ := h
  exact ⟨first, tail, rfl, hlinked.mono hle⟩

/-- **Rows that are joined by an operator are a row.** -/
theorem join (ha : IsRow tier a) (hend : EndsWith operator a) (hop : op.FoundBehind operator)
    (htier : tier ≤ op.tier) (hb : IsRow tier b) : IsRow tier (a ++ (op.chars ++ b)) := by
  obtain ⟨first, tail, rfl, hfirst⟩ := ha
  obtain ⟨second, rest, rfl, hsecond⟩ := hb
  exact ⟨first, tail ++ (op, second) :: rest, chainChars_append.symm,
    hfirst.append hend hop htier hsecond⟩

/-- A row is balanced. -/
theorem closed (h : IsRow tier a) {grouping : Bool} : Closed grouping (fun _ => True) a := by
  obtain ⟨first, tail, rfl, hlinked⟩ := h
  have hchained : Chained .initial first tail := hlinked.chained rfl rfl
  obtain ⟨marks, -, hwalk, -⟩ := scan_chain hchained 0 0
  exact ScanState.closed_of_walk (fun _ => rfl) hwalk

/-- **Between rows of tighter operators, an operator is the loosest one.** -/
theorem operators_join (ha : IsRow (op.tier + 1) a) (hend : EndsWith operator a)
    (hop : op.FoundBehind operator) (hb : IsRow (op.tier + 1) b) {f : Fragment}
    (hf : f.text = a ++ (op.chars ++ b)) :
    ∃ found o, f.operators = .ok found ∧ loosest found = [o] ∧ o.op = op ∧
      o.index = a.length + 1 := by
  obtain ⟨first, tail, rfl, hfirst⟩ := ha
  obtain ⟨second, rest, rfl, hsecond⟩ := hb
  rw [← chainChars_append] at hf
  have hlinked : Linked op.tier first (tail ++ (op, second) :: rest) :=
    (hfirst.mono (Nat.le_succ _)).append hend hop (Nat.le_refl _) (hsecond.mono (Nat.le_succ _))
  obtain ⟨found, hfound, hplaces⟩ := Fragment.operators_chain hf (hlinked.chained rfl rfl)
  obtain ⟨later, hlater⟩ := @chainPlaces_append op first second tail rest 0
  rw [hlater, Nat.zero_add] at hplaces
  obtain ⟨o, hloosest, ho⟩ := loosest_of_places hplaces
    (fun p hp => hfirst.tier_le hp) fun p hp => hsecond.tier_le hp
  exact ⟨found, o, hfound, hloosest, ho⟩

end IsRow

/-- **An operator between rows of tighter operators is read as an operation on the two.** -/
theorem Compiler.exists_expression_join {limit : Nat} (ha : IsRow (op.tier + 1) a)
    (hend : EndsWith operator a) (hop : op.FoundBehind operator) (hb : IsRow (op.tier + 1) b)
    {f : Fragment} (hf : f.trim.text = a ++ (op.chars ++ b)) :
    ∃ x y : Fragment, x.trim.text = Text.trim a ∧ y.trim.text = Text.trim b ∧
      ∀ {depth position e}, expression limit depth position f = .ok e ↔ Permits position op ∧
        ∃ left right, expression limit depth (operandPosition op) x = .ok left ∧
          expression limit depth (operandPosition op) y = .ok right ∧
          e = binary op left right := by
  obtain ⟨found, o, hfound, hloosest, ho, hindex⟩ := ha.operators_join hend hop hb hf
  exact exists_expression_binary hf hfound hloosest ho hindex

end PathQuery
