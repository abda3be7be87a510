import PathQuery.Proofs.Path.WellFormed
import PathQuery.Query.Evaluator

/-! # How queries fail

A query fails with an error about the values it meets or about an expression of the
path.  It never fails with one of the errors about changes (`Path.query_ofQuery`), and
it never finds that a condition is used as a value, if the segments of the path have the
form of compiled ones (`Path.query_ne_notAValue`).  Both come from one induction over
the evaluator, in which the second is asked of each part for that part only.
-/

namespace PathQuery

/-- An error that is not about a change of a document. -/
def EvalError.OfQuery : EvalError → Prop
  | .rootRemoval | .noRoom .. | .vanished _ | .refused .. => False
  | _ => True

/-- An error that a part of a query may end in: it is not about a change of a document,
and it says that a condition is used as a value only if the part is not well formed. -/
def EvalError.OfPart (wellFormed : Prop) : EvalError → Prop
  | .rootRemoval | .noRoom .. | .vanished _ | .refused .. => False
  | .notAValue _ => ¬ wellFormed
  | _ => True

theorem EvalError.OfPart.mono {whole part : Prop} {e : EvalError} (h : e.OfPart part)
    (hpart : whole → part) : e.OfPart whole := by
  cases e with
  | notAValue condition => exact fun hwhole => h (hpart hwhole)
  | _ => exact h

theorem EvalError.OfPart.ofQuery {part : Prop} {e : EvalError} (h : e.OfPart part) :
    e.OfQuery := by
  cases e <;> trivial

/-- An error about the values that a query meets, in which no part of the path is cited. -/
def EvalError.OfValues : EvalError → Prop
  | .notAnObject .. | .tooDeep .. | .notNumeric _ | .zeroDivisor _ => True
  | _ => False

theorem EvalError.OfValues.ofPart {part : Prop} {e : EvalError} (h : e.OfValues) :
    e.OfPart part := by
  cases e <;> trivial

variable {e : EvalError}

/-! ## Matches and operands -/

theorem Match.named_ofValues {names : Names} {key : String} {m : Match}
    (h : m.named names key = .error e) : e.OfValues := by
  unfold named at h
  split at h
  · simp at h
  · simp at h
  · exact Except.error.inj h ▸ trivial

theorem DeepScan.visit_ofValues {limit : Nat} {visited stack : List Pending}
    (h : visit limit visited stack = .error e) : e.OfValues := by
  fun_induction visit limit visited stack with
  | case1 => simp at h
  | case2 => exact Except.error.inj h ▸ trivial
  | case3 visited p rest hdepth ih => exact ih h

theorem Match.descendants_ofValues {limit : Nat} {includeSelf : Bool} {m : Match}
    (h : m.descendants limit includeSelf = .error e) : e.OfValues :=
  DeepScan.visit_ofValues (map_eq_error.mp h)

theorem Head.go_ofValues {limit : Nat} {names : Names} {segmented : Bool} {head : Head}
    {starts : List Match} (h : head.go limit names segmented starts = .error e) :
    e.OfValues := by
  match head with
  | .here | .child .any => simp [go] at h
  | .child (.name key) =>
    obtain ⟨m, _, hm⟩ := exists_of_gather_eq_error h
    exact Match.named_ofValues hm
  | .descend (some (.name key)) =>
    obtain ⟨m, _, hm⟩ := exists_of_gather_eq_error h
    exact Match.descendants_ofValues (map_eq_error.mp hm)
  | .descend (some .any) | .descend none =>
    obtain ⟨m, _, hm⟩ := exists_of_gather_eq_error h
    exact Match.descendants_ofValues hm

theorem Operand.exists_of_ofMatches_eq_error {source : String} {found : List Match}
    (h : ofMatches source found = .error e) : ∃ kind, e = .notComparable source kind := by
  unfold ofMatches at h
  split at h
  · split at h
    · simp at h
    · exact ⟨_, (Except.error.inj h).symm⟩
  · simp at h

theorem Operand.arithmetic_ofValues {a b : Operand} {op : ArithmeticOp}
    (h : a.arithmetic op b = .error e) : e.OfValues := by
  unfold Operand.arithmetic at h
  split at h
  · have h := map_eq_error.mp h
    unfold Scalar.arithmetic at h
    split at h
    · split at h
      · exact Except.error.inj h ▸ trivial
      · simp at h
    · exact Except.error.inj h ▸ trivial
  · simp at h

section
variable {spell : EvalError → EvalError} (hspell : ∀ {e}, EvalError.OfValues e → spell e = e)
include hspell

/-- Where a step goes does not depend on how expressions are cited. -/
theorem Head.mapError_go {limit : Nat} {names : Names} (segmented : Bool) (head : Head)
    (starts : List Match) : (head.go limit names segmented starts).mapError spell =
      head.go limit names segmented starts :=
  mapError_eq_self fun _ h => hspell (Head.go_ofValues h)

theorem Operand.mapError_arithmetic (a b : Operand) (op : ArithmeticOp) :
    (a.arithmetic op b).mapError spell = a.arithmetic op b :=
  mapError_eq_self fun _ h => hspell (Operand.arithmetic_ofValues h)

end

/-! ## Paths and expressions -/

/-- The segments of the path and of its steps have the form of compiled ones. -/
def Path.PartsWellFormed (p : Path) : Prop :=
  Segment.ListWellFormed p.segments ∧ ∀ s ∈ p.steps, Segment.ListWellFormed s.segments

theorem Path.WellFormed.parts {nested : Bool} {p : Path} (h : p.WellFormed nested) :
    p.PartsWellFormed := by
  obtain ⟨origin, segments, steps, source⟩ := p
  refine ⟨h.2.1, fun s hs => ?_⟩
  have hstep := Step.wellFormed_of_mem h.2.2 hs
  obtain ⟨head, inner⟩ := s
  exact hstep.2

section
variable {limit : Nat} {root : Json}

mutual

theorem Path.resolve_ofPart {names : Names} {current : Match} {e : EvalError} : ∀ p : Path,
    Path.resolve limit root names current p = .error e → e.OfPart p.PartsWellFormed
  | .mk origin segments steps source, h => by
    simp only [Path.resolve, bind_eq_error] at h
    rcases h with h | ⟨passed, _, h⟩
    · exact (Segment.through_ofPart segments h).mono fun hwf => hwf.1
    · exact (Step.through_ofPart steps h).mono fun hwf => hwf.2

theorem Step.through_ofPart {names : Names} {e : EvalError} :
    ∀ (steps : List Step) {starts : List Match},
      Step.through limit root names steps starts = .error e →
        e.OfPart (∀ s ∈ steps, Segment.ListWellFormed s.segments)
  | [], _, h => by simp [Step.through] at h
  | .mk head segments :: rest, _, h => by
    simp only [Step.through, bind_eq_error] at h
    rcases h with h | ⟨reached, _, h | ⟨passed, _, h⟩⟩
    · exact (Head.go_ofValues h).ofPart
    · exact (Segment.through_ofPart segments h).mono fun hwf => hwf _ (List.mem_cons_self ..)
    · exact (Step.through_ofPart rest h).mono fun hwf s hs => hwf s (List.mem_cons_of_mem _ hs)

theorem Segment.through_ofPart {e : EvalError} :
    ∀ (segments : List Segment) {starts : List Match},
      Segment.through limit root segments starts = .error e →
        e.OfPart (Segment.ListWellFormed segments)
  | [], _, h => by simp [Segment.through] at h
  | .mk selectors :: rest, _, h => by
    simp only [Segment.through, bind_eq_error] at h
    rcases h with h | ⟨reached, _, h⟩
    · obtain ⟨m, _, hm⟩ := exists_of_gather_eq_error h
      exact (Selector.union_ofPart selectors hm).mono fun hwf => hwf.1.2
    · exact (Segment.through_ofPart rest h).mono fun hwf => hwf.2

theorem Selector.union_ofPart {e : EvalError} :
    ∀ (selectors : List Selector) {m : Match},
      Selector.union limit root selectors m = .error e →
        e.OfPart (Selector.ListWellFormed selectors)
  | [], _, h => by simp [Selector.union] at h
  | s :: rest, _, h => by
    simp only [Selector.union, bind_eq_error] at h
    rcases h with h | ⟨first, _, h | ⟨others, _, h⟩⟩
    · exact (Selector.find_ofPart s h).mono fun hwf => hwf.1
    · exact (Selector.union_ofPart rest h).mono fun hwf => hwf.2
    · cases h

theorem Selector.find_ofPart {e : EvalError} : ∀ (s : Selector) {m : Match},
    Selector.find limit root s m = .error e → e.OfPart s.WellFormed
  | .filter condition, _, h => by
    rw [Selector.find] at h
    obtain ⟨child, _, hchild⟩ := exists_of_gather_eq_error h
    exact Filter.holds_ofPart condition (map_eq_error.mp hchild)
  | .wildcard, _, h | .index _, _, h | .name _, _, h | .slice _, _, h => by
    simp [Selector.find] at h

theorem Filter.holds_ofPart {e : EvalError} : ∀ (f : Filter) {current : Match},
    Filter.holds limit root f current = .error e → e.OfPart (f.WellFormed .boolean)
  | .existence path inverted, _, h => by
    rw [Filter.holds] at h
    exact (Path.resolve_ofPart path (map_eq_error.mp h)).mono fun hwf => hwf.2.parts
  | .reference path, _, h => by
    rw [Filter.holds] at h
    exact (Path.resolve_ofPart path (map_eq_error.mp h)).mono fun hwf => hwf.2.parts
  | .negation inner, _, h => by
    rw [Filter.holds] at h
    exact (Filter.holds_ofPart inner (map_eq_error.mp h)).mono fun hwf => hwf.2
  | .logical op left right, _, h => by
    simp only [Filter.holds, bind_eq_error] at h
    rcases h with h | ⟨first, _, h⟩
    · exact (Filter.holds_ofPart left h).mono fun hwf => hwf.2.1
    · cases op <;> cases first <;>
        first | exact (Filter.holds_ofPart right h).mono fun hwf => hwf.2.2 | cases h
  | .comparison op left right, _, h => by
    simp only [Filter.holds, bind_eq_error] at h
    rcases h with h | ⟨a, _, h | ⟨b, _, h⟩⟩
    · exact (Filter.operand_ofPart left h).mono fun hwf => hwf.2.1
    · exact (Filter.operand_ofPart right h).mono fun hwf => hwf.2.2
    · cases h
  | .literal value, _, h => by
    cases value with
    | bool b => simp [Filter.holds] at h
    | _ =>
      rw [Filter.holds] at h
      · exact Except.error.inj h ▸ trivial
      · simp
  | .arithmetic op left right, _, h => by
    rw [Filter.holds] at h
    exact Except.error.inj h ▸ trivial

theorem Filter.operand_ofPart {e : EvalError} : ∀ (f : Filter) {current : Match},
    Filter.operand limit root f current = .error e → e.OfPart (f.WellFormed .value)
  | .literal value, _, h => by simp [Filter.operand] at h
  | .reference path, _, h => by
    simp only [Filter.operand, bind_eq_error] at h
    rcases h with h | ⟨found, _, h⟩
    · exact (Path.resolve_ofPart path h).mono fun hwf => hwf.2.parts
    · obtain ⟨kind, rfl⟩ := Operand.exists_of_ofMatches_eq_error h
      trivial
  | .arithmetic op left right, _, h => by
    simp only [Filter.operand, bind_eq_error] at h
    rcases h with h | ⟨a, _, h | ⟨b, _, h⟩⟩
    · exact (Filter.operand_ofPart left h).mono fun hwf => hwf.1
    · exact (Filter.operand_ofPart right h).mono fun hwf => hwf.2
    · exact (Operand.arithmetic_ofValues h).ofPart
  -- what is left are the conditions, which are well formed in no other position
  | .existence _ _, _, h | .negation _, _, h | .comparison _ _ _, _, h
  | .logical _ _ _, _, h => by
    simp only [Filter.operand, Except.error.injEq] at h
    subst h
    exact fun hwf => nomatch hwf.1

end

end

/-- A query never fails with an error about a change. -/
theorem Path.query_ofQuery {options : Options} {p : Path} {doc : Json} {e : EvalError}
    (h : p.query options doc = .error e) : e.OfQuery :=
  (Path.resolve_ofPart p h).ofQuery

/-- A query with well-formed segments never finds that a condition is used as a value. -/
theorem Path.query_ne_notAValue {p : Path} (hp : p.PartsWellFormed) (options : Options)
    (doc : Json) (condition : Filter) : p.query options doc ≠ .error (.notAValue condition) :=
  fun h => Path.resolve_ofPart p h hp

end PathQuery
