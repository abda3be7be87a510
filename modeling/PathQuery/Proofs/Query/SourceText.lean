import PathQuery.Proofs.Path.Unsourced
import PathQuery.Proofs.Query.Failure

/-! # Evaluation does not look at sources

The sources of a path, its own one and those of its references, are only cited in errors.  So a
path without its sources finds the same as the path, or it fails with the same error, in which
no source is cited (`Path.query_unsourced`).
-/

namespace PathQuery

/-- The error, without the sources that it cites. -/
def EvalError.unsourced : EvalError → EvalError
  | .arithmeticCondition expression => .arithmeticCondition expression.unsourced
  | .notAValue expression => .notAValue expression.unsourced
  | .notComparable _ kind => .notComparable "" kind
  | e => e

theorem EvalError.OfValues.unsourced_eq {e : EvalError} (h : e.OfValues) : e.unsourced = e := by
  cases e <;> first | rfl | exact h.elim

theorem Operand.mapError_unsourced (source : String) (found : List Match) :
    (ofMatches source found).mapError EvalError.unsourced = ofMatches "" found := by
  unfold ofMatches
  split
  · split <;> rfl
  · rfl

section
variable {limit : Nat} {root : Json}

mutual

/-- **A path leads to the same without its sources**, and fails in the same way. -/
theorem Path.resolve_unsourced {names : Names} {current : Match} : ∀ p : Path,
    Path.resolve limit root names current p.unsourced =
      (Path.resolve limit root names current p).mapError EvalError.unsourced
  | .mk origin segments steps source => by
    simp only [Path.unsourced, Path.resolve, mapError_bind, Segment.through_unsourced segments,
      Step.through_unsourced steps]

theorem Step.through_unsourced {names : Names} : ∀ (steps : List Step) {starts : List Match},
    Step.through limit root names (Step.unsourcedList steps) starts =
      (Step.through limit root names steps starts).mapError EvalError.unsourced
  | [], starts => by
    simp only [Step.unsourcedList, Step.through]
    rfl
  | .mk head segments :: rest, starts => by
    simp only [Step.unsourcedList, Step.unsourced, Step.through, mapError_bind,
      Segment.isEmpty_unsourcedList, Head.mapError_go EvalError.OfValues.unsourced_eq,
      Segment.through_unsourced segments, Step.through_unsourced rest]

theorem Segment.through_unsourced : ∀ (segments : List Segment) {starts : List Match},
    Segment.through limit root (Segment.unsourcedList segments) starts =
      (Segment.through limit root segments starts).mapError EvalError.unsourced
  | [], starts => by
    simp only [Segment.unsourcedList, Segment.through]
    rfl
  | .mk selectors :: rest, starts => by
    simp only [Segment.unsourcedList, Segment.unsourced, Segment.through, mapError_bind,
      mapError_gather, Selector.union_unsourced selectors, Segment.through_unsourced rest]

theorem Selector.union_unsourced : ∀ (selectors : List Selector) {m : Match},
    Selector.union limit root (Selector.unsourcedList selectors) m =
      (Selector.union limit root selectors m).mapError EvalError.unsourced
  | [], m => by
    simp only [Selector.unsourcedList, Selector.union]
    rfl
  | s :: rest, m => by
    simp only [Selector.unsourcedList, Selector.union, mapError_bind, Selector.find_unsourced s,
      Selector.union_unsourced rest]
    rfl

theorem Selector.find_unsourced : ∀ (s : Selector) {m : Match},
    Selector.find limit root s.unsourced m =
      (Selector.find limit root s m).mapError EvalError.unsourced
  | .filter condition, m => by
    simp only [Selector.unsourced, Selector.find, mapError_gather, mapError_map,
      Filter.holds_unsourced condition]
  | .wildcard, m | .index _, m | .name _, m | .slice _, m => by
    simp only [Selector.unsourced, Selector.find]
    rfl

/-- An expression holds of the same values without its sources. -/
theorem Filter.holds_unsourced : ∀ (f : Filter) {current : Match},
    Filter.holds limit root f.unsourced current =
      (Filter.holds limit root f current).mapError EvalError.unsourced
  | .existence path inverted, current => by
    simp only [Filter.unsourced, Filter.holds, mapError_map, Path.resolve_unsourced path]
  | .reference path, current => by
    simp only [Filter.unsourced, Filter.holds, mapError_map, Path.resolve_unsourced path]
  | .negation inner, current => by
    simp only [Filter.unsourced, Filter.holds, mapError_map, Filter.holds_unsourced inner]
  | .logical op left right, current => by
    simp only [Filter.unsourced, Filter.holds, mapError_bind, Filter.holds_unsourced left,
      Filter.holds_unsourced right]
    refine congrArg _ (funext fun first => ?_)
    cases op <;> cases first <;> rfl
  | .comparison op left right, current => by
    simp only [Filter.unsourced, Filter.holds, mapError_bind, Filter.operand_unsourced left,
      Filter.operand_unsourced right]
    rfl
  | .literal value, current => by
    cases value <;> simp only [Filter.unsourced, Filter.holds] <;> rfl
  | .arithmetic op left right, current => by
    simp only [Filter.unsourced, Filter.holds]
    rfl

/-- An expression has the same value without its sources. -/
theorem Filter.operand_unsourced : ∀ (f : Filter) {current : Match},
    Filter.operand limit root f.unsourced current =
      (Filter.operand limit root f current).mapError EvalError.unsourced
  | .literal value, current => by
    simp only [Filter.unsourced, Filter.operand]
    rfl
  | .reference path, current => by
    simp only [Filter.unsourced, Filter.operand, mapError_bind, Path.resolve_unsourced path,
      Operand.mapError_unsourced, Path.source_unsourced]
  | .arithmetic op left right, current => by
    simp only [Filter.unsourced, Filter.operand, mapError_bind, Filter.operand_unsourced left,
      Filter.operand_unsourced right, Operand.mapError_arithmetic EvalError.OfValues.unsourced_eq]
  | .existence _ _, current | .negation _, current | .comparison _ _ _, current
  | .logical _ _ _, current => by
    simp only [Filter.unsourced, Filter.operand]
    rfl

end

end

/-- **A query does not depend on sources.** -/
theorem Path.query_unsourced (options : Options) (p : Path) (doc : Json) :
    p.unsourced.query options doc = (p.query options doc).mapError EvalError.unsourced :=
  p.resolve_unsourced

end PathQuery
