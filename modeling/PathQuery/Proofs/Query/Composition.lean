import PathQuery.Proofs.Outcome
import PathQuery.Query.Evaluator

/-! # Paths are applied part by part

Segments, and steps, are applied one after the other: what a list of them leads to is what
its second part leads to from the matches of its first part.
-/

namespace PathQuery

section
variable {limit : Nat} {root : Json} {names : Names}

@[simp] theorem Segment.through_nil (starts : List Match) :
    through limit root [] starts = .ok starts := by
  rw [through]

@[simp] theorem Step.through_nil (starts : List Match) :
    through limit root names [] starts = .ok starts := by
  rw [through]

theorem Segment.through_append (first second : List Segment) (starts : List Match) :
    through limit root (first ++ second) starts =
      (through limit root first starts >>= through limit root second) := by
  induction first generalizing starts with
  | nil =>
    rw [through_nil]
    rfl
  | cons s rest ih =>
    obtain ⟨selectors⟩ := s
    simp only [List.cons_append, through, bind_assoc, ih]

theorem Step.through_append (first second : List Step) (starts : List Match) :
    through limit root names (first ++ second) starts =
      (through limit root names first starts >>= through limit root names second) := by
  induction first generalizing starts with
  | nil =>
    rw [through_nil]
    rfl
  | cons s rest ih =>
    obtain ⟨head, segments⟩ := s
    simp only [List.cons_append, through, bind_assoc, ih]

/-- A last segment gathers what its alternatives find below each match. -/
theorem Segment.through_concat (segments : List Segment) (selectors : List Selector)
    (starts : List Match) :
    through limit root (segments ++ [.mk selectors]) starts =
      (through limit root segments starts >>= gather (Selector.union limit root selectors)) := by
  rw [through_append]
  refine congrArg _ (funext fun reached => ?_)
  rw [through]
  exact bind_pure _

/-- A last step goes from each match and then through its segments. -/
theorem Step.through_concat (steps : List Step) (head : Head) (segments : List Segment)
    (starts : List Match) :
    through limit root names (steps ++ [.mk head segments]) starts =
      (through limit root names steps starts >>= fun reached =>
        head.go limit names (!segments.isEmpty) reached >>=
          Segment.through limit root segments) := by
  rw [through_append]
  refine congrArg _ (funext fun reached => ?_)
  rw [through]
  refine congrArg _ (funext fun found => ?_)
  exact bind_pure _

end

/-- A query starts at the root, whatever the marker of the path is. -/
theorem Path.query_mk (options : Options) (origin : Origin) (segments : List Segment)
    (steps : List Step) (source : String) (doc : Json) :
    query options (.mk origin segments steps source) doc =
      (Segment.through options.maxDepth doc segments [⟨[], doc⟩] >>=
        Step.through options.maxDepth doc .strict steps) := by
  cases origin <;> rw [query, resolve]

end PathQuery
