import PathQuery.Path.Equality

/-! # Paths without their sources

A path keeps the text that it was compiled from, and so does every reference in its filters.
`Path.unsourced` forgets all these texts, so two paths with the same nodes are those that are
equal without them.  That is what the structural equality of paths comes to, except that this
compares numbers as numbers: paths are equal without their sources exactly if they are
structurally equal and have the same numbers in them (`Path.unsourced_eq_iff`).
-/

namespace PathQuery

mutual

/-- The path without its source and those of the references in it. -/
def Path.unsourced : Path → Path
  | .mk origin segments steps _ =>
    .mk origin (Segment.unsourcedList segments) (Step.unsourcedList steps) ""

/-- The step without sources. -/
def Step.unsourced : Step → Step
  | .mk head segments => .mk head (Segment.unsourcedList segments)

/-- The steps without sources. -/
def Step.unsourcedList : List Step → List Step
  | [] => []
  | s :: rest => Step.unsourced s :: Step.unsourcedList rest

/-- The segment without sources. -/
def Segment.unsourced : Segment → Segment
  | .mk selectors => .mk (Selector.unsourcedList selectors)

/-- The segments without sources. -/
def Segment.unsourcedList : List Segment → List Segment
  | [] => []
  | s :: rest => Segment.unsourced s :: Segment.unsourcedList rest

/-- The selector without sources; only filters have any. -/
def Selector.unsourced : Selector → Selector
  | .filter condition => .filter (Filter.unsourced condition)
  | .wildcard => .wildcard
  | .index position => .index position
  | .name key => .name key
  | .slice bounds => .slice bounds

/-- The selectors without sources. -/
def Selector.unsourcedList : List Selector → List Selector
  | [] => []
  | s :: rest => Selector.unsourced s :: Selector.unsourcedList rest

/-- The expression without sources. -/
def Filter.unsourced : Filter → Filter
  | .literal value => .literal value
  | .reference path => .reference (Path.unsourced path)
  | .existence path inverted => .existence (Path.unsourced path) inverted
  | .negation operand => .negation (Filter.unsourced operand)
  | .arithmetic op left right => .arithmetic op (Filter.unsourced left) (Filter.unsourced right)
  | .comparison op left right => .comparison op (Filter.unsourced left) (Filter.unsourced right)
  | .logical op left right => .logical op (Filter.unsourced left) (Filter.unsourced right)

end

theorem Segment.unsourcedList_eq_map (segments : List Segment) :
    unsourcedList segments = segments.map Segment.unsourced := by
  induction segments with
  | nil => rfl
  | cons s rest ih => rw [unsourcedList, ih, List.map_cons]

theorem Step.unsourcedList_eq_map (steps : List Step) :
    unsourcedList steps = steps.map Step.unsourced := by
  induction steps with
  | nil => rfl
  | cons s rest ih => rw [unsourcedList, ih, List.map_cons]

theorem Path.unsourced_mk (origin : Origin) (segments : List Segment) (steps : List Step)
    (source : String) : (Path.mk origin segments steps source).unsourced =
      .mk origin (segments.map Segment.unsourced) (steps.map Step.unsourced) "" := by
  rw [unsourced, Segment.unsourcedList_eq_map, Step.unsourcedList_eq_map]

theorem Path.source_unsourced (p : Path) : p.unsourced.source = "" := by
  obtain ⟨origin, segments, steps, source⟩ := p
  rfl

theorem Segment.isEmpty_unsourcedList (segments : List Segment) :
    (unsourcedList segments).isEmpty = segments.isEmpty := by
  rw [unsourcedList_eq_map, List.isEmpty_map]

/-- The number that the constant is. -/
def Literal.numbers : Literal → List Number
  | .number n => [n]
  | _ => []

mutual

/-- The numbers in the filters of a path, from left to right. -/
def Path.numbers : Path → List Number
  | .mk _ segments steps _ => Segment.listNumbers segments ++ Step.listNumbers steps

/-- The numbers in a step. -/
def Step.numbers : Step → List Number
  | .mk _ segments => Segment.listNumbers segments

/-- The numbers in steps. -/
def Step.listNumbers : List Step → List Number
  | [] => []
  | s :: rest => Step.numbers s ++ Step.listNumbers rest

/-- The numbers in a segment. -/
def Segment.numbers : Segment → List Number
  | .mk selectors => Selector.listNumbers selectors

/-- The numbers in segments. -/
def Segment.listNumbers : List Segment → List Number
  | [] => []
  | s :: rest => Segment.numbers s ++ Segment.listNumbers rest

/-- The numbers in a selector. -/
def Selector.numbers : Selector → List Number
  | .filter condition => Filter.numbers condition
  | _ => []

/-- The numbers in selectors. -/
def Selector.listNumbers : List Selector → List Number
  | [] => []
  | s :: rest => Selector.numbers s ++ Selector.listNumbers rest

/-- The numbers in an expression. -/
def Filter.numbers : Filter → List Number
  | .literal value => value.numbers
  | .reference path | .existence path _ => Path.numbers path
  | .negation operand => Filter.numbers operand
  | .arithmetic _ left right | .comparison _ left right | .logical _ left right =>
    Filter.numbers left ++ Filter.numbers right

end

/-! ## Structural equality -/

/-- Two parts have as many numbers in them, and if these are the same, they agree in all else. -/
def Matched (numbers numbers' : List Number) (agree : Prop) : Prop :=
  numbers.length = numbers'.length ∧ (numbers = numbers' → agree)

section
variable {first first' second second' : List Number} {P Q : Prop}

theorem Matched.imp (h : Matched first first' P) (himp : P → Q) : Matched first first' Q :=
  ⟨h.1, fun heq => himp (h.2 heq)⟩

theorem Matched.append (h : Matched first first' P) (h' : Matched second second' Q) :
    Matched (first ++ second) (first' ++ second') (P ∧ Q) := by
  refine ⟨by rw [List.length_append, List.length_append, h.1, h'.1], fun heq => ?_⟩
  obtain ⟨hfirst, hsecond⟩ := List.append_inj heq h.1
  exact ⟨h.2 hfirst, h'.2 hsecond⟩

theorem Matched.none (h : P) : Matched [] [] P :=
  ⟨rfl, fun _ => h⟩

end

theorem Literal.matched_of_same {a b : Literal} (h : a.same b = true) :
    Matched a.numbers b.numbers (a = b) := by
  cases a with
  | number x =>
    cases b with
    | number y => exact ⟨rfl, fun heq => by rw [List.singleton_inj.mp heq]⟩
    | _ => simp [same] at h
  | null =>
    cases b <;> simp [same] at h
    exact .none rfl
  | bool _ | string _ =>
    cases b <;> simp [same] at h
    exact .none (by rw [h])

mutual

/-- Paths that are structurally equal agree without their sources, up to the numbers in them. -/
theorem Path.matched_of_same : ∀ {p q : Path}, p.same q = true →
    Matched p.numbers q.numbers (p.unsourced = q.unsourced)
  | .mk origin segments steps _, .mk origin' segments' steps' _, h => by
    simp only [Path.same, Bool.and_eq_true, beq_iff_eq] at h
    obtain ⟨⟨rfl, hsegments⟩, hsteps⟩ := h
    simp only [Path.numbers, Path.unsourced]
    refine ((Segment.matched_of_sameList hsegments).append (Step.matched_of_sameList hsteps)).imp ?_
    rintro ⟨heq, heq'⟩
    rw [heq, heq']

theorem Step.matched_of_same : ∀ {s t : Step}, s.same t = true →
    Matched s.numbers t.numbers (s.unsourced = t.unsourced)
  | .mk head segments, .mk head' segments', h => by
    simp only [Step.same, Bool.and_eq_true, beq_iff_eq] at h
    obtain ⟨rfl, hsegments⟩ := h
    simp only [Step.numbers, Step.unsourced]
    exact (Segment.matched_of_sameList hsegments).imp fun heq => by rw [heq]

theorem Step.matched_of_sameList : ∀ {ss ts : List Step}, Step.sameList ss ts = true →
    Matched (Step.listNumbers ss) (Step.listNumbers ts)
      (Step.unsourcedList ss = Step.unsourcedList ts)
  | [], [], _ => .none rfl
  | [], _ :: _, h | _ :: _, [], h => by simp [Step.sameList] at h
  | s :: ss, t :: ts, h => by
    simp only [Step.sameList, Bool.and_eq_true] at h
    simp only [Step.listNumbers, Step.unsourcedList]
    refine ((Step.matched_of_same h.1).append (Step.matched_of_sameList h.2)).imp ?_
    rintro ⟨heq, heq'⟩
    rw [heq, heq']

theorem Segment.matched_of_same : ∀ {s t : Segment}, s.same t = true →
    Matched s.numbers t.numbers (s.unsourced = t.unsourced)
  | .mk selectors, .mk selectors', h => by
    rw [Segment.same] at h
    simp only [Segment.numbers, Segment.unsourced]
    exact (Selector.matched_of_sameList h).imp fun heq => by rw [heq]

theorem Segment.matched_of_sameList : ∀ {ss ts : List Segment}, Segment.sameList ss ts = true →
    Matched (Segment.listNumbers ss) (Segment.listNumbers ts)
      (Segment.unsourcedList ss = Segment.unsourcedList ts)
  | [], [], _ => .none rfl
  | [], _ :: _, h | _ :: _, [], h => by simp [Segment.sameList] at h
  | s :: ss, t :: ts, h => by
    simp only [Segment.sameList, Bool.and_eq_true] at h
    simp only [Segment.listNumbers, Segment.unsourcedList]
    refine ((Segment.matched_of_same h.1).append (Segment.matched_of_sameList h.2)).imp ?_
    rintro ⟨heq, heq'⟩
    rw [heq, heq']

theorem Selector.matched_of_same : ∀ {s t : Selector}, s.same t = true →
    Matched s.numbers t.numbers (s.unsourced = t.unsourced)
  | .filter f, t, h => by
    cases t <;> simp [Selector.same] at h
    simp only [Selector.numbers, Selector.unsourced]
    exact (Filter.matched_of_same h).imp fun heq => by rw [heq]
  | .wildcard, t, h | .index _, t, h | .name _, t, h | .slice _, t, h => by
    cases t <;> simp [Selector.same] at h
    exact .none (by simp [Selector.unsourced, h])

theorem Selector.matched_of_sameList : ∀ {ss ts : List Selector}, Selector.sameList ss ts = true →
    Matched (Selector.listNumbers ss) (Selector.listNumbers ts)
      (Selector.unsourcedList ss = Selector.unsourcedList ts)
  | [], [], _ => .none rfl
  | [], _ :: _, h | _ :: _, [], h => by simp [Selector.sameList] at h
  | s :: ss, t :: ts, h => by
    simp only [Selector.sameList, Bool.and_eq_true] at h
    simp only [Selector.listNumbers, Selector.unsourcedList]
    refine ((Selector.matched_of_same h.1).append (Selector.matched_of_sameList h.2)).imp ?_
    rintro ⟨heq, heq'⟩
    rw [heq, heq']

theorem Filter.matched_of_same : ∀ {f g : Filter}, f.same g = true →
    Matched f.numbers g.numbers (f.unsourced = g.unsourced)
  | .literal a, g, h => by
    cases g <;> simp [Filter.same] at h
    simp only [Filter.numbers, Filter.unsourced]
    exact (Literal.matched_of_same h).imp fun heq => by rw [heq]
  | .reference p, g, h => by
    cases g <;> simp [Filter.same] at h
    simp only [Filter.numbers, Filter.unsourced]
    exact (Path.matched_of_same h).imp fun heq => by rw [heq]
  | .existence p inverted, g, h => by
    cases g <;> simp [Filter.same] at h
    obtain ⟨hpath, rfl⟩ := h
    simp only [Filter.numbers, Filter.unsourced]
    exact (Path.matched_of_same hpath).imp fun heq => by rw [heq]
  | .negation f, g, h => by
    cases g <;> simp [Filter.same] at h
    simp only [Filter.numbers, Filter.unsourced]
    exact (Filter.matched_of_same h).imp fun heq => by rw [heq]
  | .arithmetic op left right, g, h | .comparison op left right, g, h
  | .logical op left right, g, h => by
    cases g <;> simp [Filter.same] at h
    obtain ⟨⟨rfl, hleft⟩, hright⟩ := h
    simp only [Filter.numbers, Filter.unsourced]
    refine ((Filter.matched_of_same hleft).append (Filter.matched_of_same hright)).imp ?_
    rintro ⟨heq, heq'⟩
    rw [heq, heq']

end

theorem Literal.same_self (l : Literal) : l.same l = true := by
  cases l <;> simp [same]

mutual

/-- Paths that agree without their sources are structurally equal, and have the same numbers. -/
theorem Path.same_of_unsourced : ∀ {p q : Path}, p.unsourced = q.unsourced →
    p.same q = true ∧ p.numbers = q.numbers
  | .mk origin segments steps _, .mk origin' segments' steps' _, h => by
    simp only [Path.unsourced, Path.mk.injEq, and_true] at h
    obtain ⟨rfl, hsegments, hsteps⟩ := h
    simp [Path.same, Path.numbers, Segment.sameList_of_unsourced hsegments,
      Step.sameList_of_unsourced hsteps]

theorem Step.sameList_of_unsourced : ∀ {ss ts : List Step},
    Step.unsourcedList ss = Step.unsourcedList ts →
      Step.sameList ss ts = true ∧ Step.listNumbers ss = Step.listNumbers ts
  | [], [], _ => by simp [Step.sameList]
  | [], _ :: _, h | _ :: _, [], h => by simp [Step.unsourcedList] at h
  | .mk head segments :: ss, .mk head' segments' :: ts, h => by
    simp only [Step.unsourcedList, Step.unsourced, List.cons.injEq, Step.mk.injEq] at h
    obtain ⟨⟨rfl, hsegments⟩, hrest⟩ := h
    simp [Step.sameList, Step.same, Step.listNumbers, Step.numbers,
      Segment.sameList_of_unsourced hsegments, Step.sameList_of_unsourced hrest]

theorem Segment.sameList_of_unsourced : ∀ {ss ts : List Segment},
    Segment.unsourcedList ss = Segment.unsourcedList ts →
      Segment.sameList ss ts = true ∧ Segment.listNumbers ss = Segment.listNumbers ts
  | [], [], _ => by simp [Segment.sameList]
  | [], _ :: _, h | _ :: _, [], h => by simp [Segment.unsourcedList] at h
  | .mk selectors :: ss, .mk selectors' :: ts, h => by
    simp only [Segment.unsourcedList, Segment.unsourced, List.cons.injEq, Segment.mk.injEq] at h
    simp [Segment.sameList, Segment.same, Segment.listNumbers, Segment.numbers,
      Selector.sameList_of_unsourced h.1, Segment.sameList_of_unsourced h.2]

theorem Selector.sameList_of_unsourced : ∀ {ss ts : List Selector},
    Selector.unsourcedList ss = Selector.unsourcedList ts →
      Selector.sameList ss ts = true ∧ Selector.listNumbers ss = Selector.listNumbers ts
  | [], [], _ => by simp [Selector.sameList]
  | [], _ :: _, h | _ :: _, [], h => by simp [Selector.unsourcedList] at h
  | s :: ss, t :: ts, h => by
    simp only [Selector.unsourcedList, List.cons.injEq] at h
    simp [Selector.sameList, Selector.listNumbers, Selector.same_of_unsourced h.1,
      Selector.sameList_of_unsourced h.2]

theorem Selector.same_of_unsourced : ∀ {s t : Selector}, s.unsourced = t.unsourced →
    s.same t = true ∧ s.numbers = t.numbers
  | .filter f, t, h => by
    cases t <;> simp [Selector.unsourced] at h
    simp [Selector.same, Selector.numbers, Filter.same_of_unsourced h]
  | .wildcard, t, h | .index _, t, h | .name _, t, h | .slice _, t, h => by
    cases t <;> simp [Selector.unsourced] at h
    simp [Selector.same, Selector.numbers, h]

theorem Filter.same_of_unsourced : ∀ {f g : Filter}, f.unsourced = g.unsourced →
    f.same g = true ∧ f.numbers = g.numbers
  | .literal a, g, h => by
    cases g <;> simp [Filter.unsourced] at h
    simp [Filter.same, Filter.numbers, h, Literal.same_self]
  | .reference p, g, h => by
    cases g <;> simp [Filter.unsourced] at h
    simp [Filter.same, Filter.numbers, Path.same_of_unsourced h]
  | .existence p inverted, g, h => by
    cases g <;> simp [Filter.unsourced] at h
    simp [Filter.same, Filter.numbers, Path.same_of_unsourced h.1, h.2]
  | .negation f, g, h => by
    cases g <;> simp [Filter.unsourced] at h
    simp [Filter.same, Filter.numbers, Filter.same_of_unsourced h]
  | .arithmetic op left right, g, h | .comparison op left right, g, h
  | .logical op left right, g, h => by
    cases g <;> simp [Filter.unsourced] at h
    simp [Filter.same, Filter.numbers, h.1, Filter.same_of_unsourced h.2.1,
      Filter.same_of_unsourced h.2.2]

end

/-- **Structural equality is equality of the nodes**, up to how numbers are compared. -/
theorem Path.unsourced_eq_iff {p q : Path} :
    p.unsourced = q.unsourced ↔ p.same q = true ∧ p.numbers = q.numbers :=
  ⟨same_of_unsourced, fun h => (matched_of_same h.1).2 h.2⟩

end PathQuery
