import PathQuery.Proofs.Agreement
import PathQuery.Proofs.Query.Failure
import PathQuery.Proofs.Query.MatchByMatch

/-! # Names and wildcards in brackets

A bare name and a name in brackets find the same, and so do the two wildcards; they differ
in what they do with a value that is no object.  A bare name at the top level of a path
fails there, and a name in brackets finds nothing.  `Path.bracketed` writes all bare names
and wildcards of a path in brackets, except those of deep scans.  Its query finds the same
as that of the path, unless a name at the top level has failed (`Path.query_bracketed`).

Within filters the two spellings are the same even in failing.  An error that cites an
expression cites it in its own spelling, which is what `EvalError.bracketed` is about.
-/

namespace PathQuery

/-! ## The other spelling -/

/-- The selector that finds the children of a bare name or wildcard. -/
def KeyTest.selector : KeyTest → Selector
  | .name key => .name key
  | .any => .wildcard

/-- Where a step goes if its name is written in brackets. -/
def Head.unnamed : Head → Head
  | .child _ => .here
  | .here => .here
  | .descend key => .descend key

/-- The clause that stands for the name of a step. -/
def Head.clause : Head → List Segment
  | .child key => [.mk [key.selector]]
  | .here | .descend _ => []

mutual

/-- The path with its bare names and wildcards in brackets, also those in its filters. -/
def Path.bracketed : Path → Path
  | .mk origin segments steps source =>
    .mk origin (Segment.bracketedList segments) (Step.bracketedList steps) source

/-- A name in brackets stands before the other segments of its step. -/
def Step.bracketedList : List Step → List Step
  | [] => []
  | .mk head segments :: rest =>
    .mk head.unnamed (head.clause ++ Segment.bracketedList segments) :: Step.bracketedList rest

/-- The segments with bare names in brackets. -/
def Segment.bracketedList : List Segment → List Segment
  | [] => []
  | .mk selectors :: rest =>
    .mk (Selector.bracketedList selectors) :: Segment.bracketedList rest

/-- The selectors with bare names in brackets. -/
def Selector.bracketedList : List Selector → List Selector
  | [] => []
  | s :: rest => Selector.bracketed s :: Selector.bracketedList rest

/-- The selector with bare names in brackets; only filters have any. -/
def Selector.bracketed : Selector → Selector
  | .filter condition => .filter (Filter.bracketed condition)
  | .wildcard => .wildcard
  | .index position => .index position
  | .name key => .name key
  | .slice bounds => .slice bounds

/-- The expression with bare names in brackets. -/
def Filter.bracketed : Filter → Filter
  | .literal value => .literal value
  | .reference path => .reference (Path.bracketed path)
  | .existence path inverted => .existence (Path.bracketed path) inverted
  | .negation operand => .negation (Filter.bracketed operand)
  | .arithmetic op left right => .arithmetic op (Filter.bracketed left) (Filter.bracketed right)
  | .comparison op left right => .comparison op (Filter.bracketed left) (Filter.bracketed right)
  | .logical op left right => .logical op (Filter.bracketed left) (Filter.bracketed right)

end

/-- The error, with the expression that it cites in the other spelling. -/
def EvalError.bracketed : EvalError → EvalError
  | .arithmeticCondition expression => .arithmeticCondition expression.bracketed
  | .notAValue expression => .notAValue expression.bracketed
  | e => e

theorem EvalError.OfValues.bracketed_eq {e : EvalError} (h : e.OfValues) : e.bracketed = e := by
  cases e <;> first | rfl | exact h.elim

theorem Operand.mapError_ofMatches (source : String) (found : List Match) :
    (ofMatches source found).mapError EvalError.bracketed = ofMatches source found := by
  refine mapError_eq_self fun e h => ?_
  obtain ⟨kind, rfl⟩ := exists_of_ofMatches_eq_error h
  rfl

/-! ## Within filters -/

theorem Match.named_lenient (key : String) (m : Match) :
    m.named .lenient key = .ok (m.childByKey? key).toList := by
  unfold named childByKey?
  cases m.value <;> simp [Json.kind, Json.getKey?]

theorem Segment.isEmpty_bracketedList (segments : List Segment) :
    (bracketedList segments).isEmpty = segments.isEmpty := by
  cases segments with
  | nil => rfl
  | cons s rest =>
    obtain ⟨selectors⟩ := s
    rfl

section
variable {limit : Nat} {root : Json}

theorem KeyTest.union_selector (key : KeyTest) (m : Match) :
    Selector.union limit root [key.selector] m = .ok (m.select key.selector) := by
  cases key <;> simp [selector, Selector.union, Selector.find] <;> rfl

variable (root) in
/-- A clause with a name finds what a lenient bare name does. -/
theorem Head.go_clause (names : Names) (head : Head) (segments : List Segment)
    (starts : List Match) :
    (head.unnamed.go limit names (!(head.clause ++ Segment.bracketedList segments).isEmpty)
        starts >>= Segment.through limit root head.clause) =
      head.go limit .lenient (!segments.isEmpty) starts := by
  match head with
  | .here =>
    change Segment.through limit root [] starts = _
    rw [Segment.through_nil]
    rfl
  | .child key =>
    change Segment.through limit root [.mk [key.selector]] starts = _
    rw [Segment.through_singleton, gather_eq_flatMap fun m _ => key.union_selector m]
    cases key with
    | any => rfl
    | name key => exact (gather_eq_flatMap fun m _ => m.named_lenient key).symm
  | .descend key =>
    simp only [unnamed, clause, List.nil_append, Segment.isEmpty_bracketedList,
      funext Segment.through_nil]
    rcases key with _ | _ | _ <;> exact bind_pure _

mutual

/-- **A path in a filter leads to the same in both spellings**, and fails in the same way. -/
theorem Path.resolve_bracketed {current : Match} : ∀ p : Path,
    Path.resolve limit root .lenient current p.bracketed =
      (Path.resolve limit root .lenient current p).mapError EvalError.bracketed
  | .mk origin segments steps source => by
    simp only [Path.bracketed, Path.resolve, mapError_bind, Segment.through_bracketed segments,
      Step.through_bracketed steps]

theorem Step.through_bracketed : ∀ (steps : List Step) {starts : List Match},
    Step.through limit root .lenient (Step.bracketedList steps) starts =
      (Step.through limit root .lenient steps starts).mapError EvalError.bracketed
  | [], starts => by
    rw [Step.bracketedList, Step.through_nil]
    rfl
  | .mk head segments :: rest, starts => by
    simp only [Step.bracketedList, Step.through, mapError_bind,
      Head.mapError_go EvalError.OfValues.bracketed_eq, ← Segment.through_bracketed segments,
      ← Step.through_bracketed rest]
    rw [← Head.go_clause root .lenient head segments starts, bind_assoc]
    simp only [Segment.through_append, bind_assoc]

theorem Segment.through_bracketed : ∀ (segments : List Segment) {starts : List Match},
    Segment.through limit root (Segment.bracketedList segments) starts =
      (Segment.through limit root segments starts).mapError EvalError.bracketed
  | [], starts => by
    rw [Segment.bracketedList, Segment.through_nil]
    rfl
  | .mk selectors :: rest, starts => by
    simp only [Segment.bracketedList, Segment.through, mapError_bind, mapError_gather,
      Selector.union_bracketed selectors, Segment.through_bracketed rest]

theorem Selector.union_bracketed : ∀ (selectors : List Selector) {m : Match},
    Selector.union limit root (Selector.bracketedList selectors) m =
      (Selector.union limit root selectors m).mapError EvalError.bracketed
  | [], m => by
    rw [Selector.bracketedList, Selector.union]
    rfl
  | s :: rest, m => by
    simp only [Selector.bracketedList, Selector.union, mapError_bind, Selector.find_bracketed s,
      Selector.union_bracketed rest]
    rfl

theorem Selector.find_bracketed : ∀ (s : Selector) {m : Match},
    Selector.find limit root s.bracketed m =
      (Selector.find limit root s m).mapError EvalError.bracketed
  | .filter condition, m => by
    simp only [Selector.bracketed, Selector.find, mapError_gather, mapError_map,
      Filter.holds_bracketed condition]
  | .wildcard, m | .index _, m | .name _, m | .slice _, m => by
    simp only [Selector.bracketed, Selector.find]
    rfl

/-- **An expression holds of the same in both spellings.** -/
theorem Filter.holds_bracketed : ∀ (f : Filter) {current : Match},
    Filter.holds limit root f.bracketed current =
      (Filter.holds limit root f current).mapError EvalError.bracketed
  | .existence path inverted, current => by
    simp only [Filter.bracketed, Filter.holds, mapError_map, Path.resolve_bracketed path]
  | .reference path, current => by
    simp only [Filter.bracketed, Filter.holds, mapError_map, Path.resolve_bracketed path]
  | .negation inner, current => by
    simp only [Filter.bracketed, Filter.holds, mapError_map, Filter.holds_bracketed inner]
  | .logical op left right, current => by
    simp only [Filter.bracketed, Filter.holds, mapError_bind, Filter.holds_bracketed left,
      Filter.holds_bracketed right]
    refine congrArg _ (funext fun first => ?_)
    cases op <;> cases first <;> rfl
  | .comparison op left right, current => by
    simp only [Filter.bracketed, Filter.holds, mapError_bind, Filter.operand_bracketed left,
      Filter.operand_bracketed right]
    rfl
  | .literal value, current => by
    cases value <;> simp only [Filter.bracketed, Filter.holds] <;> rfl
  | .arithmetic op left right, current => by
    simp only [Filter.bracketed, Filter.holds]
    rfl

/-- An expression has the same value in both spellings. -/
theorem Filter.operand_bracketed : ∀ (f : Filter) {current : Match},
    Filter.operand limit root f.bracketed current =
      (Filter.operand limit root f current).mapError EvalError.bracketed
  | .literal value, current => by
    simp only [Filter.bracketed, Filter.operand]
    rfl
  | .reference path, current => by
    have hsource : path.bracketed.source = path.source := by
      obtain ⟨origin, segments, steps, source⟩ := path
      rfl
    simp only [Filter.bracketed, Filter.operand, mapError_bind, Path.resolve_bracketed path,
      Operand.mapError_ofMatches, hsource]
  | .arithmetic op left right, current => by
    simp only [Filter.bracketed, Filter.operand, mapError_bind, Filter.operand_bracketed left,
      Filter.operand_bracketed right, Operand.mapError_arithmetic EvalError.OfValues.bracketed_eq]
  | .existence _ _, current | .negation _, current | .comparison _ _ _, current
  | .logical _ _ _, current => by
    simp only [Filter.bracketed, Filter.operand]
    rfl

end

/-! ## At the top level -/

/-- A bare name of one of the steps has met a value that is no object: the steps before it
lead there, and the error says so. -/
def Step.MeetsNoObject (limit : Nat) (root : Json) (steps : List Step) (starts : List Match)
    (e : EvalError) : Prop :=
  ∃ before key segments after found m,
    steps = before ++ .mk (.child (.name key)) segments :: after ∧
      Step.through limit root .strict before starts = .ok found ∧ m ∈ found ∧
      m.value.kind ≠ .object ∧ e = .notAnObject key m.value.kind m.location

theorem Match.named_strict (key : String) (m : Match) : m.named .strict key =
    if m.value.kind = .object then m.named .lenient key
    else .error (.notAnObject key m.value.kind m.location) := by
  unfold named
  cases m.value.kind <;> rfl

/-- A strict name fails at a value that is no object, or it is as good as a lenient one. -/
theorem Match.gather_named_strict (key : String) (starts : List Match) :
    (∃ m ∈ starts, m.value.kind ≠ .object ∧
      gather (named .strict key) starts = .error (.notAnObject key m.value.kind m.location)) ∨
    gather (named .strict key) starts = gather (named .lenient key) starts := by
  rcases isError_or_isOk (gather (named .strict key) starts) with ⟨e, he⟩ | ⟨found, hfound⟩
  · obtain ⟨m, hm, hnamed⟩ := exists_of_gather_eq_error he
    rw [named_strict] at hnamed
    split at hnamed
    · simp [named_lenient] at hnamed
    · rename_i hkind
      exact Or.inl ⟨m, hm, hkind, he.trans (congrArg _ (Except.error.inj hnamed).symm)⟩
  · refine Or.inr ?_
    have hsame : ∀ m ∈ starts, m.named .strict key = .ok (m.childByKey? key).toList := by
      intro m hm
      obtain ⟨part, hpart, -⟩ := exists_of_gather_eq_ok hfound hm
      rw [named_strict] at hpart ⊢
      split at hpart
      · rename_i hkind
        rw [if_pos hkind, named_lenient]
      · cases hpart
    rw [gather_eq_flatMap hsame, gather_eq_flatMap fun m _ => m.named_lenient key]

/-- The name of a step has failed, or the step goes where a lenient one goes. -/
theorem Head.go_strict (segmented : Bool) (head : Head) (starts : List Match) :
    (∃ key, head = .child (.name key) ∧ ∃ m ∈ starts, m.value.kind ≠ .object ∧
      head.go limit .strict segmented starts =
        .error (.notAnObject key m.value.kind m.location)) ∨
    head.go limit .strict segmented starts = head.go limit .lenient segmented starts := by
  match head with
  | .child (.name key) =>
    rcases Match.gather_named_strict key starts with hfault | hsame
    · exact Or.inl ⟨key, rfl, hfault⟩
    · exact Or.inr hsame
  | .here | .child .any | .descend (some (.name _)) | .descend (some .any) | .descend none =>
    exact Or.inr rfl

/-- **Steps lead to the same in both spellings**, unless a bare name has met a value that is
no object. -/
theorem Step.strict_bracketed (steps : List Step) (starts : List Match) :
    Agree (Step.MeetsNoObject limit root steps starts) Eq
      ((Step.through limit root .strict steps starts).mapError EvalError.bracketed)
      (Step.through limit root .strict (bracketedList steps) starts) := by
  induction steps generalizing starts with
  | nil =>
    rw [bracketedList, through_nil]
    exact .ok rfl
  | cons s rest ih =>
    obtain ⟨head, segments⟩ := s
    have hspelled : Step.through limit root .strict (bracketedList (.mk head segments :: rest))
        starts = head.go limit .lenient (!segments.isEmpty) starts >>= fun reached =>
          Segment.through limit root (Segment.bracketedList segments) reached >>=
            Step.through limit root .strict (bracketedList rest) := by
      rw [bracketedList, through, ← Head.go_clause root .strict head segments starts, bind_assoc]
      simp only [Segment.through_append, bind_assoc]
    rw [hspelled]
    simp only [through, mapError_bind, Head.mapError_go EvalError.OfValues.bracketed_eq,
      ← Segment.through_bracketed segments]
    rcases head.go_strict (!segments.isEmpty) starts with
      ⟨key, rfl, m, hm, hkind, hfault⟩ | hsame
    · rw [hfault]
      exact .excused ⟨[], key, segments, rest, starts, m, rfl, through_nil starts, hm, hkind, rfl⟩ _
    · rw [hsame]
      refine Agree.bind_self fun reached hreached => Agree.bind_self fun found hfound => ?_
      rw [Segment.through_bracketed, mapError_eq_ok] at hfound
      refine (ih found).excuse ?_
      rintro e ⟨before, key, inner, after, reached', m, rfl, hbefore, hfault⟩
      refine ⟨.mk head segments :: before, key, inner, after, reached', m, rfl, ?_, hfault⟩
      rw [through, hsame, hreached]
      exact bind_eq_ok.mpr ⟨reached, rfl, bind_eq_ok.mpr ⟨found, hfound, hbefore⟩⟩

end

/-! ## Whole paths -/

namespace Path

/-- A bare name of the path at its top level has met a value that is no object, among the
matches of the part of the path before it. -/
def MeetsNoObject (options : Options) (p : Path) (doc : Json) (e : EvalError) : Prop :=
  ∃ before key segments after reached m,
    p.steps = before ++ .mk (.child (.name key)) segments :: after ∧
      query options (.mk p.origin p.segments before p.source) doc = .ok reached ∧
      m ∈ reached ∧ m.value.kind ≠ .object ∧ e = .notAnObject key m.value.kind m.location

theorem query_bracketed_agree (options : Options) (p : Path) (doc : Json) :
    Agree (MeetsNoObject options p doc) Eq
      ((p.query options doc).mapError EvalError.bracketed) (p.bracketed.query options doc) := by
  obtain ⟨origin, segments, steps, source⟩ := p
  rw [bracketed, query_mk, query_mk, mapError_bind, ← Segment.through_bracketed]
  refine Agree.bind_self fun found hfound => (Step.strict_bracketed steps found).excuse ?_
  rw [Segment.through_bracketed, mapError_eq_ok] at hfound
  rintro e ⟨before, key, inner, after, reached, m, hsteps, hbefore, hfault⟩
  refine ⟨before, key, inner, after, reached, m, hsteps, ?_, hfault⟩
  exact (query_mk ..).trans (bind_eq_ok.mpr ⟨found, hfound, hbefore⟩)

/-- **Bare and bracketed spellings agree.**  Where the query of a path has a result, so has
that of the path in brackets, and it is the same.  Where the path in brackets has a result,
the path has the same, or a bare name at its top level has met a value that is no object.

Within filters the spellings do not differ: expressions hold of the same values, have the
same values, and fail alike; an error that cites an expression does so in its spelling. -/
theorem query_bracketed (options : Options) (p : Path) (doc : Json) :
    (∀ found, p.query options doc = .ok found → p.bracketed.query options doc = .ok found) ∧
    (∀ found, p.bracketed.query options doc = .ok found → p.query options doc = .ok found ∨
      ∃ e, p.query options doc = .error e ∧ p.MeetsNoObject options doc e) ∧
    ∀ (f : Filter) (current : Match),
      f.bracketed.holds options.maxDepth doc current =
        (f.holds options.maxDepth doc current).mapError EvalError.bracketed ∧
      f.bracketed.operand options.maxDepth doc current =
        (f.operand options.maxDepth doc current).mapError EvalError.bracketed := by
  have hagree := query_bracketed_agree options p doc
  refine ⟨fun found h => hagree.eq_ok ((mapError_eq_ok _).mpr h), fun found h => ?_,
    fun f current => ⟨f.holds_bracketed, f.operand_bracketed⟩⟩
  cases hquery : p.query options doc with
  | ok found' => exact Or.inl ((hagree.eq_ok ((mapError_eq_ok _).mpr hquery)).symm.trans h)
  | error e =>
    rw [h, hquery] at hagree
    cases hagree with
    | excused hfault =>
      -- such an error cites no expression, so it has no other spelling
      have hsame : e.bracketed = e := by
        obtain ⟨before, key, inner, after, reached, m, -, -, -, -, he⟩ := hfault
        cases e <;> simp_all [EvalError.bracketed]
      exact Or.inr ⟨e, rfl, hsame ▸ hfault⟩

end Path
end PathQuery
