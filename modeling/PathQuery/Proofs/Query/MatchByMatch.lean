import PathQuery.Proofs.Query.Composition

/-! # Paths are applied match by match

The evaluator takes all matches through one step before it takes any of them through the
next.  A search of this kind `LinesUp` if it does the same for a row of starts as for its
parts, one after the other: it succeeds exactly if it succeeds for each part, and what it
finds stands in their order.  Going on from what such a search finds is such a search
again (`LinesUp.bind`), so steps, segments and whole paths may be followed from one match
at a time (`Path.query_append_iff`).  Which error a failing search ends in may differ.
-/

namespace PathQuery

/-- The search does the same for a row of starts as for its parts, one after the other. -/
structure LinesUp {ε α β : Type} (run : List α → Except ε (List β)) : Prop where
  nil : run [] = .ok []
  append : ∀ first second found, run (first ++ second) = .ok found ↔
    ∃ a b, run first = .ok a ∧ run second = .ok b ∧ found = a ++ b

/-- From each start the search finds the part in its place, and the parts in a row are
what is found. -/
def FoundFromEach {ε α β : Type} (search : α → Except ε (List β)) (starts : List α)
    (found : List β) : Prop :=
  ∃ parts, List.Forall₂ (fun start part => search start = .ok part) starts parts ∧
    found = parts.flatten

section
variable {ε α β : Type} {search : α → Except ε (List β)} {start : α} {rest : List α}
  {found : List β}

theorem foundFromEach_nil_iff : FoundFromEach search [] found ↔ found = [] := by
  constructor
  · rintro ⟨parts, hparts, rfl⟩
    rw [List.forall₂_nil_left_iff.mp hparts, List.flatten_nil]
  · rintro rfl
    exact ⟨[], .nil, rfl⟩

theorem foundFromEach_cons_iff : FoundFromEach search (start :: rest) found ↔
    ∃ a b, search start = .ok a ∧ FoundFromEach search rest b ∧ found = a ++ b := by
  constructor
  · rintro ⟨parts, hparts, rfl⟩
    obtain ⟨a, later, ha, hlater, rfl⟩ := List.forall₂_cons_left_iff.mp hparts
    exact ⟨a, later.flatten, ha, ⟨later, hlater, rfl⟩, rfl⟩
  · rintro ⟨a, b, ha, ⟨parts, hparts, rfl⟩, rfl⟩
    exact ⟨a :: parts, .cons ha hparts, rfl⟩

theorem gather_eq_ok_iff {starts : List α} :
    gather search starts = .ok found ↔ FoundFromEach search starts found := by
  rw [gather, map_eq_ok]
  exact exists_congr fun parts => and_congr mapM_eq_ok eq_comm

end

namespace LinesUp

variable {ε α β γ : Type}

theorem pure : LinesUp (fun starts : List α => (.ok starts : Except ε (List α))) where
  nil := rfl
  append first second found := by
    constructor
    · intro h
      exact ⟨first, second, rfl, rfl, (Except.ok.inj h).symm⟩
    · rintro ⟨a, b, ha, hb, rfl⟩
      rw [Except.ok.inj ha, Except.ok.inj hb]

/-- Going on from what is found. -/
theorem bind {run : List α → Except ε (List β)} {next : List β → Except ε (List γ)}
    (hrun : LinesUp run) (hnext : LinesUp next) :
    LinesUp fun starts => run starts >>= next where
  nil := bind_eq_ok.mpr ⟨[], hrun.nil, hnext.nil⟩
  append first second found := by
    constructor
    · intro h
      obtain ⟨between, hbetween, h⟩ := bind_eq_ok.mp h
      obtain ⟨a, b, ha, hb, rfl⟩ := (hrun.append first second between).mp hbetween
      obtain ⟨c, d, hc, hd, rfl⟩ := (hnext.append a b found).mp h
      exact ⟨c, d, bind_eq_ok.mpr ⟨a, ha, hc⟩, bind_eq_ok.mpr ⟨b, hb, hd⟩, rfl⟩
    · rintro ⟨c, d, hc, hd, rfl⟩
      obtain ⟨a, ha, hc⟩ := bind_eq_ok.mp hc
      obtain ⟨b, hb, hd⟩ := bind_eq_ok.mp hd
      exact bind_eq_ok.mpr ⟨a ++ b, (hrun.append _ _ _).mpr ⟨a, b, ha, hb, rfl⟩,
        (hnext.append _ _ _).mpr ⟨c, d, hc, hd, rfl⟩⟩

/-- A search from a row of starts is a search from each of them. -/
theorem eq_ok_iff {run : List α → Except ε (List β)} (h : LinesUp run) {starts : List α}
    {found : List β} :
    run starts = .ok found ↔ FoundFromEach (fun start => run [start]) starts found := by
  induction starts generalizing found with
  | nil => rw [h.nil, foundFromEach_nil_iff, Except.ok.injEq, eq_comm]
  | cons start rest ih =>
    rw [← List.singleton_append, h.append]
    simp only [List.singleton_append, foundFromEach_cons_iff, ih]

end LinesUp

theorem gather_linesUp {ε α β : Type} (search : α → Except ε (List β)) :
    LinesUp (gather search) where
  nil := rfl
  append first second found := by
    simp only [gather, map_eq_ok, List.mapM_append, bind_eq_ok]
    constructor
    · rintro ⟨parts, ⟨front, hfront, back, hback, hparts⟩, rfl⟩
      obtain rfl := Except.ok.inj hparts
      exact ⟨_, _, ⟨front, hfront, rfl⟩, ⟨back, hback, rfl⟩, List.flatten_append⟩
    · rintro ⟨a, b, ⟨front, hfront, rfl⟩, ⟨back, hback, rfl⟩, rfl⟩
      exact ⟨front ++ back, ⟨front, hfront, back, hback, rfl⟩, List.flatten_append⟩

/-! ## Steps and segments -/

section
variable {limit : Nat} {root : Json} {names : Names}

theorem Head.go_linesUp (segmented : Bool) (head : Head) :
    LinesUp (head.go limit names segmented) := by
  match head with
  | .here => exact LinesUp.pure
  | .child .any =>
    refine ⟨rfl, fun first second found => ?_⟩
    simp only [go, List.flatMap_append, Except.ok.injEq]
    constructor
    · rintro rfl
      exact ⟨_, _, rfl, rfl, rfl⟩
    · rintro ⟨_, _, rfl, rfl, rfl⟩
      rfl
  | .child (.name key) => exact gather_linesUp _
  | .descend (some (.name key)) => exact gather_linesUp _
  | .descend (some .any) => exact gather_linesUp _
  | .descend none => exact gather_linesUp _

theorem Segment.through_linesUp (segments : List Segment) :
    LinesUp (Segment.through limit root segments) := by
  induction segments with
  | nil =>
    simp only [funext Segment.through_nil]
    exact LinesUp.pure
  | cons s rest ih =>
    obtain ⟨selectors⟩ := s
    have hgather := gather_linesUp (Selector.union limit root selectors)
    simpa only [Segment.through] using hgather.bind ih

theorem Step.through_linesUp (steps : List Step) :
    LinesUp (Step.through limit root names steps) := by
  induction steps with
  | nil =>
    simp only [funext Step.through_nil]
    exact LinesUp.pure
  | cons s rest ih =>
    obtain ⟨head, segments⟩ := s
    have hhead : LinesUp (head.go limit names (!segments.isEmpty)) := Head.go_linesUp _ _
    simpa only [Step.through] using hhead.bind ((Segment.through_linesUp segments).bind ih)

theorem Step.through_singleton (head : Head) (segments : List Segment) (starts : List Match) :
    Step.through limit root names [.mk head segments] starts =
      (head.go limit names (!segments.isEmpty) starts >>=
        Segment.through limit root segments) := by
  rw [← List.nil_append [Step.mk head segments], Step.through_concat, Step.through_nil]
  rfl

theorem Segment.through_singleton (selectors : List Selector) (starts : List Match) :
    Segment.through limit root [.mk selectors] starts =
      gather (Selector.union limit root selectors) starts := by
  rw [← List.nil_append [Segment.mk selectors], Segment.through_concat, Segment.through_nil]
  rfl

/-- The alternatives of a segment are tried in the order in which they are written. -/
theorem Selector.union_eq_ok_iff {selectors : List Selector} {m : Match} {found : List Match} :
    Selector.union limit root selectors m = .ok found ↔
      FoundFromEach (fun s => Selector.find limit root s m) selectors found := by
  induction selectors generalizing found with
  | nil => rw [Selector.union, foundFromEach_nil_iff, Except.ok.injEq, eq_comm]
  | cons s rest ih =>
    simp only [Selector.union, bind_eq_ok, foundFromEach_cons_iff, ih]
    constructor
    · rintro ⟨first, hfirst, others, hothers, h⟩
      exact ⟨first, others, hfirst, hothers, (Except.ok.inj h).symm⟩
    · rintro ⟨first, others, hfirst, hothers, rfl⟩
      exact ⟨first, hfirst, others, hothers, rfl⟩

end

/-! ## Whole paths -/

namespace Path

/-- **Paths are applied match by match.**  Cut a path before any of its steps: a query of
the whole path succeeds exactly if a query of the first part does and the other steps,
taken as a path from the current value, succeed for each of its matches.  What it finds is
then what these find, in the order of the matches of the first part.

So it is within a node: its segments go on from each match that its head leads to, the
later segments from each match of the earlier ones, and a segment lines up for each match
what its alternatives find in the order in which they are written. -/
theorem query_append_iff (options : Options) (origin : Origin) (segments : List Segment)
    (before after : List Step) (source : String) (doc : Json) :
    (∀ found, query options (.mk origin segments (before ++ after) source) doc = .ok found ↔
      ∃ starts, query options (.mk origin segments before source) doc = .ok starts ∧
        FoundFromEach (fun m => resolve options.maxDepth doc .strict m
          (.mk .current [] after source)) starts found) ∧
    (∀ names head inner starts found,
      Step.through options.maxDepth doc names [.mk head inner] starts = .ok found ↔
        ∃ reached, head.go options.maxDepth names (!inner.isEmpty) starts = .ok reached ∧
          FoundFromEach (fun m => Segment.through options.maxDepth doc inner [m])
            reached found) ∧
    (∀ first second starts found,
      Segment.through options.maxDepth doc (first ++ second) starts = .ok found ↔
        ∃ between, Segment.through options.maxDepth doc first starts = .ok between ∧
          FoundFromEach (fun m => Segment.through options.maxDepth doc second [m])
            between found) ∧
    ∀ selectors starts found,
      Segment.through options.maxDepth doc [.mk selectors] starts = .ok found ↔
        ∃ parts, List.Forall₂ (fun m part =>
          FoundFromEach (fun s => Selector.find options.maxDepth doc s m) selectors part)
            starts parts ∧ found = parts.flatten := by
  refine ⟨fun found => ?_, fun names head inner starts found => ?_,
    fun first second starts found => ?_, fun selectors starts found => ?_⟩
  · have hafter : ∀ m, resolve options.maxDepth doc .strict m (.mk .current [] after source) =
        Step.through options.maxDepth doc .strict after [m] := by
      intro m
      rw [resolve, Segment.through_nil]
      rfl
    have hwhole : query options (.mk origin segments (before ++ after) source) doc =
        query options (.mk origin segments before source) doc >>=
          Step.through options.maxDepth doc .strict after := by
      rw [query_mk, query_mk, bind_assoc]
      exact congrArg _ (funext (Step.through_append before after))
    simp only [hafter, hwhole, bind_eq_ok, (Step.through_linesUp after).eq_ok_iff]
  · simp only [Step.through_singleton, bind_eq_ok, (Segment.through_linesUp inner).eq_ok_iff]
  · simp only [Segment.through_append, bind_eq_ok, (Segment.through_linesUp second).eq_ok_iff]
  · rw [Segment.through_singleton, gather_eq_ok_iff]
    simp only [FoundFromEach, Selector.union_eq_ok_iff]

end Path
end PathQuery
