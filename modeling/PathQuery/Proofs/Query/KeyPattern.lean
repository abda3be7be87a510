import PathQuery.Proofs.Query.Composition
import PathQuery.Proofs.Query.Reach

/-! # What key patterns match

A key pattern is a path of names, wildcards and deep scans, in which no selector looks
at a position or at a value.  It has a meaning without any evaluation: the ways through
a document, as words of keys and indexes, that it describes (`Path.language`).  A step
stands for the words of its own, and a path for those of its steps one after the other.

Each part of the evaluator reaches by the language of what it evaluates, so a query
matches the locations of the language that the document has; it fails exactly if a step
meets a value on its way that it does not apply to (`Path.query_keyPattern`).
-/

namespace PathQuery

/-! ## The language of a path -/

/-- The ways that a step takes before its segments: a deep scan goes through any elements
to what its name says, and without a name through one or more elements; if segments
follow, it may also stay where it is. -/
def Head.language (segmented : Bool) : Head → Language Accessor
  | .here => 1
  | .child key => key.language
  | .descend (some key) => ⊤ * key.language
  | .descend none => if segmented then ⊤ else ⊤ * KeyTest.any.language

/-- The element that a selector stands for. -/
def Selector.language : Selector → Language Accessor
  | .name key => (KeyTest.name key).language
  | .wildcard => KeyTest.any.language
  | _ => 0

/-- The elements that the alternatives of a segment stand for. -/
def Segment.language (s : Segment) : Language Accessor :=
  (s.selectors.map Selector.language).sum

/-- The ways that segments take one after the other. -/
def Segment.listLanguage (segments : List Segment) : Language Accessor :=
  (segments.map Segment.language).prod

/-- The ways that a step takes with its segments. -/
def Step.language (s : Step) : Language Accessor :=
  s.head.language (!s.segments.isEmpty) * Segment.listLanguage s.segments

/-- The ways that steps take one after the other. -/
def Step.listLanguage (steps : List Step) : Language Accessor :=
  (steps.map Step.language).prod

/-- The ways from the root of a document that a path describes. -/
def Path.language (p : Path) : Language Accessor :=
  Segment.listLanguage p.segments * Step.listLanguage p.steps

/-! ## Key patterns -/

/-- The selector is a name or the wildcard. -/
def Selector.isKey : Selector → Bool
  | .name _ | .wildcard => true
  | _ => false

/-- All alternatives of all segments are names or wildcards. -/
def Segment.allKeys (segments : List Segment) : Bool :=
  segments.all fun s => s.selectors.all Selector.isKey

/-- The path is built of names, wildcards and deep scans only. -/
def Path.isKeyPattern (p : Path) : Bool :=
  Segment.allKeys p.segments && p.steps.all fun s => Segment.allKeys s.segments

/-- The step does not apply to a value: a bare name to what is no object, a deep scan to
what has more levels below it than the limit. -/
def Head.FailsOn (limit : Nat) : Head → Json → Prop
  | .child (.name _), v => v.kind ≠ .object
  | .descend _, v => limit < v.levels
  | _, _ => False

/-! ## Steps -/

section
variable {limit : Nat} {starts found : List Match}

theorem Match.named_isError_iff {key : String} {m : Match} :
    (∃ e, m.named .strict key = .error e) ↔ m.value.kind ≠ .object := by
  unfold named
  cases hk : m.value.kind <;> simp

theorem Match.mem_named_iff {key : String} {m m' : Match} {part : List Match}
    (h : m.named .strict key = .ok part) :
    m' ∈ part ↔ m.Reaches (KeyTest.name key).language m' := by
  rw [reaches_name_iff]
  unfold named at h
  split at h
  · rw [← Except.ok.inj h, Option.mem_toList]
  · simp_all
  · simp at h

/-- **A step reaches by its language**, before its segments. -/
theorem Head.go_covers {segmented : Bool} {head : Head}
    (hd : ∀ m ∈ starts, m.value.DistinctKeys)
    (h : head.go limit .strict segmented starts = .ok found) :
    Match.Covers (head.language segmented) starts found := by
  match head with
  | .here =>
    obtain rfl := Except.ok.inj h
    exact Match.Covers.one starts
  | .child .any =>
    obtain rfl := Except.ok.inj h
    intro m
    rw [List.mem_flatMap]
    constructor
    · rintro ⟨start, hstart, hm⟩
      exact ⟨start, hstart, (Match.reaches_any_iff (hd start hstart)).mpr hm⟩
    · rintro ⟨start, hstart, hm⟩
      exact ⟨start, hstart, (Match.reaches_any_iff (hd start hstart)).mp hm⟩
  | .child (.name key) =>
    exact Match.Covers.of_gather h fun start _ part hpart m => Match.mem_named_iff hpart
  | .descend (some (.name key)) =>
    refine Match.Covers.of_gather h fun start hstart part hpart m => ?_
    obtain ⟨all, hall, rfl⟩ := map_eq_ok.mp hpart
    exact Match.reaches_named_iff (hd start hstart) hall
  | .descend (some .any) =>
    exact Match.Covers.of_gather h fun start hstart part hpart m =>
      Match.reaches_below_iff (hd start hstart) hpart
  | .descend none =>
    cases segmented with
    | true =>
      exact Match.Covers.of_gather h fun start hstart part hpart m =>
        Match.reaches_all_iff (hd start hstart) hpart
    | false =>
      exact Match.Covers.of_gather h fun start hstart part hpart m =>
        Match.reaches_below_iff (hd start hstart) hpart

/-- A step fails exactly if it does not apply to one of the values. -/
theorem Head.go_isError_iff {segmented : Bool} {head : Head}
    (hd : ∀ m ∈ starts, m.value.DistinctKeys) :
    (∃ e, head.go limit .strict segmented starts = .error e) ↔
      ∃ m ∈ starts, head.FailsOn limit m.value := by
  match head with
  | .here | .child .any => simp [go, FailsOn]
  | .child (.name key) =>
    rw [go, gather_isError_iff]
    simp only [Match.named_isError_iff, FailsOn]
  | .descend (some (.name key)) =>
    rw [go, gather_isError_iff]
    refine exists_congr fun m => and_congr_right fun hm => ?_
    simp only [map_eq_error, Match.descendants_isError_iff (hd m hm), FailsOn]
  | .descend (some .any) | .descend none =>
    rw [go, gather_isError_iff]
    refine exists_congr fun m => and_congr_right fun hm => ?_
    simp only [Match.descendants_isError_iff (hd m hm), FailsOn]

end

/-! ## Segments -/

section
variable {limit : Nat} {root : Json} {starts : List Match}

/-- The alternatives of a segment reach by their language. -/
theorem Selector.union_covers {selectors : List Selector} (h : selectors.all isKey = true)
    {m : Match} (hd : m.value.DistinctKeys) :
    ∃ found, union limit root selectors m = .ok found ∧
      ∀ m', m' ∈ found ↔ m.Reaches (selectors.map language).sum m' := by
  induction selectors with
  | nil =>
    refine ⟨[], by rw [union], fun m' => iff_of_false (by simp) ?_⟩
    exact Match.not_reaches_zero
  | cons s rest ih =>
    rw [List.all_cons, Bool.and_eq_true] at h
    obtain ⟨others, hothers, hmem⟩ := ih h.2
    obtain ⟨first, hfirst, hs⟩ : ∃ first, find limit root s m = .ok first ∧
        ∀ m', m' ∈ first ↔ m.Reaches s.language m' := by
      cases s with
      | name key =>
        refine ⟨_, by rw [find]; simp, fun m' => ?_⟩
        exact Option.mem_toList.trans Match.reaches_name_iff.symm
      | wildcard =>
        refine ⟨_, by rw [find]; simp, fun m' => ?_⟩
        exact (Match.reaches_any_iff hd).symm
      | _ => simp [isKey] at h
    refine ⟨first ++ others, ?_, fun m' => ?_⟩
    · rw [union, hfirst, hothers]
      rfl
    · rw [List.mem_append, hs, hmem, List.map_cons, List.sum_cons, Match.reaches_add_iff]

/-- **Segments reach by their language**, and they never fail. -/
theorem Segment.through_covers {segments : List Segment} (h : allKeys segments = true)
    (hd : ∀ m ∈ starts, m.value.DistinctKeys) :
    ∃ found, through limit root segments starts = .ok found ∧
      Match.Covers (listLanguage segments) starts found := by
  induction segments generalizing starts with
  | nil => exact ⟨starts, by rw [through], Match.Covers.one starts⟩
  | cons s rest ih =>
    obtain ⟨selectors⟩ := s
    rw [allKeys, List.all_cons, Bool.and_eq_true] at h
    have hunion : ∀ m ∈ starts, ∃ found, Selector.union limit root selectors m = .ok found ∧
        ∀ m', m' ∈ found ↔ m.Reaches (language (.mk selectors)) m' :=
      fun m hm => Selector.union_covers h.1 (hd m hm)
    obtain ⟨reached, hreached⟩ : ∃ reached,
        gather (fun m => Selector.union limit root selectors m) starts = .ok reached := by
      refine (isError_or_isOk _).resolve_left fun hfail => ?_
      obtain ⟨m, hm, e, he⟩ := gather_isError_iff.mp hfail
      obtain ⟨found, hfound, -⟩ := hunion m hm
      simp [hfound] at he
    have hfirst : Match.Covers (language (.mk selectors)) starts reached := by
      refine Match.Covers.of_gather hreached fun m hm part hpart m' => ?_
      obtain ⟨found, hfound, hmem⟩ := hunion m hm
      obtain rfl := Except.ok.inj (hfound.symm.trans hpart)
      exact hmem m'
    obtain ⟨found, hfound, hcovers⟩ := ih h.2 (hfirst.distinctKeys hd)
    refine ⟨found, ?_, hfirst.mul hcovers⟩
    rw [through, hreached]
    exact hfound

/-! ## Whole paths -/

/-- A run of steps fails at the first of them that does not apply to a value on its way. -/
def Step.FailsFrom (limit : Nat) (steps : List Step) (starts : List Match) : Prop :=
  ∃ before head segments after, steps = before ++ .mk head segments :: after ∧
    ∃ start ∈ starts, ∃ m, start.Reaches (listLanguage before) m ∧ head.FailsOn limit m.value

theorem Step.failsFrom_cons_iff {head : Head} {segments : List Segment} {rest : List Step}
    {between : List Match}
    (hcovers : Match.Covers (Step.mk head segments).language starts between) :
    FailsFrom limit (.mk head segments :: rest) starts ↔
      (∃ start ∈ starts, head.FailsOn limit start.value) ∨ FailsFrom limit rest between := by
  constructor
  · rintro ⟨before, head', segments', after, hsteps, start, hstart, m, hreach, hfails⟩
    rcases List.cons_eq_append_iff.mp hsteps with ⟨rfl, h⟩ | ⟨before, rfl, rfl⟩
    · obtain ⟨hstep, -⟩ := List.cons.inj h
      obtain ⟨rfl, -⟩ := Step.mk.inj hstep
      obtain rfl := Match.reaches_one_iff.mp hreach
      exact Or.inl ⟨m, hstart, hfails⟩
    · obtain ⟨b, hb, hreach⟩ := Match.reaches_mul_iff.mp hreach
      have hmem := (hcovers b).mpr ⟨start, hstart, hb⟩
      exact Or.inr ⟨before, head', segments', after, rfl, b, hmem, m, hreach, hfails⟩
  · rintro (⟨start, hstart, hfails⟩ |
      ⟨before, head', segments', after, rfl, b, hb, m, hreach, hfails⟩)
    · exact ⟨[], head, segments, rest, rfl, start, hstart, start,
        Match.reaches_one_iff.mpr rfl, hfails⟩
    · obtain ⟨start, hstart, hb⟩ := (hcovers b).mp hb
      exact ⟨.mk head segments :: before, head', segments', after, rfl, start, hstart, m,
        Match.reaches_mul_iff.mpr ⟨b, hb, hreach⟩, hfails⟩

/-- **Steps reach by their language**, or one of them does not apply. -/
theorem Step.through_covers {steps : List Step}
    (h : steps.all (fun s => Segment.allKeys s.segments) = true)
    (hd : ∀ m ∈ starts, m.value.DistinctKeys) :
    (∀ found, through limit root .strict steps starts = .ok found →
      Match.Covers (listLanguage steps) starts found) ∧
    ((∃ e, through limit root .strict steps starts = .error e) ↔ FailsFrom limit steps starts) := by
  induction steps generalizing starts with
  | nil =>
    refine ⟨fun found hfound => ?_, iff_of_false (by simp [through]) ?_⟩
    · rw [through] at hfound
      exact Except.ok.inj hfound ▸ Match.Covers.one starts
    · rintro ⟨before, head, segments, after, hsteps, -⟩
      simp at hsteps
  | cons s rest ih =>
    obtain ⟨head, segments⟩ := s
    obtain ⟨hkeys, hrest⟩ : Segment.allKeys segments = true ∧
        rest.all (fun s => Segment.allKeys s.segments) = true := by
      rwa [List.all_cons, Bool.and_eq_true] at h
    rcases isError_or_isOk (head.go limit .strict (!segments.isEmpty) starts) with
      ⟨e, he⟩ | ⟨reached, hreached⟩
    · -- the first step does not apply, so the run ends with it
      obtain ⟨start, hstart, hfails⟩ := (Head.go_isError_iff hd).mp ⟨e, he⟩
      have hrun : through limit root .strict (.mk head segments :: rest) starts = .error e := by
        rw [through, he]
        rfl
      refine ⟨fun found hfound => ?_, iff_of_true ⟨e, hrun⟩ ?_⟩
      · simp [hrun] at hfound
      · exact ⟨[], head, segments, rest, rfl, start, hstart, start,
          Match.reaches_one_iff.mpr rfl, hfails⟩
    · have hhead := Head.go_covers hd hreached
      obtain ⟨between, hbetween, hsegments⟩ : ∃ between,
          Segment.through limit root segments reached = .ok between ∧
            Match.Covers (Segment.listLanguage segments) reached between :=
        Segment.through_covers hkeys (hhead.distinctKeys hd)
      have hstep : Match.Covers (Step.mk head segments).language starts between :=
        hhead.mul hsegments
      have hrun : through limit root .strict (.mk head segments :: rest) starts =
          through limit root .strict rest between := by
        rw [through, hreached]
        show (Segment.through limit root segments reached >>= through limit root .strict rest) = _
        rw [hbetween]
        rfl
      have happlies : ¬ ∃ start ∈ starts, head.FailsOn limit start.value := by
        intro hfails
        obtain ⟨e, he⟩ := (Head.go_isError_iff hd).mpr hfails
        exact absurd (hreached.symm.trans he) (by simp)
      obtain ⟨hok, herror⟩ := ih hrest (hstep.distinctKeys hd)
      rw [hrun, failsFrom_cons_iff hstep, or_iff_right happlies]
      exact ⟨fun found hfound => hstep.mul (hok found hfound), herror⟩

end

namespace Path

section
variable {options : Options} {p : Path} (hp : p.isKeyPattern = true) {doc : Json}
  (hd : doc.DistinctKeys)

include hp hd

/-- The first segments of a key pattern never fail, so a query is a run of its steps. -/
theorem exists_starts_of_keyPattern (options : Options) :
    ∃ starts, Match.Covers (Segment.listLanguage p.segments) [⟨[], doc⟩] starts ∧
      (∀ m ∈ starts, m.value.DistinctKeys) ∧
      p.query options doc = Step.through options.maxDepth doc .strict p.steps starts := by
  obtain ⟨origin, segments, steps, source⟩ := p
  rw [isKeyPattern, Bool.and_eq_true] at hp
  have hroot : ∀ m ∈ [(⟨[], doc⟩ : Match)], m.value.DistinctKeys := by
    simpa using hd
  obtain ⟨starts, hstarts, hcovers⟩ : ∃ starts,
      Segment.through options.maxDepth doc segments [⟨[], doc⟩] = .ok starts ∧
        Match.Covers (Segment.listLanguage segments) [⟨[], doc⟩] starts :=
    Segment.through_covers hp.1 hroot
  refine ⟨starts, hcovers, hcovers.distinctKeys hroot, ?_⟩
  rw [query_mk, hstarts]
  rfl

/-- A key pattern matches the locations of its language. -/
theorem mem_query_of_keyPattern {found : List Match} (hq : p.query options doc = .ok found)
    (m : Match) :
    m ∈ found ↔ m.location ∈ p.language ∧ doc.valueAt? m.location = some m.value := by
  obtain ⟨starts, hcovers, hstarts, hrun⟩ := exists_starts_of_keyPattern hp hd options
  rw [isKeyPattern, Bool.and_eq_true] at hp
  obtain ⟨hok, -⟩ := Step.through_covers hp.2 hstarts
  rw [hcovers.mul (hok found (hrun.symm.trans hq)) m]
  constructor
  · rintro ⟨start, hmem, l, hl, v, hv, rfl⟩
    obtain rfl := List.mem_singleton.mp hmem
    exact ⟨hl, hv⟩
  · rintro ⟨hl, hv⟩
    exact ⟨_, List.mem_singleton_self _, m.location, hl, m.value, hv, rfl⟩

/-- A key pattern fails at a step that does not apply. -/
theorem query_isError_iff_of_keyPattern :
    (∃ e, p.query options doc = .error e) ↔
      ∃ before head segments after, p.steps = before ++ .mk head segments :: after ∧
        ∃ l v, l ∈ language (.mk p.origin p.segments before p.source) ∧
          doc.valueAt? l = some v ∧ head.FailsOn options.maxDepth v := by
  obtain ⟨starts, hcovers, hstarts, hrun⟩ := exists_starts_of_keyPattern hp hd options
  rw [isKeyPattern, Bool.and_eq_true] at hp
  obtain ⟨-, herror⟩ := Step.through_covers hp.2 hstarts
  rw [hrun, herror]
  refine exists_congr fun before => exists_congr fun head => exists_congr fun segments' =>
    exists_congr fun after => and_congr_right fun _ => ?_
  constructor
  · rintro ⟨b, hb, m, hreach, hfails⟩
    obtain ⟨start, hmem, hb⟩ := (hcovers b).mp hb
    obtain rfl := List.mem_singleton.mp hmem
    obtain ⟨l, hl, v, hv, rfl⟩ := Match.reaches_mul_iff.mpr ⟨b, hb, hreach⟩
    exact ⟨l, v, hl, hv, hfails⟩
  · rintro ⟨l, v, hl, hv, hfails⟩
    obtain ⟨b, hb, hreach⟩ := Match.reaches_mul_iff.mp
      (⟨l, hl, v, hv, rfl⟩ : Match.Reaches _ ⟨[], doc⟩ ⟨l, v⟩)
    exact ⟨b, (hcovers b).mpr ⟨_, List.mem_singleton_self _, hb⟩, ⟨l, v⟩, hreach, hfails⟩

end

/-- **The meaning of a key pattern.**  If a query succeeds, it matches the locations of the
document that lie in the language of the path, with the values that are there.  It fails
exactly if some step meets a value that it does not apply to, at the end of a way that the
path up to that step describes. -/
theorem query_keyPattern (options : Options) {p : Path} (hp : p.isKeyPattern = true)
    {doc : Json} (hd : doc.DistinctKeys) :
    (∀ found, p.query options doc = .ok found →
      ∀ m, m ∈ found ↔ m.location ∈ p.language ∧ doc.valueAt? m.location = some m.value) ∧
    ((∃ e, p.query options doc = .error e) ↔
      ∃ before head segments after, p.steps = before ++ .mk head segments :: after ∧
        ∃ l v, l ∈ language (.mk p.origin p.segments before p.source) ∧
          doc.valueAt? l = some v ∧ head.FailsOn options.maxDepth v) :=
  ⟨fun _ hq => mem_query_of_keyPattern hp hd hq, query_isError_iff_of_keyPattern hp hd⟩

/-- Two deep scans that overlap match one location twice, and a bare name behind them meets
an array in another document. -/
theorem query_keyPattern_overlapping :
    let p : Path := .mk .root [] [.mk (.descend (some (.name "a"))) [],
      .mk (.descend none) [.mk [.name "b", .name "c"]], .mk (.child (.name "d")) []] ""
    let doc : Json := .object [("a", .object [("a", .object [("b", .object [("d", .null)])]),
      ("c", .object [])])]
    let other : Json := .object [("a", .object [("c", .array [.null])])]
    let l : Location := [.key "a", .key "a", .key "b", .key "d"]
    p.isKeyPattern = true ∧ doc.DistinctKeys ∧ other.DistinctKeys ∧
      (∃ found, p.query {} doc = .ok found ∧ found.map Match.location = [l, l] ∧
        ∀ m, m ∈ found ↔ m.location ∈ p.language ∧ doc.valueAt? m.location = some m.value) ∧
      ∃ e, p.query {} other = .error e := by
  intro p doc other l
  have hp : p.isKeyPattern = true := by decide
  have hd : doc.DistinctKeys := by
    simp [doc, Json.DistinctKeys, Json.MembersDistinctKeys]
  have hother : other.DistinctKeys := by
    simp [other, Json.DistinctKeys, Json.ItemsDistinctKeys, Json.MembersDistinctKeys]
  have heval : ((p.query {} doc).toOption.any fun found =>
      found.map Match.location = [l, l]) = true := by decide +kernel
  obtain ⟨found, hq, hlocations⟩ := exists_of_any heval
  refine ⟨hp, hd, hother, ⟨found, hq, of_decide_eq_true hlocations, ?_⟩, ?_⟩
  · exact (query_keyPattern {} hp hd).1 found hq
  · -- the way to the array goes through `a` and then through `c`
    have hway : [.key "a", .key "c"] ∈ language (.mk .root [] (p.steps.take 2) "") := by
      refine Language.mem_mul.mpr ⟨[], rfl, _, ?_, rfl⟩
      refine Language.mem_mul.mpr ⟨[.key "a"], ?_, [.key "c"], ?_, rfl⟩
      · refine Language.mem_mul.mpr ⟨[.key "a"], ?_, [], rfl, rfl⟩
        exact Match.mem_top_mul_name_iff.mpr rfl
      · refine Language.mem_mul.mpr ⟨[.key "c"], ?_, [], rfl, rfl⟩
        refine Language.mem_mul.mpr ⟨[], trivial, [.key "c"], ?_, rfl⟩
        refine Language.mem_mul.mpr ⟨[.key "c"], ?_, [], rfl, rfl⟩
        exact Or.inr (Or.inl rfl)
    exact (query_keyPattern {} hp hother).2.mpr ⟨p.steps.take 2, .child (.name "d"), [], [], rfl,
      [.key "a", .key "c"], .array [.null], hway, rfl, by simp [Head.FailsOn, Json.kind]⟩

end Path
end PathQuery
