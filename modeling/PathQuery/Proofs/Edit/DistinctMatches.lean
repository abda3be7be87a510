import PathQuery.Proofs.Edit.Idempotence
import PathQuery.Proofs.Query.DeepScanSpelling
import PathQuery.Proofs.Query.SliceBounds

/-! # Paths that match nothing twice

Below one match, a selector finds nothing twice: a slice of either direction never comes back
to a place.  Before a deep scan, all matches lie on one level, so their subtrees have nothing
in common; behind it, whatever a step finds tells from which match it comes.  So a path with
one deep scan at most, whose only unions are of different names, matches nothing twice, and
an edit counts its matches (`Path.distinct_matches`).
-/

namespace PathQuery

/-! ## Below one match -/

/-- The alternatives of the segment exclude one another: there is one at most, or they are
different names. -/
def Segment.IsExclusive (s : Segment) : Prop :=
  s.selectors.length ≤ 1 ∨ ∃ names : List String, names.Nodup ∧ s.selectors = names.map .name

namespace Match

/-- What is found below a match: some of its children, none of them twice. -/
def Picks (m : Match) (found : List Match) : Prop :=
  Distinct found ∧ ∀ a ∈ found, a ∈ m.children

variable {m : Match}

theorem distinct_toList (found : Option Match) : Distinct found.toList := by
  cases found with
  | none => exact List.nodup_nil
  | some m => exact List.nodup_singleton _

theorem distinct_select (hd : m.value.DistinctKeys) (s : Selector) : Distinct (m.select s) := by
  cases s with
  | wildcard => exact distinct_children hd
  | name key => exact distinct_toList _
  | index position =>
    simp only [select]
    cases m.value.length? with
    | none => exact List.nodup_nil
    | some length => exact distinct_toList _
  | slice bounds =>
    simp only [select]
    cases m.value.length? with
    | none => exact List.nodup_nil
    | some length =>
      rw [Distinct, List.Nodup, List.pairwise_map, List.pairwise_filterMap]
      refine (Slice.nodup_places bounds length).imp fun {i j} hne a ha b hb hsame => hne ?_
      obtain ⟨v, -, rfl⟩ := Option.map_eq_some_iff.mp ha
      obtain ⟨w, -, rfl⟩ := Option.map_eq_some_iff.mp hb
      exact Accessor.index.inj (below_location_inj.mp hsame)
  | filter condition => exact List.nodup_nil

theorem picks_select (hd : m.value.DistinctKeys) (s : Selector) : m.Picks (m.select s) :=
  ⟨distinct_select hd s, fun _ => mem_children_of_select⟩

theorem picks_named {names : Names} {key : String} {found : List Match}
    (h : m.named names key = .ok found) : m.Picks found := by
  unfold named at h
  split at h
  · rw [← Except.ok.inj h]
    refine ⟨distinct_toList _, fun a ha => ?_⟩
    exact mem_children_of_childByKey? (Option.mem_toList.mp ha)
  · rw [← Except.ok.inj h]
    exact ⟨List.nodup_nil, by simp⟩
  · cases h

/-- Different names lead to different children. -/
theorem picks_names {names : List String} (hnames : names.Nodup) :
    m.Picks (names.flatMap fun key => (m.childByKey? key).toList) := by
  constructor
  · rw [Distinct, List.map_flatMap, List.nodup_flatMap]
    refine ⟨fun key _ => distinct_toList _, hnames.imp fun {key other} hne =>
      List.disjoint_left.mpr fun l hl hl' => ?_⟩
    obtain ⟨a, ha, rfl⟩ := List.mem_map.mp hl
    obtain ⟨b, hb, hsame⟩ := List.mem_map.mp hl'
    obtain ⟨v, -, rfl⟩ := Option.map_eq_some_iff.mp (Option.mem_toList.mp ha)
    obtain ⟨w, -, rfl⟩ := Option.map_eq_some_iff.mp (Option.mem_toList.mp hb)
    exact hne (Accessor.key.inj (below_location_inj.mp hsame.symm))
  · intro a ha
    obtain ⟨key, -, ha⟩ := List.mem_flatMap.mp ha
    exact mem_children_of_childByKey? (Option.mem_toList.mp ha)

end Match

section
variable {limit : Nat} {root : Json} {m : Match} {found : List Match}

open Match

theorem Selector.picks_of_find {s : Selector} (hd : m.value.DistinctKeys)
    (h : find limit root s m = .ok found) : m.Picks found := by
  cases s with
  | filter condition =>
    have hsublist := sublist_of_filter h
    exact ⟨(distinct_children hd).sublist (hsublist.map _), fun _ ha => hsublist.subset ha⟩
  | _ =>
    simp only [find, Except.ok.injEq] at h
    exact h ▸ picks_select hd _

theorem Selector.union_names (names : List String) :
    union limit root (names.map .name) m =
      .ok (names.flatMap fun key => (m.childByKey? key).toList) := by
  induction names with
  | nil => rw [List.map_nil, union, List.flatMap_nil]
  | cons key rest ih =>
    simp only [List.map_cons, union, ih, find]
    rfl

/-- **Alternatives that exclude one another find no child twice.** -/
theorem Segment.IsExclusive.picks_of_union {s : Segment} (hs : s.IsExclusive)
    (hd : m.value.DistinctKeys) (h : Selector.union limit root s.selectors m = .ok found) :
    m.Picks found := by
  obtain ⟨selectors⟩ := s
  rcases hs with hs | ⟨names, hnames, rfl⟩
  · match selectors, hs with
    | [], _ =>
      simp only [Segment.selectors, Selector.union, Except.ok.injEq] at h
      exact h ▸ ⟨List.nodup_nil, by simp⟩
    | [selector], _ =>
      simp only [Segment.selectors, Selector.union, bind_eq_ok] at h
      obtain ⟨first, hfirst, others, hothers, h⟩ := h
      rw [← Except.ok.inj h, ← Except.ok.inj hothers, List.append_nil]
      exact Selector.picks_of_find hd hfirst
  · rw [Segment.selectors, Selector.union_names, Except.ok.injEq] at h
    exact h ▸ picks_names hnames

end

/-! ## From level to level -/

namespace Match

variable {flat : Prop} {starts found : List Match}

/-- Distinct matches, and if they are `flat`, all of them on one level. -/
structure Spread (flat : Prop) (starts : List Match) : Prop where
  keys : ∀ m ∈ starts, m.value.DistinctKeys
  distinct : Distinct starts
  level : flat → ∃ level, ∀ m ∈ starts, m.location.length = level

/-- Children tell what their parent is. -/
theorem Spread.gather {ε : Type} {search : Match → Except ε (List Match)}
    (h : Spread flat starts) (hfound : gather search starts = .ok found)
    (hparts : ∀ start ∈ starts, ∀ part, search start = .ok part → start.Picks part) :
    Spread flat found := by
  obtain ⟨f, hf, rfl⟩ := exists_flatMap_of_gather hfound
  have hpicks : ∀ start ∈ starts, start.Picks (f start) := fun start hmem =>
    hparts start hmem _ (hf start hmem)
  constructor
  · intro m hm
    obtain ⟨start, hmem, hm⟩ := List.mem_flatMap.mp hm
    exact distinctKeys_closed start (h.keys start hmem) m ((hpicks start hmem).2 m hm)
  · refine h.distinct.flatMap (fun start hmem => (hpicks start hmem).1) ?_
    intro start hmem other hmem' a ha b hb hsame
    obtain ⟨x, hx⟩ := location_of_mem_children ((hpicks start hmem).2 a ha)
    obtain ⟨y, hy⟩ := location_of_mem_children ((hpicks other hmem').2 b hb)
    rw [hx, hy] at hsame
    exact (List.append_inj' hsame rfl).1
  · intro hflat
    obtain ⟨level, hlevel⟩ := h.level hflat
    refine ⟨level + 1, fun m hm => ?_⟩
    obtain ⟨start, hmem, hm⟩ := List.mem_flatMap.mp hm
    rw [length_of_mem_children ((hpicks start hmem).2 m hm), hlevel start hmem]

/-- Subtrees of values on one level have nothing in common. -/
theorem Spread.gather_subtree {ε : Type} {search : Match → Except ε (List Match)}
    (h : Spread True starts) (hfound : PathQuery.gather search starts = .ok found)
    (hparts : ∀ start ∈ starts, ∀ part, search start = .ok part → part.Sublist start.subtree) :
    Spread False found := by
  obtain ⟨f, hf, rfl⟩ := exists_flatMap_of_gather hfound
  obtain ⟨level, hlevel⟩ := h.level trivial
  have hsublist : ∀ start ∈ starts, (f start).Sublist start.subtree := fun start hmem =>
    hparts start hmem _ (hf start hmem)
  constructor
  · intro m hm
    obtain ⟨start, hmem, hm⟩ := List.mem_flatMap.mp hm
    have hd := h.keys start hmem
    obtain ⟨l, v, hv, rfl⟩ := (mem_subtree_iff hd).mp ((hsublist start hmem).subset hm)
    exact hd.of_valueAt? hv
  · refine h.distinct.flatMap_below hlevel (fun start hmem => ?_) fun start hmem a ha => ?_
    · exact (distinct_subtree (h.keys start hmem)).sublist ((hsublist start hmem).map _)
    · exact location_of_mem_subtree ((hsublist start hmem).subset ha)
  · exact False.elim

theorem Spread.of_flat (h : Spread flat starts) : Spread False starts :=
  ⟨h.keys, h.distinct, False.elim⟩

end Match

section
variable {flat : Prop} {limit : Nat} {root : Json} {names : Names} {segmented : Bool}
  {starts found : List Match}

open Match

theorem Segment.spread_through {segments : List Segment}
    (hs : ∀ s ∈ segments, s.IsExclusive) (hstarts : Spread flat starts)
    (h : through limit root segments starts = .ok found) : Spread flat found := by
  induction segments generalizing starts with
  | nil =>
    rw [through_nil, Except.ok.injEq] at h
    exact h ▸ hstarts
  | cons s rest ih =>
    rw [List.forall_mem_cons] at hs
    obtain ⟨selectors⟩ := s
    simp only [through, bind_eq_ok] at h
    obtain ⟨reached, hreached, h⟩ := h
    refine ih hs.2 (hstarts.gather hreached fun start hmem part hpart => ?_) h
    exact hs.1.picks_of_union (hstarts.keys start hmem) hpart

/-- A step that is no deep scan keeps matches apart, and on one level if they are. -/
theorem Head.spread_go {head : Head} (hhead : head.isPlain = true) (hstarts : Spread flat starts)
    (h : head.go limit names segmented starts = .ok found) : Spread flat found := by
  match head with
  | .here => exact Except.ok.inj h ▸ hstarts
  | .child .any =>
    have hgather : gather (fun m => (.ok m.children : Except EvalError _)) starts = .ok found :=
      (gather_eq_flatMap fun _ _ => rfl).trans h
    refine hstarts.gather hgather fun start hmem part hpart => ?_
    rw [← Except.ok.inj hpart]
    exact ⟨distinct_children (hstarts.keys start hmem), fun _ ha => ha⟩
  | .child (.name key) => exact hstarts.gather h fun start _ part hpart => picks_named hpart
  | .descend key => cases hhead

theorem Head.spread_descend {key : Option KeyTest} (hstarts : Spread True starts)
    (h : Head.go limit names segmented (.descend key) starts = .ok found) :
    Spread False found := by
  match key with
  | none => exact hstarts.gather_subtree h fun start _ part hpart => sublist_of_descendants hpart
  | some key =>
    rw [go_descend_some] at h
    refine hstarts.gather_subtree h fun start _ part hpart => ?_
    obtain ⟨all, hall, rfl⟩ := map_eq_ok.mp hpart
    exact List.filter_sublist.trans (sublist_of_descendants hall)

theorem Step.spread_through_plain {steps : List Step} (hplain : ∀ s ∈ steps, s.head.isPlain = true)
    (hs : ∀ step ∈ steps, ∀ s ∈ step.segments, s.IsExclusive) (hstarts : Spread flat starts)
    (h : through limit root names steps starts = .ok found) : Spread flat found := by
  induction steps generalizing starts with
  | nil =>
    rw [through_nil, Except.ok.injEq] at h
    exact h ▸ hstarts
  | cons s rest ih =>
    rw [List.forall_mem_cons] at hplain hs
    obtain ⟨head, segments⟩ := s
    simp only [through, bind_eq_ok] at h
    obtain ⟨reached, hreached, passed, hpassed, h⟩ := h
    have hspread := Head.spread_go hplain.1 hstarts hreached
    exact ih hplain.2 hs.2 (Segment.spread_through hs.1 hspread hpassed) h

/-- **Steps keep matches on one level up to a deep scan, and apart behind it**, as long as no
other one follows. -/
theorem Step.spread_through {steps : List Step}
    (hone : (steps.countP fun s => !s.head.isPlain) ≤ 1)
    (hs : ∀ step ∈ steps, ∀ s ∈ step.segments, s.IsExclusive) (hstarts : Spread True starts)
    (h : through limit root names steps starts = .ok found) : Spread False found := by
  induction steps generalizing starts with
  | nil =>
    rw [through_nil, Except.ok.injEq] at h
    exact h ▸ hstarts.of_flat
  | cons s rest ih =>
    rw [List.forall_mem_cons] at hs
    obtain ⟨head, segments⟩ := s
    simp only [through, bind_eq_ok] at h
    obtain ⟨reached, hreached, passed, hpassed, h⟩ := h
    rw [List.countP_cons] at hone
    by_cases hhead : head.isPlain = true
    · have hspread := Head.spread_go hhead hstarts hreached
      exact ih (by omega) hs.2 (Segment.spread_through hs.1 hspread hpassed) h
    · -- this is the deep scan, and the other steps are none
      obtain ⟨key, rfl⟩ : ∃ key, head = .descend key := by
        cases head with
        | descend key => exact ⟨key, rfl⟩
        | _ => exact absurd rfl hhead
      have hrest : (rest.countP fun s => !s.head.isPlain) = 0 := by
        simpa [Step.head, Head.isPlain] using hone
      have hplain : ∀ s ∈ rest, s.head.isPlain = true := fun s hmem => by
        simpa using List.countP_eq_zero.mp hrest s hmem
      have hspread := Head.spread_descend hstarts hreached
      exact spread_through_plain hplain hs.2 (Segment.spread_through hs.1 hspread hpassed) h

end

namespace Path

/-- The path has one deep scan at most, and the alternatives of each of its segments exclude
one another. -/
structure IsExclusive (p : Path) : Prop where
  scans : (p.steps.countP fun s => !s.head.isPlain) ≤ 1
  segments : ∀ s ∈ p.segments, s.IsExclusive
  steps : ∀ step ∈ p.steps, ∀ s ∈ step.segments, s.IsExclusive

variable {options : Options} {p : Path} {doc : Json} {found : List Match}

theorem IsExclusive.distinct_of_query (hp : p.IsExclusive) (hd : doc.DistinctKeys)
    (h : p.query options doc = .ok found) : Match.Distinct found := by
  obtain ⟨origin, segments, steps, source⟩ := p
  rw [query_mk, bind_eq_ok] at h
  obtain ⟨passed, hpassed, h⟩ := h
  have hroot : Match.Spread True [⟨[], doc⟩] := by
    refine ⟨?_, List.nodup_singleton _, fun _ => ⟨0, ?_⟩⟩
    · exact fun m hm => List.mem_singleton.mp hm ▸ hd
    · exact fun m hm => List.mem_singleton.mp hm ▸ rfl
  have hspread := Segment.spread_through hp.segments hroot hpassed
  exact (Step.spread_through hp.scans hp.steps hspread h).distinct

/-- **No match is reported twice** by a path with one deep scan at most, whose only unions are
of different names, whatever its slices, indexes, wildcards and filters are.  So if there is a
match, `set` counts the matches, and so does `remove` if it succeeds. -/
theorem distinct_matches (options : Options) {p : Path} (hp : p.IsExclusive) {doc : Json}
    (hd : doc.DistinctKeys) {found : List Match} (hq : p.query options doc = .ok found) :
    (found.map Match.location).Nodup ∧
      (∀ supply, found ≠ [] → (p.set options supply doc).result = .ok found.length) ∧
      ∀ n, (p.remove options doc).result = .ok n → n = found.length := by
  have hdistinct : (found.map Match.location).Nodup := hp.distinct_of_query hd hq
  have hlength : (Location.distinctDescending (found.map Match.location)).length =
      found.length := by
    rw [Location.length_distinctDescending, List.toFinset_card_of_nodup hdistinct,
      List.length_map]
  refine ⟨hdistinct, fun supply hfound => ?_, fun n hn => ?_⟩
  · rw [set_of_query hd hq hfound supply (Location.distinctDescending_pairwise _)
      fun l => Location.mem_distinctDescending, hlength]
  · obtain ⟨found', hq', hroot, -⟩ := prune_of_remove hd hn
    obtain rfl := Except.ok.inj (hq'.symm.trans hq)
    rw [remove_of_query hd hq hroot (Location.distinctDescending_pairwise _)
      fun l => Location.mem_distinctDescending, hlength] at hn
    exact (Except.ok.inj hn).symm

/-- All elements of the arrays below two keys, taken from the back. -/
theorem distinct_matches_backwards :
    let p : Path := .mk .root [.mk [.name "a", .name "b"]]
      [.mk (.descend none) [.mk [.slice ⟨none, none, some (-1)⟩]]] "$['a','b']..[::-1]"
    let doc : Json := .object [("a", .array [.array [.null, .null], .array [.null]]),
      ("b", .array [.null])]
    p.IsExclusive ∧ doc.DistinctKeys ∧ ∃ found, p.query {} doc = .ok found ∧
      (found.map Match.location).Nodup ∧ found.length = 6 ∧
      (p.set {} Json.counting doc).result = .ok 6 ∧ (p.remove {} doc).result = .ok 6 := by
  intro p doc
  have hp : p.IsExclusive := by
    refine ⟨by decide, ?_, ?_⟩
    · intro s hs
      exact Or.inr ⟨["a", "b"], by decide, List.mem_singleton.mp hs ▸ rfl⟩
    · intro step hstep s hs
      obtain rfl := List.mem_singleton.mp hstep
      obtain rfl := List.mem_singleton.mp hs
      exact Or.inl (by decide)
  have hd : doc.DistinctKeys := by
    simp [doc, Json.DistinctKeys, Json.ItemsDistinctKeys, Json.MembersDistinctKeys]
  have heval : ((p.query {} doc).toOption.any fun found => found.length = 6 ∧
      ∀ m ∈ found, m.location ≠ []) = true := by decide +kernel
  obtain ⟨found, hq, hfound⟩ := exists_of_any heval
  obtain ⟨hlength, hroot⟩ := of_decide_eq_true hfound
  have hne : found ≠ [] := by
    rintro rfl
    simp at hlength
  obtain ⟨hnodup, hset, hremove⟩ := distinct_matches {} hp hd hq
  have hremoved : (p.remove {} doc).result =
      .ok (Location.distinctDescending (found.map Match.location)).length := by
    rw [remove_of_query hd hq hroot (Location.distinctDescending_pairwise _)
      fun l => Location.mem_distinctDescending]
  refine ⟨hp, hd, found, hq, hnodup, hlength, ?_, ?_⟩
  · rw [hset Json.counting hne, hlength]
  · rw [hremoved, hremove _ hremoved, hlength]

end Path
end PathQuery
