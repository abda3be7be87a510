import PathQuery.Proofs.Edit.Atomicity
import PathQuery.Proofs.Edit.Enlargement
import PathQuery.Proofs.Edit.Pruned
import PathQuery.Proofs.Query.TwoRuns

/-! # Removing twice

When elements of an array are removed, those behind them take their places.  A path that names
places may then match again; but a key pattern names none, and a filter at the end of a plain
path looks at values only, as long as nothing in it starts at the root.  After `remove` with
such a path nothing is left that it matches, and no step on the way to what is left fails that
did not fail before.  So removing again finds nothing (`Path.remove_idempotent`).
-/

namespace PathQuery

namespace Path

variable {options : Options} {p : Path} {doc : Json}

theorem remove_of_nil (hq : p.query options doc = .ok []) :
    p.remove options doc = ⟨doc, 0, .ok 0⟩ := by
  rw [remove, targets_of_nil hq]
  rfl

/-- `remove` succeeds only if a query does that does not match the root, and then it leaves
out what was matched. -/
theorem prune_of_remove (hd : doc.DistinctKeys) {n : Nat}
    (h : (p.remove options doc).result = .ok n) :
    ∃ found, p.query options doc = .ok found ∧ (∀ m ∈ found, m.location ≠ []) ∧
      (p.remove options doc).document = doc.prune fun l => l ∈ found.map Match.location := by
  rcases isError_or_isOk (p.query options doc) with ⟨e, he⟩ | ⟨found, hq⟩
  · rw [remove, targets, he] at h
    cases h
  have hroot : ∀ m ∈ found, m.location ≠ [] := by
    intro m hm hnil
    have hmem : [] ∈ Location.distinctDescending (found.map Match.location) :=
      Location.mem_distinctDescending.mpr (hnil ▸ List.mem_map_of_mem hm)
    rw [remove, targets, hq] at h
    simp [Except.map, hmem, Edit.refused] at h
  have hremove := remove_of_query hd hq hroot (Location.distinctDescending_pairwise _)
    fun l => Location.mem_distinctDescending
  refine ⟨found, hq, hroot, ?_⟩
  rw [hremove]
  simp only [Location.mem_distinctDescending]

end Path

/-! ## Key patterns -/

/-- A step that does not apply to what is left of a value did not apply to the value. -/
theorem Head.FailsOn.of_prune {limit : Nat} {head : Head} {gone : Location → Bool} {v : Json}
    (hd : (v.prune gone).DistinctKeys) (h : head.FailsOn limit (v.prune gone)) :
    head.FailsOn limit v := by
  match head with
  | .child (.name key) => simpa [FailsOn] using h
  | .descend key => exact Nat.lt_of_lt_of_le h (Json.levels_prune_le hd)
  | .here | .child .any => exact h

/-- A key pattern matches nothing of what it leaves. -/
theorem Path.query_pruned_of_keyPattern {options : Options} {p : Path}
    (hp : p.isKeyPattern = true) {doc : Json} (hd : doc.DistinctKeys) {found : List Match}
    (hq : p.query options doc = .ok found) (hroot : ∀ m ∈ found, m.location ≠ [])
    (hd' : (doc.prune fun l => l ∈ found.map Match.location).DistinctKeys) :
    p.query options (doc.prune fun l => l ∈ found.map Match.location) = .ok [] := by
  rcases isError_or_isOk (p.query options (doc.prune fun l => l ∈ found.map Match.location)) with
    hfail | ⟨again, hagain⟩
  · -- the step that fails did so on a value of the document, which has only lost something
    obtain ⟨before, head, segments, after, hsteps, l, v, hl, hv, hfails⟩ :=
      (query_isError_iff_of_keyPattern hp hd').mp hfail
    obtain ⟨l', v', halike, hv', -, rfl⟩ := Json.valueAt?_prune hv
    obtain ⟨e, he⟩ := (query_isError_iff_of_keyPattern hp hd).mpr ⟨before, head, segments, after,
      hsteps, l', v', language_blind _ l l' halike hl, hv', hfails.of_prune (hd'.of_valueAt? hv)⟩
    simp [hq] at he
  · have hnil : again = [] := List.eq_nil_iff_forall_not_mem.mpr fun m hm => by
      obtain ⟨hl, hv⟩ := (mem_query_of_keyPattern hp hd' hagain m).mp hm
      obtain ⟨l', v', halike, hv', hkept, -⟩ := Json.valueAt?_prune hv
      -- the match was one before, so it cannot have been kept
      have hmem : ⟨l', v'⟩ ∈ found := (mem_query_of_keyPattern hp hd hq _).mpr
        ⟨language_blind _ _ l' halike hl, hv'⟩
      have hgone := hkept (hroot _ hmem)
      rw [decide_eq_false_iff_not] at hgone
      exact hgone (List.mem_map_of_mem hmem)
    rw [hagain, hnil]

/-! ## Paths that end in a filter -/

/-- A path is another path with one segment more, which is a single filter. -/
inductive Path.EndsInFilter : Path → Path → Filter → Prop
  | first (origin : Origin) (segments : List Segment) (source : String) (f : Filter) :
      EndsInFilter (.mk origin (segments ++ [.mk [.filter f]]) [] source)
        (.mk origin segments [] source) f
  | bracket (origin : Origin) (segments : List Segment) (steps : List Step) {head : Head}
      (hhead : ∀ key, head ≠ .descend key) (inner : List Segment) (source : String)
      (f : Filter) :
      EndsInFilter (.mk origin segments (steps ++ [.mk head (inner ++ [.mk [.filter f]])]) source)
        (.mk origin segments (steps ++ [.mk head inner]) source) f

theorem Path.EndsInFilter.query_eq {p q : Path} {f : Filter} (h : p.EndsInFilter q f)
    (options : Options) (doc : Json) :
    p.query options doc =
      (q.query options doc >>= gather (Selector.union options.maxDepth doc [.filter f])) := by
  cases h with
  | first origin segments source => exact query_segments_concat ..
  | bracket origin segments steps hhead inner source =>
    exact query_inner_concat options _ _ _ hhead ..

section
variable {limit : Nat} {root : Json} {f : Filter} {m : Match}

theorem Selector.union_filter (limit : Nat) (root : Json) (f : Filter) (m : Match) :
    Selector.union limit root [.filter f] m =
      gather (fun child => (Filter.holds limit root f child).map fun holds =>
        if holds then [child] else []) m.children := by
  have hsingle : Selector.union limit root [.filter f] m =
      (Selector.find limit root (.filter f) m >>= fun found => pure (found ++ [])) := by
    rw [Selector.union, Selector.union]
    rfl
  simp only [hsingle, List.append_nil, bind_pure, Selector.find]

/-- A filter finds children, and does not hold of the others. -/
theorem Selector.holds_of_union_filter {part : List Match}
    (h : Selector.union limit root [.filter f] m = .ok part) :
    (∀ c ∈ part, c ∈ m.children) ∧
      ∀ c ∈ m.children, c ∉ part → Filter.holds limit root f c = .ok false := by
  rw [union_filter] at h
  refine ⟨fun c hc => ?_, fun c hc hnot => ?_⟩
  · obtain ⟨child, hchild, single, hsingle, hc⟩ := mem_of_gather h hc
    obtain ⟨holds, -, rfl⟩ := map_eq_ok.mp hsingle
    cases holds with
    | true => exact List.mem_singleton.mp hc ▸ hchild
    | false => simp at hc
  · obtain ⟨single, hsingle, hsub⟩ := exists_of_gather_eq_ok h hc
    obtain ⟨holds, hholds, rfl⟩ := map_eq_ok.mp hsingle
    cases holds with
    | true => exact absurd (hsub (List.mem_singleton_self c)) hnot
    | false => exact hholds

theorem Selector.union_filter_of_false
    (h : ∀ c ∈ m.children, Filter.holds limit root f c = .ok false) :
    Selector.union limit root [.filter f] m = .ok [] := by
  rw [union_filter]
  exact gather_eq_ok_nil fun c hc => by rw [h c hc]; rfl

end

/-- The run of a filter on a value, beside one on the same value in another document. -/
def TwoRuns.moved (limit : Nat) (root root' : Json) : TwoRuns where
  limit := limit
  limit' := limit
  root := root
  root' := root'
  Alike m m' := m.value = m'.value
  Excused _ := True
  value_eq h := h
  below _ _ _ := rfl
  location_eq _ := .inr fun _ => trivial
  limit_eq := .inl rfl

/-- A filter in which nothing starts at the root says the same of a value wherever it is. -/
theorem Filter.holds_of_value_eq {limit : Nat} {root root' : Json} {f : Filter}
    (hf : ∀ r ∈ f.references, r.origin = .current) {c c' : Match} (hvalue : c.value = c'.value)
    {b : Bool} (h : Filter.holds limit root f c = .ok b) :
    Filter.holds limit root' f c' = .ok b :=
  ((TwoRuns.moved limit root root').holds_agrees f (Or.inr hf) hvalue).eq_ok h

/-- A plain path with a filter at its end matches nothing of what it leaves, if the filter
looks at nothing but the values that it is about. -/
theorem Path.EndsInFilter.query_pruned {p q : Path} {f : Filter} (h : p.EndsInFilter q f)
    (hplain : q.isPlain = true) (hf : ∀ r ∈ f.references, r.origin = .current)
    {options : Options} {doc : Json} (hd : doc.DistinctKeys) {found : List Match}
    (hq : p.query options doc = .ok found)
    (hd' : (doc.prune fun l => l ∈ found.map Match.location).DistinctKeys) :
    p.query options (doc.prune fun l => l ∈ found.map Match.location) = .ok [] := by
  let gone : Location → Bool := fun l => l ∈ found.map Match.location
  rw [h.query_eq] at hq ⊢
  obtain ⟨parents, hparents, hfound⟩ := bind_eq_ok.mp hq
  have hdepth := length_of_query hplain hparents
  -- all that is gone lies one level below the plain path
  have hgone : ∀ l, l.length ≠ q.depth + 1 → gone l = false := by
    intro l hl
    refine decide_eq_false fun hmem => hl ?_
    obtain ⟨c, hc, rfl⟩ := List.mem_map.mp hmem
    obtain ⟨m, hm, part, hpart, hc⟩ := mem_of_gather hfound hc
    rw [Match.length_of_mem_children ((Selector.holds_of_union_filter hpart).1 c hc), hdepth m hm]
  have hkeeps : (Json.Change.leaveOut gone).KeepsDownTo q.depth doc :=
    Json.Change.keepsDownTo_leaveOut (fun l hl => hgone l (by omega)) doc
  have hrebuild : Json.rebuild (.leaveOut gone) doc = some (doc.prune gone) := by
    rw [Json.rebuild_leaveOut, hgone [] (by simp), if_neg (by simp)]
  obtain ⟨parents', hparents', hbecomes⟩ := query_rebuild hplain hd hkeeps hrebuild hparents
  refine bind_eq_ok.mpr ⟨parents', hparents', gather_eq_ok_nil fun m' hmem' => ?_⟩
  obtain ⟨m, hm, hm'⟩ := exists_left_of_forall₂ hbecomes hmem'
  have hlength := hdepth m hm
  have hbelow : ∀ a l, l ≠ [] → gone (m.location ++ a :: l) = false := by
    intro a l hl
    have hpos := List.length_pos_iff.mpr hl
    refine hgone _ ?_
    rw [List.length_append, List.length_cons]
    omega
  have hdm := hd.of_valueAt? (query_located hd hparents m hm)
  have hdm' := hd'.of_valueAt? (query_located hd' hparents' m' hmem')
  refine Selector.union_filter_of_false fun c' hc' => ?_
  obtain ⟨c, hc, hkept, hvalue⟩ :=
    hm'.mem_children_of_leaveOut (hgone _ (by omega)) hbelow hdm hdm' hc'
  -- what is left of the children was looked at before, and the filter did not hold of it
  obtain ⟨part, hpart, hsub⟩ := exists_of_gather_eq_ok hfound hm
  have hnot : c ∉ part := fun hmem =>
    of_decide_eq_false hkept (List.mem_map_of_mem (hsub hmem))
  exact Filter.holds_of_value_eq hf hvalue ((Selector.holds_of_union_filter hpart).2 c hc hnot)

namespace Path

/-- **Removing is idempotent where places do not count.**  Let a path either be a key pattern,
or end in a single filter, in which all references start at the current value, behind a path
without deep scans and filters.  If `remove` succeeds, removing once more succeeds as well,
removes nothing and changes nothing. -/
theorem remove_idempotent (options : Options) {p : Path}
    (hp : p.isKeyPattern = true ∨ ∃ q f, p.EndsInFilter q f ∧ q.isPlain = true ∧
      ∀ r ∈ f.references, r.origin = .current)
    {doc : Json} (hd : doc.DistinctKeys) {n : Nat}
    (hremove : (p.remove options doc).result = .ok n) :
    let left := (p.remove options doc).document
    p.remove options left = ⟨left, 0, .ok 0⟩ := by
  intro left
  obtain ⟨found, hq, hroot, hleft⟩ := prune_of_remove hd hremove
  have hd' : left.DistinctKeys := distinctKeys_remove hd
  refine remove_of_nil ?_
  rw [show left = _ from hleft] at hd' ⊢
  rcases hp with hkeys | ⟨q, f, hends, hplain, hf⟩
  · exact query_pruned_of_keyPattern hkeys hd hq hroot hd'
  · exact hends.query_pruned hplain hf hd hq hd'

/-- Matches within matches and in an array, and an array in which every other element goes. -/
theorem remove_idempotent_nested :
    let p : Path := .mk .root [] [.mk (.descend none) [.mk [.name "a"]]] ""
    let doc : Json := .array [.object [("a", .object [("a", .null)]), ("b", .null)],
      .array [.object [("a", .null)], .object []]]
    let left : Json := .array [.object [("b", .null)], .array [.object [], .object []]]
    let f : Filter := .reference (.mk .current [] [.mk (.child .any) [.mk [.filter
      (.reference (.mk .current [] [.mk (.child (.name "x")) []] ""))]]] "")
    let q : Path := .mk .root [] [.mk (.child (.name "items")) []] ""
    let filtering : Path :=
      .mk .root [] [.mk (.child (.name "items")) [.mk [.filter f]]] ""
    let kept : Json := .array [.object [("y", .null)]]
    let gone : Json := .object [("y", .object [("x", .null)]), ("z", .null)]
    let other : Json := .object [("items", .array [.array [gone], kept, .array [gone], kept])]
    let rest : Json := .object [("items", .array [kept, kept])]
    p.remove {} doc = ⟨left, 0, .ok 3⟩ ∧ p.remove {} left = ⟨left, 0, .ok 0⟩ ∧
      filtering.EndsInFilter q f ∧
      filtering.remove {} other = ⟨rest, 0, .ok 2⟩ ∧
      filtering.remove {} rest = ⟨rest, 0, .ok 0⟩ := by
  intro p doc left f q filtering kept gone other rest
  have hd : doc.DistinctKeys := by
    simp [doc, Json.DistinctKeys, Json.ItemsDistinctKeys, Json.MembersDistinctKeys]
  have hother : other.DistinctKeys := by
    simp [other, kept, gone, Json.DistinctKeys, Json.ItemsDistinctKeys,
      Json.MembersDistinctKeys]
  have hfirst : p.remove {} doc = ⟨left, 0, .ok 3⟩ := by cbv
  have hfiltered : filtering.remove {} other = ⟨rest, 0, .ok 2⟩ := by cbv
  have hends : filtering.EndsInFilter q f :=
    .bracket .root [] [] (by simp) [] "" f
  have hagain := remove_idempotent {} (Or.inl rfl) hd (congrArg Edit.result hfirst)
  have hfilteredAgain := remove_idempotent {}
    (Or.inr ⟨q, f, hends, rfl, by simp [f, Filter.references, Path.references,
      Step.listReferences, Step.references, Segment.listReferences, Segment.references,
      Selector.listReferences, Selector.references, Path.origin]⟩)
    hother (congrArg Edit.result hfiltered)
  rw [hfirst] at hagain
  rw [hfiltered] at hfilteredAgain
  exact ⟨hfirst, hagain, hends, hfiltered, hfilteredAgain⟩

end Path
end PathQuery
