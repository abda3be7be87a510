import PathQuery.Proofs.Edit.Enlargement
import PathQuery.Proofs.Query.ChangedDocument

/-! # Querying what was set

After a plain path has been set to a value, it matches this value, and where it does is known
before (`Path.query_set`).  If there were matches, they are where they were, as often as they
were; the values above them are the containers that they were, and the path never looks at
the matched values themselves.  If a key was created, the path matches behind each match of
the path without that key.
-/

namespace PathQuery

/-! ## Changes at one depth -/

namespace Json.Change

variable {n : Nat} {doc : Json} {new : Location → Option Json}
  (hnew : ∀ l, l.length < n → new l = none)

include hnew

/-- Putting values at one depth or below. -/
theorem keepsDownTo_put : (put new).KeepsDownTo n doc where
  above l hl := by
    funext v
    rw [put, hnew l hl, Option.getD_none]
  survives l v _ _ := by
    have hrebuild : rebuild ((put new).under l) v = _ := rebuild_put (fun l' => new (l ++ l')) v
    rw [hrebuild]
    rfl

/-- Adding entries to containers at one depth or below. -/
theorem keepsDownTo_extend {entry : NewEntry} (hd : doc.DistinctKeys)
    (hfits : Fits entry new doc) : (extend entry new).KeepsDownTo n doc where
  above l hl := by
    funext v
    rw [extend, hnew l hl]
    rfl
  survives l v _ hv := by
    have hrebuild : rebuild ((extend entry new).under l) v = _ :=
      rebuild_extend entry (fun l' => new (l ++ l')) v (hd.of_valueAt? hv) (hfits.under hv)
    rw [hrebuild]
    rfl

end Json.Change

theorem Edit.assigned_of_length_lt {supply : Nat → Json} {taken n : Nat}
    {targets : List Location} (h : ∀ l ∈ targets, l.length = n) (l : Location)
    (hl : l.length < n) : assigned supply taken targets l = none :=
  assigned_of_not_mem fun hmem => Nat.ne_of_lt hl (h l hmem)

/-! ## What becomes of a match -/

namespace Match

variable {m m' : Match} {new : Location → Option Json}

/-- A match that is given a new value has this value then. -/
theorem Becomes.eq_of_put (h : m.Becomes (.put new) m') {v : Json}
    (hv : new m.location = some v) : m' = ⟨m.location, v⟩ := by
  obtain ⟨l', v'⟩ := m'
  obtain ⟨rfl, hbecomes⟩ := h
  have hself : (fun l => new (m.location ++ l)) [] = some v := by simpa using hv
  have hput := Json.rebuild_put (fun l => new (m.location ++ l)) m.value
  rw [Json.overlay_of_some hself] at hput
  exact congrArg _ (Option.some.inj (hbecomes.symm.trans hput))

/-- A match that is given a new member has this member then. -/
theorem Becomes.getKey?_of_extend {name : String} (h : m.Becomes (.extend (.key name) new) m')
    {doc : Json} (hd : doc.DistinctKeys) (hfits : Json.Fits (.key name) new doc)
    (hm : m.Located doc) {v : Json} (hv : new m.location = some v) :
    m'.value.getKey? name = some v := by
  have hself : (fun l => new (m.location ++ l)) [] = some v := by simpa using hv
  have hunder := hfits.under hm
  have hextend := Json.rebuild_extend (.key name) _ m.value (hd.of_valueAt? hm) hunder
  rw [← Option.some.inj (hextend.symm.trans h.2)]
  exact hunder.getKey?_enlarge hself

end Match

namespace Path

variable {options : Options} {p q : Path} {doc : Json}

/-- Replaced matches stay where they are. -/
theorem query_replaced (hp : p.isPlain = true) (hd : doc.DistinctKeys) {found : List Match}
    (hq : p.query options doc = .ok found) (hfound : found ≠ []) (v : Json) :
    p.query options (p.set options (.always v) doc).document =
      .ok (found.map fun m => ⟨m.location, v⟩) := by
  obtain ⟨targets, hdesc, hmem⟩ : ∃ targets : List Location,
      targets.Pairwise (fun l l' => Location.lt l' l) ∧
        ∀ l, l ∈ targets ↔ l ∈ found.map Match.location :=
    ⟨_, Location.distinctDescending_pairwise _, fun l => Location.mem_distinctDescending⟩
  have hlength : ∀ l ∈ targets, l.length = p.depth := by
    intro l hl
    obtain ⟨m, hm, rfl⟩ := List.mem_map.mp ((hmem l).mp hl)
    exact length_of_query hp hq m hm
  -- all new values lie at the depth of the path, so it sees none of them on its way
  have hkeeps : (Json.Change.put (Edit.assigned (.always v) 0 targets)).KeepsDownTo p.depth doc :=
    Json.Change.keepsDownTo_put (Edit.assigned_of_length_lt hlength)
  obtain ⟨found', hq', hbecomes⟩ := query_rebuild hp hd hkeeps (Json.rebuild_put _ doc) hq
  have hvalue : found'.map id = found.map fun m => ⟨m.location, v⟩ :=
    map_eq_of_forall₂ hbecomes fun m hm m' hm' =>
      hm'.eq_of_put (Edit.assigned_of_mem ((hmem _).mpr (List.mem_map_of_mem hm)))
  rw [set_of_query hd hq hfound (.always v) hdesc hmem, hq', ← hvalue, List.map_id]

theorem Extends.isPlain (h : p.Extends q entry) (hp : p.isPlain = true) : q.isPlain = true := by
  cases h with
  | first origin segments source =>
    simp only [isPlain, Path.segments, Segment.allPlain_append, Bool.and_eq_true] at hp ⊢
    exact ⟨hp.1.1, rfl⟩
  | bracket origin segments steps hhead inner source =>
    simp only [isPlain, Path.segments, Path.steps, List.all_append, List.all_cons, List.all_nil,
      Step.isPlain, Step.head, Step.segments, Segment.allPlain_append, Bool.and_eq_true] at hp ⊢
    obtain ⟨hsegments, hsteps, ⟨hhead, hinner, -⟩, -⟩ := hp
    exact ⟨hsegments, hsteps, ⟨hhead, hinner⟩, trivial⟩
  | name origin segments steps key source =>
    simp only [isPlain, Path.segments, Path.steps, List.all_append, Bool.and_eq_true] at hp ⊢
    exact ⟨hp.1, hp.2.1⟩

/-- `set` succeeds only if a query does. -/
theorem query_of_set {supply : Nat → Json} {n : Nat}
    (hset : (p.set options supply doc).result = .ok n) :
    ∃ found, p.query options doc = .ok found := by
  refine (isError_or_isOk _).resolve_left ?_
  rintro ⟨e, he⟩
  rw [set, targets, he] at hset
  cases hset

/-- A created key is matched behind each match of the path without it. -/
theorem query_created (hp : p.isPlain = true) (hd : doc.DistinctKeys)
    (hq : p.query options doc = .ok []) {name : String} (h : p.Extends q (.key name))
    {supply : Nat → Json} {n : Nat} (hset : (p.set options supply doc).result = .ok n) :
    ∃ parents, q.query options doc = .ok parents ∧ parents ≠ [] ∧
      let targets := Location.distinctDescending (parents.map Match.location)
      p.query options (p.set options supply doc).document = .ok (parents.map fun m =>
        ⟨m.location ++ [.key name], supply (targets.idxOf m.location)⟩) := by
  obtain ⟨parents, hparents, hne, hfits, hrun⟩ := h.enlarge_of_set hd hq hset
  refine ⟨parents, hparents, hne, ?_⟩
  intro targets
  have hlength : ∀ l ∈ targets, l.length = q.depth := by
    intro l hl
    obtain ⟨m, hm, rfl⟩ := List.mem_map.mp (Location.mem_distinctDescending.mp hl)
    exact length_of_query (h.isPlain hp) hparents m hm
  have hkeeps : (Json.Change.extend (.key name)
      (Edit.assigned supply 0 targets)).KeepsDownTo q.depth doc :=
    Json.Change.keepsDownTo_extend (Edit.assigned_of_length_lt hlength) hd hfits
  obtain ⟨parents', hq', hbecomes⟩ := query_rebuild (h.isPlain hp) hd hkeeps
    (Json.rebuild_extend _ _ doc hd hfits) hparents
  have hkey : ∀ m' ∈ parents',
      m'.value.getKey? name = some (supply (targets.idxOf m'.location)) := by
    intro m' hmem'
    obtain ⟨m, hm, hm'⟩ := exists_left_of_forall₂ hbecomes hmem'
    rw [← hm'.1]
    refine hm'.getKey?_of_extend hd hfits (query_located hd hparents m hm) ?_
    have hmem : m.location ∈ targets :=
      Location.mem_distinctDescending.mpr (List.mem_map_of_mem hm)
    rw [Edit.assigned_of_mem hmem, Nat.zero_add]
  rw [hrun, h.query_of_key hq' hkey, map_eq_of_forall₂ hbecomes fun m _ m' hm' => ?_]
  rw [Match.below, hm'.1]

/-- **What was set is what is found.**  If `set` succeeds with a constant value on a path
without deep scans and filters, the path had matches or not.  If it had, it matches the same
locations afterwards, in the same order and as often, all with that value.  If it had none and
a key was created, it matches behind each match of the path without that key, in their order,
again with that value. -/
theorem query_set (options : Options) {p : Path} (hp : p.isPlain = true) {doc : Json}
    (hd : doc.DistinctKeys) (v : Json) {n : Nat}
    (hset : (p.set options (.always v) doc).result = .ok n) :
    let changed := (p.set options (.always v) doc).document
    ∃ found, p.query options doc = .ok found ∧
      (found ≠ [] → p.query options changed = .ok (found.map fun m => ⟨m.location, v⟩)) ∧
      (found = [] → ∀ q name, p.creation? = some (q, .key name) →
        ∃ parents, q.query options doc = .ok parents ∧ parents ≠ [] ∧
          p.query options changed =
            .ok (parents.map fun m => ⟨m.location ++ [.key name], v⟩)) := by
  intro changed
  obtain ⟨found, hq⟩ := query_of_set hset
  refine ⟨found, hq, fun hfound => query_replaced hp hd hq hfound v, ?_⟩
  rintro rfl q name hcreation
  obtain ⟨parents, hparents, hne, hcreated⟩ :=
    query_created hp hd hq (creation?_eq_some_iff.mp hcreation) hset
  exact ⟨parents, hparents, hne, hcreated⟩

/-- An element that is matched twice becomes an object, and a key is created in objects of
which one is matched twice. -/
theorem query_set_repeated :
    let p : Path := .mk .root [] [.mk (.child (.name "a"))
      [.mk [.index (-1), .slice ⟨none, some 2, none⟩]]] ""
    let doc : Json := .object [("a", .array [.null, .object [("x", .null)]])]
    let q : Path := .mk .root [.mk [.name "b", .name "c", .name "b"]] [] ""
    let longer : Path := .mk .root [.mk [.name "b", .name "c", .name "b"]]
      [.mk (.child (.name "x")) []] ""
    let other : Json := .object [("c", .object []), ("b", .object [("y", .null)])]
    let v : Json := .object [("x", .array [])]
    (∃ found, p.query {} (p.set {} (.always v) doc).document = .ok found ∧
      found.map Match.location = [[.key "a", .index 1], [.key "a", .index 0],
        [.key "a", .index 1]] ∧ ∀ m ∈ found, m.value = v) ∧
    longer.creation? = some (q, .key "x") ∧
    ∃ found, longer.query {} (longer.set {} (.always v) other).document = .ok found ∧
      found.map Match.location = [[.key "b", .key "x"], [.key "c", .key "x"],
        [.key "b", .key "x"]] ∧ ∀ m ∈ found, m.value = v := by
  intro p doc q longer other v
  have hd : doc.DistinctKeys := by
    simp [doc, Json.DistinctKeys, Json.ItemsDistinctKeys, Json.MembersDistinctKeys]
  have hother : other.DistinctKeys := by
    simp [other, Json.DistinctKeys, Json.MembersDistinctKeys]
  have hset : (p.set {} (.always v) doc).result = .ok 2 := by cbv
  have hcreated : (longer.set {} (.always v) other).result = .ok 2 := by cbv
  have heval : ((p.query {} doc).toOption.any fun found => found.map Match.location =
      [[.key "a", .index 1], [.key "a", .index 0], [.key "a", .index 1]]) = true := by
    decide +kernel
  have hparents : ((q.query {} other).toOption.any fun found => found.map Match.location =
      [[.key "b"], [.key "c"], [.key "b"]]) = true := by decide +kernel
  have hnone : longer.query {} other = .ok [] := by cbv
  refine ⟨?_, rfl, ?_⟩
  · obtain ⟨found, hq, hreplaced, -⟩ := query_set {} rfl hd v hset
    obtain ⟨_, hq', hlocations⟩ := exists_of_any heval
    obtain rfl := Except.ok.inj (hq.symm.trans hq')
    have hlocations := of_decide_eq_true hlocations
    have hne : found ≠ [] := by
      rintro rfl
      simp at hlocations
    refine ⟨_, hreplaced hne, ?_, by simp⟩
    rw [List.map_map]
    exact hlocations
  · obtain ⟨found, hq, -, hcreates⟩ := query_set {} rfl hother v hcreated
    obtain rfl := Except.ok.inj (hq.symm.trans hnone)
    obtain ⟨parents, hq, -, hquery⟩ := hcreates rfl q "x" rfl
    obtain ⟨_, hq', hlocations⟩ := exists_of_any hparents
    obtain rfl := Except.ok.inj (hq.symm.trans hq')
    have hbehind := congrArg (List.map (· ++ [Accessor.key "x"])) (of_decide_eq_true hlocations)
    refine ⟨_, hquery, ?_, by simp⟩
    rw [List.map_map] at hbehind ⊢
    exact hbehind

end Path
end PathQuery
