import PathQuery.Proofs.Query.Provenance

/-! # The locations of matches

A location is walked from the root of a document, by keys and indexes.  Every match lies
where its location leads, and so does each value on the way to it, for reading and for
changing (`Path.query_sound`).  A step only ever goes further down: what it finds from a
match has the location of that match as a prefix.
-/

namespace PathQuery

/-! ## Changing the value at a location -/

namespace Json

theorem lookup_insert (key : String) (value : Json) (members : List (String × Json)) :
    lookup key (insert key value members) = some value := by
  induction members with
  | nil => simp [insert, lookup]
  | cons p rest ih =>
    rw [insert]
    split
    · rename_i hk
      rw [lookup, if_pos hk]
    · rename_i hk
      rw [lookup, if_neg hk, ih]

/-- A value that is there can be replaced. -/
theorem exists_put? {doc child : Json} {a : Accessor} (h : doc.get? a = some child)
    (value : Json) : ∃ changed, doc.put? a value = some changed ∧
      changed.get? a = some value := by
  cases a with
  | key name =>
    cases doc with
    | object members => exact ⟨_, rfl, lookup_insert name value members⟩
    | _ => simp [get?, getKey?] at h
  | index i =>
    cases doc with
    | array items =>
      obtain ⟨hi, -⟩ := List.getElem?_eq_some_iff.mp h
      refine ⟨.array (items.set i value), ?_, List.getElem?_set_self hi⟩
      rw [put?, setIndex?, if_pos hi]
    | _ => simp [get?, getIndex?] at h

/-- A change at a location gets the value that is there, and what it makes of it is there
afterwards. -/
theorem updateAt?_of_valueAt? {doc v : Json} {l : Location} (h : doc.valueAt? l = some v)
    (f : Json → Option Json) : (f v = none → doc.updateAt? l f = none) ∧
      ∀ w, f v = some w → ∃ changed, doc.updateAt? l f = some changed ∧
        changed.valueAt? l = some w := by
  induction l generalizing doc with
  | nil =>
    obtain rfl := Option.some.inj h
    exact ⟨id, fun w hw => ⟨w, hw, rfl⟩⟩
  | cons a l ih =>
    obtain ⟨child, hc, hv⟩ := Option.bind_eq_some_iff.mp h
    obtain ⟨hnone, hsome⟩ := ih hv
    have hupdate : doc.updateAt? (a :: l) f = (child.updateAt? l f).bind (doc.put? a) := by
      show ((doc.get? a).bind fun c => (c.updateAt? l f).bind (doc.put? a)) = _
      rw [hc, Option.bind_some]
    rw [hupdate]
    refine ⟨fun hf => by rw [hnone hf, Option.bind_none], fun w hw => ?_⟩
    obtain ⟨new, hnew, hw⟩ := hsome w hw
    obtain ⟨changed, hput, hget⟩ := exists_put? hc new
    refine ⟨changed, by rw [hnew, Option.bind_some, hput], ?_⟩
    rw [valueAt?, hget, Option.bind_some, hw]

end Json

/-! ## Going further down -/

namespace Match

theorem location_of_mem_children {m child : Match} (h : child ∈ m.children) :
    ∃ a, child.location = m.location ++ [a] := by
  unfold children at h
  split at h
  · obtain ⟨⟨key, v⟩, -, rfl⟩ := List.mem_map.mp h
    exact ⟨.key key, rfl⟩
  · obtain ⟨i, hi, rfl⟩ := List.mem_mapIdx.mp h
    exact ⟨.index i, rfl⟩
  · simp at h

theorem length_of_mem_children {m child : Match} (h : child ∈ m.children) :
    child.location.length = m.location.length + 1 := by
  obtain ⟨a, ha⟩ := location_of_mem_children h
  rw [ha, List.length_append, List.length_singleton]

/-- Children take over every prefix of a location. -/
theorem prefix_closed (l : Location) : Match.Closed fun m => l <+: m.location := by
  intro m hm child hchild
  obtain ⟨a, ha⟩ := location_of_mem_children hchild
  rw [ha]
  exact hm.trans (List.prefix_append _ _)

end Match

section
variable {limit : Nat} {root : Json} {names : Names} {m : Match} {found : List Match}

theorem Segment.prefix_of_through {segments : List Segment}
    (h : Segment.through limit root segments [m] = .ok found) :
    ∀ m' ∈ found, m.location <+: m'.location :=
  Segment.through_closed (Match.prefix_closed m.location) h (by simp)

theorem Step.prefix_of_through {steps : List Step}
    (h : Step.through limit root names steps [m] = .ok found) :
    ∀ m' ∈ found, m.location <+: m'.location :=
  Step.through_closed (Match.prefix_closed m.location) h (by simp)

end

namespace Path

/-- **Locations are sound.**  Every match of a query lies in the document where its
location leads.  Each location on the way there exists as well, the way from there leads on
to the match, and a change there gets the value that is there and puts another in its
place.  What a step, or a segment, finds from a match lies at or below that match. -/
theorem query_sound {options : Options} {p : Path} {doc : Json} {found : List Match}
    (hd : doc.DistinctKeys) (h : p.query options doc = .ok found) :
    (∀ m ∈ found, doc.valueAt? m.location = some m.value ∧
      ∀ above below, m.location = above ++ below →
        ∃ v, doc.valueAt? above = some v ∧ v.valueAt? below = some m.value ∧
          ∀ f : Json → Option Json, (f v = none → doc.updateAt? above f = none) ∧
            ∀ w, f v = some w → ∃ changed, doc.updateAt? above f = some changed ∧
              changed.valueAt? above = some w) ∧
    (∀ names step m reached,
      Step.through options.maxDepth doc names [step] [m] = .ok reached →
        ∀ m' ∈ reached, m.location <+: m'.location) ∧
    ∀ segment m reached, Segment.through options.maxDepth doc [segment] [m] = .ok reached →
      ∀ m' ∈ reached, m.location <+: m'.location := by
  refine ⟨fun m hm => ?_, fun _ _ _ _ => Step.prefix_of_through,
    fun _ _ _ => Segment.prefix_of_through⟩
  have hlocated : doc.valueAt? m.location = some m.value := query_located hd h m hm
  refine ⟨hlocated, fun above below hsplit => ?_⟩
  rw [hsplit, Json.valueAt?_append] at hlocated
  obtain ⟨v, hv, hrest⟩ := Option.bind_eq_some_iff.mp hlocated
  exact ⟨v, hv, hrest, Json.updateAt?_of_valueAt? hv⟩

/-- A slice that goes backwards, and a filter that looks at the root with an index that
counts from the end: each match is where it says, and so is the array above it. -/
theorem query_sound_reversed :
    let n (i : Int64) : Json := .number (.ofInt64 i)
    let doc : Json := .object [("a", .array [.object [("b", n 1), ("c", n 9)],
      .object [("b", n 4)], .object [("c", n 2), ("b", n 7)]]), ("k", n 4)]
    doc.DistinctKeys ∧ ∃ p found, compile {} "$..a[-1:0:-1][?@ <= $.a[-2].b]" = .ok p ∧
      p.query {} doc = .ok found ∧
      found.map Match.location = [[.key "a", .index 2, .key "c"], [.key "a", .index 1, .key "b"]] ∧
      ∀ m ∈ found, doc.valueAt? m.location = some m.value ∧
        ∃ v, doc.valueAt? [.key "a"] = some v ∧
          v.valueAt? (m.location.drop 1) = some m.value := by
  intro n doc
  have hd : doc.DistinctKeys := by
    simp [doc, n, Json.DistinctKeys, Json.ItemsDistinctKeys, Json.MembersDistinctKeys]
  have heval : ((compile {} "$..a[-1:0:-1][?@ <= $.a[-2].b]").toOption.any fun p =>
      (p.query {} doc).toOption.any fun found => found.map Match.location =
        [[.key "a", .index 2, .key "c"], [.key "a", .index 1, .key "b"]]) = true := by
    decide +kernel
  obtain ⟨p, hp, hinner⟩ := exists_of_any heval
  obtain ⟨found, hq, hlocations⟩ := exists_of_any hinner
  have hfound := of_decide_eq_true hlocations
  refine ⟨hd, p, found, hp, hq, hfound, fun m hm => ?_⟩
  obtain ⟨hvalue, hway⟩ := (query_sound hd hq).1 m hm
  have hsplit : m.location = [.key "a"] ++ m.location.drop 1 := by
    have hmem := List.mem_map_of_mem (f := Match.location) hm
    rw [hfound] at hmem
    rcases List.mem_cons.mp hmem with h | h
    · rw [h]
      rfl
    · rw [List.mem_singleton.mp h]
      rfl
  obtain ⟨v, hv, hrest, -⟩ := hway _ _ hsplit
  exact ⟨hvalue, v, hv, hrest⟩

end Path
end PathQuery
