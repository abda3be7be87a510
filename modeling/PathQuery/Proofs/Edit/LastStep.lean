import PathQuery.Edit
import PathQuery.Proofs.Query.Composition

/-! # The last step of a path

`Path.Extends` says that a path is another path with one step more, which names one key or
one index.  `Path.creation?` finds that other path (`Path.creation?_eq_some_iff`).  A query
of the longer path is a query of the shorter one, followed by a search for the entry in each
match; if that finds nothing, none of the matches has the entry
(`Path.Extends.query_of_nil`).
-/

namespace PathQuery

/-- The selector that names an entry. -/
def NewEntry.selector : NewEntry → Selector
  | .key name => .name name
  | .index i => .index i

theorem Segment.entry?_eq_some_iff {s : Segment} {entry : NewEntry} :
    s.entry? = some entry ↔ s = .mk [entry.selector] := by
  constructor
  · intro h
    unfold entry? at h
    split at h
    · obtain rfl := Option.some.inj h
      rfl
    · obtain rfl := Option.some.inj h
      rfl
    · simp at h
  · rintro rfl
    cases entry <;> rfl

/-- A path is another path with one step more that names an entry: in brackets behind its
last node, unless that is a deep scan, or as a bare name of its own. -/
inductive Path.Extends : Path → Path → NewEntry → Prop
  | first (origin : Origin) (segments : List Segment) (source : String) (entry : NewEntry) :
      Extends (.mk origin (segments ++ [.mk [entry.selector]]) [] source)
        (.mk origin segments [] source) entry
  | bracket (origin : Origin) (segments : List Segment) (steps : List Step) {head : Head}
      (hhead : ∀ key, head ≠ .descend key) (inner : List Segment) (source : String)
      (entry : NewEntry) :
      Extends (.mk origin segments (steps ++ [.mk head (inner ++ [.mk [entry.selector]])]) source)
        (.mk origin segments (steps ++ [.mk head inner]) source) entry
  | name (origin : Origin) (segments : List Segment) (steps : List Step) (key : String)
      (source : String) :
      Extends (.mk origin segments (steps ++ [.mk (.child (.name key)) []]) source)
        (.mk origin segments steps source) (.key key)

/-- The shorter path and the entry are what creation works with. -/
theorem Path.creation?_eq_some_iff {p parent : Path} {entry : NewEntry} :
    p.creation? = some (parent, entry) ↔ p.Extends parent entry := by
  constructor
  · intro h
    obtain ⟨origin, segments, steps, source⟩ := p
    rw [creation?] at h
    split at h
    · rename_i hlast
      obtain rfl := List.getLast?_eq_none_iff.mp hlast
      obtain ⟨last, hlast, h⟩ := Option.bind_eq_some_iff.mp h
      obtain ⟨entry', hentry, h⟩ := Option.map_eq_some_iff.mp h
      obtain ⟨rfl, rfl⟩ := Prod.mk.inj h
      obtain rfl := Segment.entry?_eq_some_iff.mp hentry
      obtain ⟨before, rfl⟩ := List.getLast?_eq_some_iff.mp hlast
      rw [List.dropLast_concat]
      exact Extends.first ..
    · rename_i head inner hlast
      obtain ⟨before, rfl⟩ := List.getLast?_eq_some_iff.mp hlast
      rw [List.dropLast_concat] at h
      split at h
      · simp at h
      · rename_i last hnot hinner
        obtain ⟨entry', hentry, h⟩ := Option.map_eq_some_iff.mp h
        obtain ⟨rfl, rfl⟩ := Prod.mk.inj h
        obtain rfl := Segment.entry?_eq_some_iff.mp hentry
        obtain ⟨inner, rfl⟩ := List.getLast?_eq_some_iff.mp hinner
        rw [List.dropLast_concat]
        exact Extends.bracket _ _ _ hnot ..
      · rename_i key hinner
        obtain rfl := List.getLast?_eq_none_iff.mp hinner
        obtain ⟨rfl, rfl⟩ := Prod.mk.inj (Option.some.inj h)
        exact Extends.name ..
      · simp at h
  · rintro (⟨origin, segments, source, entry⟩ |
      ⟨origin, segments, steps, hhead, inner, source, entry⟩ |
      ⟨origin, segments, steps, key, source⟩)
    · have hentry := Segment.entry?_eq_some_iff.mpr (rfl : Segment.mk [entry.selector] = _)
      simp [creation?, hentry]
    · have hentry := Segment.entry?_eq_some_iff.mpr (rfl : Segment.mk [entry.selector] = _)
      rename_i head
      cases head with
      | descend key => exact absurd rfl (hhead key)
      | _ => simp [creation?, hentry]
    · simp [creation?]

/-! ## A search for the entry -/

theorem placeOf_lt {i : Int64} {length j : Nat} (h : placeOf i length = some j) :
    j < length := by
  simp only [placeOf] at h
  split at h
  · split at h
    · simp only [Option.some.injEq] at h
      omega
    · simp at h
  · split at h
    · simp only [Option.some.injEq] at h
      omega
    · simp at h

/-- An index that is not negative has no place only behind the end of an array. -/
theorem le_of_placeOf_eq_none {i : Int64} {length : Nat} (hi : 0 ≤ i.toInt)
    (h : placeOf i length = none) : (length : Int) ≤ i.toInt := by
  simp only [placeOf, hi, if_true] at h
  split at h
  · simp at h
  · omega

/-- A value does not have an entry. -/
def Json.Lacks (v : Json) : NewEntry → Prop
  | .key name => v.getKey? name = none
  | .index i => ∀ length, v.length? = some length → placeOf i length = none

/-- A bracket that names an entry finds nothing in a value that lacks it. -/
theorem Selector.lacks_of_union {limit : Nat} {root : Json} {entry : NewEntry} {m : Match}
    (h : union limit root [entry.selector] m = .ok []) : m.value.Lacks entry := by
  simp only [union, bind_eq_ok] at h
  obtain ⟨first, hfirst, others, hothers, h⟩ := h
  obtain ⟨rfl, -⟩ := List.append_eq_nil_iff.mp (Except.ok.inj h)
  cases entry with
  | key name =>
    show m.value.getKey? name = none
    simpa [NewEntry.selector, find, Match.select, Match.childByKey?] using hfirst
  | index i =>
    intro length hlength
    simp only [NewEntry.selector, find, Match.select, hlength, Except.ok.injEq,
      Option.toList_eq_nil_iff, Option.bind_eq_none_iff] at hfirst
    by_contra hplace
    obtain ⟨j, hj⟩ := Option.ne_none_iff_exists'.mp hplace
    have hnone := hfirst j hj
    -- a place of an array is one of its elements
    obtain ⟨items, hitems⟩ : ∃ items, m.value = .array items := by
      cases hv : m.value <;> simp_all [Json.length?]
    have hlt : j < items.length := by
      obtain rfl : items.length = length := by simpa [hitems, Json.length?] using hlength
      exact placeOf_lt hj
    simp [Match.childAt?, hitems, Json.getIndex?, hlt] at hnone

/-- A bare name that finds nothing has found no object with its key. -/
theorem Match.lacks_of_named {key : String} {m : Match} (h : m.named .strict key = .ok []) :
    m.value.Lacks (.key key) := by
  unfold named at h
  split at h
  · show _ = none
    simpa [childByKey?] using h
  · simp_all
  · simp at h

/-- A bracket that names a key finds its value. -/
theorem Selector.union_name {limit : Nat} {root : Json} {name : String} {m : Match} {v : Json}
    (h : m.value.getKey? name = some v) :
    union limit root [.name name] m = .ok [m.below (.key name) v] := by
  simp only [union, find, Match.select, Match.childByKey?, h]
  rfl

/-- A bare name finds the value of its key. -/
theorem Match.named_of_key {names : Names} {name : String} {m : Match} {v : Json}
    (h : m.value.getKey? name = some v) : m.named names name = .ok [m.below (.key name) v] := by
  have hkind : m.value.kind = .object := by
    cases hv : m.value <;> simp_all [Json.getKey?, Json.kind]
  simp only [named, hkind, childByKey?, h]
  rfl

theorem Head.go_of_ne_descend {limit : Nat} {names : Names} {head : Head}
    (h : ∀ key, head ≠ .descend key) (segmented segmented' : Bool) (starts : List Match) :
    head.go limit names segmented starts = head.go limit names segmented' starts := by
  match head with
  | .here | .child .any | .child (.name _) => rfl
  | .descend key => exact absurd rfl (h key)

/-- A search below one match for an entry: what it finds nothing in lacks the entry, and it
finds the value of a key. -/
structure NewEntry.SearchedBy (entry : NewEntry)
    (search : Match → Except EvalError (List Match)) : Prop where
  lacks (m : Match) : search m = .ok [] → m.value.Lacks entry
  finds (name : String) (m : Match) (v : Json) : entry = .key name →
    m.value.getKey? name = some v → search m = .ok [m.below (.key name) v]

theorem NewEntry.searchedBy_union (limit : Nat) (root : Json) (entry : NewEntry) :
    entry.SearchedBy (Selector.union limit root [entry.selector]) where
  lacks _ := Selector.lacks_of_union
  finds := by
    rintro name m v rfl hv
    exact Selector.union_name hv

theorem NewEntry.searchedBy_named (name : String) :
    (NewEntry.key name).SearchedBy (Match.named .strict name) where
  lacks _ := Match.lacks_of_named
  finds := by
    rintro _ m v ⟨⟩ hv
    exact Match.named_of_key hv

/-- A path with one more segment goes through that segment from what the path without it
finds. -/
theorem Path.query_segments_concat (options : Options) (origin : Origin)
    (segments : List Segment) (selectors : List Selector) (source : String) (doc : Json) :
    query options (.mk origin (segments ++ [.mk selectors]) [] source) doc =
      (query options (.mk origin segments [] source) doc >>=
        gather (Selector.union options.maxDepth doc selectors)) := by
  simp only [query_mk, Segment.through_concat, bind_assoc]
  refine congrArg _ (funext fun reached => ?_)
  rw [Step.through_nil]
  exact bind_pure _

/-- So does a path whose last step has one more segment, unless that step is a deep scan, for
which the first segment makes a difference. -/
theorem Path.query_inner_concat (options : Options) (origin : Origin) (segments : List Segment)
    (steps : List Step) {head : Head} (hhead : ∀ key, head ≠ .descend key)
    (inner : List Segment) (selectors : List Selector) (source : String) (doc : Json) :
    query options (.mk origin segments (steps ++ [.mk head (inner ++ [.mk selectors])]) source)
        doc =
      (query options (.mk origin segments (steps ++ [.mk head inner]) source) doc >>=
        gather (Selector.union options.maxDepth doc selectors)) := by
  rw [query_mk, query_mk, bind_assoc]
  refine congrArg _ (funext fun between => ?_)
  rw [Step.through_concat, Step.through_concat, bind_assoc]
  refine congrArg _ (funext fun reached => ?_)
  rw [Head.go_of_ne_descend hhead _ (!inner.isEmpty), bind_assoc]
  exact congrArg _ (funext fun found => Segment.through_concat ..)

/-- A query is a query of the path without the last step, and then a search for the entry. -/
theorem Path.Extends.query_eq {p parent : Path} {entry : NewEntry} (h : p.Extends parent entry)
    (options : Options) (doc : Json) :
    ∃ last, p.query options doc = (parent.query options doc >>= gather last) ∧
      entry.SearchedBy last := by
  cases h with
  | first origin segments source =>
    exact ⟨_, query_segments_concat .., NewEntry.searchedBy_union ..⟩
  | bracket origin segments steps hhead inner source =>
    exact ⟨_, query_inner_concat options _ _ _ hhead .., NewEntry.searchedBy_union ..⟩
  | name origin segments steps key source =>
    refine ⟨Match.named .strict key, ?_, NewEntry.searchedBy_named key⟩
    rw [query_mk, query_mk, bind_assoc]
    refine congrArg _ (funext fun between => ?_)
    rw [Step.through_concat]
    refine congrArg _ (funext fun reached => ?_)
    rw [Head.go]
    exact bind_pure _

/-- If nothing matches, the path without its last step can be queried, and none of its
matches has the entry. -/
theorem Path.Extends.query_of_nil {p parent : Path} {entry : NewEntry}
    (h : p.Extends parent entry) {options : Options} {doc : Json}
    (hq : p.query options doc = .ok []) :
    ∃ found, parent.query options doc = .ok found ∧ ∀ m ∈ found, m.value.Lacks entry := by
  obtain ⟨last, heq, hsearch⟩ := h.query_eq options doc
  rw [heq] at hq
  obtain ⟨found, hfound, hlast⟩ := bind_eq_ok.mp hq
  exact ⟨found, hfound, fun m hm => hsearch.lacks m (eq_ok_nil_of_gather hlast m hm)⟩

/-- If the matches of the path without its last step all have a key, the path finds its value
in each of them. -/
theorem Path.Extends.query_of_key {p parent : Path} {name : String}
    (h : p.Extends parent (.key name)) {options : Options} {doc : Json} {found : List Match}
    (hq : parent.query options doc = .ok found) {value : Match → Json}
    (hkey : ∀ m ∈ found, m.value.getKey? name = some (value m)) :
    p.query options doc = .ok (found.map fun m => m.below (.key name) (value m)) := by
  obtain ⟨last, heq, hsearch⟩ := h.query_eq options doc
  rw [heq, hq]
  exact gather_eq_map fun m hm => hsearch.finds name m _ rfl (hkey m hm)

end PathQuery
