import Mathlib.Data.List.Flatten
import PathQuery.Proofs.Document.DistinctKeys
import PathQuery.Proofs.Outcome
import PathQuery.Query.Evaluator

/-! # Where matches come from

Whatever a path does, it goes from values to their children: a property of matches
that passes from a match to its children, and that holds where the path starts,
holds of everything the path finds (`Path.resolve_closed`).  So every match of a
query lies in the document at the location it names (`Path.query_located`).
-/

namespace PathQuery

/-- A property of matches that children take over. -/
def Match.Closed (P : Match → Prop) : Prop :=
  ∀ m, P m → ∀ child ∈ m.children, P child

section
variable {P : Match → Prop} (hP : Match.Closed P)

namespace Match

theorem mem_children_of_childByKey? {m child : Match} {key : String}
    (h : m.childByKey? key = some child) : child ∈ m.children := by
  obtain ⟨v, hv, rfl⟩ := Option.map_eq_some_iff.mp h
  unfold Match.children
  cases hm : m.value with
  | object members =>
    rw [hm] at hv
    exact List.mem_map.mpr ⟨(key, v), Json.mem_of_lookup hv, rfl⟩
  | _ => simp [hm, Json.getKey?] at hv

theorem mem_children_of_childAt? {m child : Match} {i : Nat}
    (h : m.childAt? i = some child) : child ∈ m.children := by
  obtain ⟨v, hv, rfl⟩ := Option.map_eq_some_iff.mp h
  unfold Match.children
  cases hm : m.value with
  | array items =>
    rw [hm] at hv
    obtain ⟨hi, rfl⟩ := List.getElem?_eq_some_iff.mp hv
    exact List.mem_mapIdx.mpr ⟨i, hi, rfl⟩
  | _ => simp [hm, Json.getIndex?] at hv

theorem mem_children_of_select {m found : Match} {s : Selector} (h : found ∈ m.select s) :
    found ∈ m.children := by
  cases s with
  | wildcard => exact h
  | name key =>
    simp only [select, Option.mem_toList] at h
    exact mem_children_of_childByKey? h
  | index position =>
    simp only [select] at h
    split at h
    · rw [Option.mem_toList] at h
      obtain ⟨i, _, hi⟩ := Option.bind_eq_some_iff.mp h
      exact mem_children_of_childAt? hi
    · simp at h
  | slice bounds =>
    simp only [select] at h
    split at h
    · obtain ⟨i, _, hi⟩ := List.mem_filterMap.mp h
      exact mem_children_of_childAt? hi
    · simp at h
  | filter condition => simp [select] at h

include hP in
theorem visit_closed {limit : Nat} {visited stack out : List DeepScan.Pending}
    (h : DeepScan.visit limit visited stack = .ok out)
    (hvisited : ∀ p ∈ visited, P p.target) (hstack : ∀ p ∈ stack, P p.target) :
    ∀ p ∈ out, P p.target := by
  fun_induction DeepScan.visit limit visited stack with
  | case1 visited =>
    rw [← Except.ok.inj h]
    exact fun p hp => hvisited p (List.mem_reverse.mp hp)
  | case2 => simp at h
  | case3 visited p rest hdepth ih =>
    have hp := hstack p (List.mem_cons_self ..)
    refine ih h (fun q hq => ?_) fun q hq => ?_
    · rcases List.mem_cons.mp hq with rfl | hq
      · exact hp
      · exact hvisited q hq
    · rcases List.mem_append.mp hq with hq | hq
      · obtain ⟨child, hchild, rfl⟩ := List.mem_map.mp hq
        exact hP p.target hp child hchild
      · exact hstack q (List.mem_cons_of_mem _ hq)

include hP in
theorem descendants_closed {limit : Nat} {includeSelf : Bool} {m : Match} {found : List Match}
    (h : m.descendants limit includeSelf = .ok found) (hm : P m) : ∀ m' ∈ found, P m' := by
  obtain ⟨visited, hvisit, rfl⟩ := map_eq_ok.mp h
  intro m' hm'
  obtain ⟨p, hp, rfl⟩ := List.mem_map.mp hm'
  refine visit_closed hP hvisit (by simp) (fun q hq => ?_) p (List.mem_filter.mp hp).1
  rw [List.mem_singleton.mp hq]
  exact hm

include hP in
theorem named_closed {names : Names} {key : String} {m : Match} {found : List Match}
    (h : m.named names key = .ok found) (hm : P m) : ∀ m' ∈ found, P m' := by
  intro m' hm'
  unfold named at h
  split at h
  · rw [← Except.ok.inj h, Option.mem_toList] at hm'
    exact hP m hm m' (mem_children_of_childByKey? hm')
  · rw [← Except.ok.inj h] at hm'
    simp at hm'
  · simp at h

end Match

/-- A gathering search finds only what has the property, if each search does. -/
theorem gather_closed {P : Match → Prop} {ε : Type}
    {search : Match → Except ε (List Match)} {starts found : List Match}
    (h : gather search starts = .ok found)
    (hsearch : ∀ m ∈ starts, ∀ part, search m = .ok part → ∀ m' ∈ part, P m') :
    ∀ m' ∈ found, P m' := by
  intro m' hm'
  obtain ⟨m, hm, part, hpart, hmem⟩ := mem_of_gather h hm'
  exact hsearch m hm part hpart m' hmem

include hP in
theorem Head.go_closed {limit : Nat} {names : Names} {segmented : Bool} {head : Head}
    {starts found : List Match} (h : head.go limit names segmented starts = .ok found)
    (hstarts : ∀ m ∈ starts, P m) : ∀ m ∈ found, P m := by
  match head with
  | .here => exact Except.ok.inj h ▸ hstarts
  | .child .any =>
    intro m hm
    rw [← Except.ok.inj h] at hm
    obtain ⟨start, hstart, hm⟩ := List.mem_flatMap.mp hm
    exact hP start (hstarts start hstart) m hm
  | .child (.name key) =>
    exact gather_closed h fun m hm part hpart => Match.named_closed hP hpart (hstarts m hm)
  | .descend (some (.name key)) =>
    refine gather_closed h fun m hm part hpart m' hm' => ?_
    obtain ⟨below, hbelow, rfl⟩ := map_eq_ok.mp hpart
    exact Match.descendants_closed hP hbelow (hstarts m hm) m' (List.mem_filter.mp hm').1
  | .descend (some .any) | .descend none =>
    exact gather_closed h fun m hm part hpart => Match.descendants_closed hP hpart (hstarts m hm)

variable {limit : Nat} {root : Json}

/-- A filter keeps some of the children, in their order. -/
theorem Selector.sublist_of_filter {condition : Filter} {m : Match} {found : List Match}
    (h : Selector.find limit root (.filter condition) m = .ok found) :
    found.Sublist m.children := by
  rw [Selector.find] at h
  obtain ⟨f, hf, rfl⟩ := exists_flatMap_of_gather h
  have hself : ∀ child ∈ m.children, (f child).Sublist [child] := by
    intro child hchild
    obtain ⟨holds, -, hpart⟩ := map_eq_ok.mp (hf child hchild)
    rw [← hpart]
    cases holds with
    | true => exact List.Sublist.refl _
    | false => exact List.nil_sublist _
  have hall := List.Sublist.flatMap_right m.children hself
  rwa [List.flatMap_singleton'] at hall

include hP in
theorem Selector.find_closed {s : Selector} {m : Match} {found : List Match}
    (h : Selector.find limit root s m = .ok found) (hm : P m) : ∀ m' ∈ found, P m' := by
  cases s with
  | filter condition =>
    rw [Selector.find] at h
    refine gather_closed h fun child hchild part hpart m' hm' => ?_
    obtain ⟨holds, _, rfl⟩ := map_eq_ok.mp hpart
    have hmem : m' = child := by
      cases holds <;> simp_all
    exact hmem ▸ hP m hm child hchild
  | _ =>
    simp only [Selector.find, Except.ok.injEq] at h
    exact fun m' hm' => hP m hm m' (Match.mem_children_of_select (h ▸ hm'))

include hP in
theorem Selector.union_closed {selectors : List Selector} {m : Match} {found : List Match}
    (h : Selector.union limit root selectors m = .ok found) (hm : P m) :
    ∀ m' ∈ found, P m' := by
  induction selectors generalizing found with
  | nil =>
    rw [Selector.union, Except.ok.injEq] at h
    simp [← h]
  | cons s rest ih =>
    simp only [Selector.union, bind_eq_ok] at h
    obtain ⟨first, hfirst, others, hothers, h⟩ := h
    rw [← Except.ok.inj h]
    intro m' hm'
    rcases List.mem_append.mp hm' with hm' | hm'
    · exact Selector.find_closed hP hfirst hm m' hm'
    · exact ih hothers m' hm'

include hP in
theorem Segment.through_closed {segments : List Segment} {starts found : List Match}
    (h : Segment.through limit root segments starts = .ok found)
    (hstarts : ∀ m ∈ starts, P m) : ∀ m ∈ found, P m := by
  induction segments generalizing starts with
  | nil =>
    rw [Segment.through, Except.ok.injEq] at h
    exact h ▸ hstarts
  | cons s rest ih =>
    obtain ⟨selectors⟩ := s
    simp only [Segment.through, bind_eq_ok] at h
    obtain ⟨reached, hreached, h⟩ := h
    exact ih h (gather_closed hreached fun m hm part hpart =>
      Selector.union_closed hP hpart (hstarts m hm))

include hP in
theorem Step.through_closed {names : Names} {steps : List Step} {starts found : List Match}
    (h : Step.through limit root names steps starts = .ok found)
    (hstarts : ∀ m ∈ starts, P m) : ∀ m ∈ found, P m := by
  induction steps generalizing starts with
  | nil =>
    rw [Step.through, Except.ok.injEq] at h
    exact h ▸ hstarts
  | cons s rest ih =>
    obtain ⟨head, segments⟩ := s
    simp only [Step.through, bind_eq_ok] at h
    obtain ⟨reached, hreached, passed, hpassed, h⟩ := h
    exact ih h (Segment.through_closed hP hpassed (Head.go_closed hP hreached hstarts))

include hP in
/-- A property that children take over holds of everything that a path finds, if it
holds of the two values at which the path may start. -/
theorem Path.resolve_closed {names : Names} {current : Match} {p : Path} {found : List Match}
    (h : Path.resolve limit root names current p = .ok found)
    (hroot : P ⟨[], root⟩) (hcurrent : P current) : ∀ m ∈ found, P m := by
  obtain ⟨origin, segments, steps, source⟩ := p
  simp only [Path.resolve, bind_eq_ok] at h
  obtain ⟨passed, hpassed, h⟩ := h
  refine Step.through_closed hP h (Segment.through_closed hP hpassed fun m hm => ?_)
  rw [List.mem_singleton.mp hm]
  cases origin with
  | root => exact hroot
  | current => exact hcurrent

end

/-! ## Matches lie where they say -/

namespace Json

theorem valueAt?_append (doc : Json) (l l' : Location) :
    doc.valueAt? (l ++ l') = (doc.valueAt? l).bind fun v => v.valueAt? l' := by
  induction l generalizing doc with
  | nil => rfl
  | cons a l ih => simp [valueAt?, ih, Option.bind_assoc]

end Json

/-- The match is the value that the document has at its location. -/
def Match.Located (doc : Json) (m : Match) : Prop :=
  doc.valueAt? m.location = some m.value

/-- In an object without repeated keys, the children are what the accessors lead to. -/
theorem Match.mem_children_iff {m child : Match} (hd : m.value.DistinctKeys) :
    child ∈ m.children ↔ ∃ a v, m.value.get? a = some v ∧ child = m.below a v := by
  constructor
  · intro hchild
    unfold Match.children at hchild
    cases hv : m.value with
    | object members =>
      rw [hv] at hchild hd
      obtain ⟨⟨key, v⟩, hmem, rfl⟩ := List.mem_map.mp hchild
      exact ⟨.key key, v, Json.lookup_of_mem (Json.distinctKeys_object.mp hd).1 hmem, rfl⟩
    | array items =>
      rw [hv] at hchild
      obtain ⟨i, hi, rfl⟩ := List.mem_mapIdx.mp hchild
      exact ⟨.index i, items[i], List.getElem?_eq_getElem hi, rfl⟩
    | _ => simp [hv] at hchild
  · rintro ⟨a, v, hv, rfl⟩
    cases a with
    | key key => exact mem_children_of_childByKey? (Option.map_eq_some_iff.mpr ⟨v, hv, rfl⟩)
    | index i => exact mem_children_of_childAt? (Option.map_eq_some_iff.mpr ⟨v, hv, rfl⟩)

/-- Children have no repeated keys, if their parent has none. -/
theorem Match.distinctKeys_closed : Match.Closed fun m => m.value.DistinctKeys := by
  intro m hd child hchild
  obtain ⟨a, v, hv, rfl⟩ := (mem_children_iff hd).mp hchild
  exact hd.of_get? hv

theorem Match.located_closed {doc : Json} (hd : doc.DistinctKeys) :
    Match.Closed (Match.Located doc) := by
  intro m hm child hchild
  rw [Match.Located] at hm
  obtain ⟨a, v, hv, rfl⟩ := (mem_children_iff (hd.of_valueAt? hm)).mp hchild
  rw [Match.Located, Match.below, Json.valueAt?_append, hm, Option.bind_some]
  simp [Json.valueAt?, hv]

/-- Every match of a query is a value of the document, at the location it names. -/
theorem Path.query_located {options : Options} {p : Path} {doc : Json} {found : List Match}
    (hd : doc.DistinctKeys) (h : p.query options doc = .ok found) :
    ∀ m ∈ found, m.Located doc :=
  Path.resolve_closed (Match.located_closed hd) h rfl rfl

/-- The locations at which a query matches exist. -/
theorem Path.valueAt?_of_query {options : Options} {p : Path} {doc : Json} {found : List Match}
    (hd : doc.DistinctKeys) (hq : p.query options doc = .ok found) {l : Location}
    (hl : l ∈ found.map Match.location) : (doc.valueAt? l).isSome := by
  obtain ⟨m, hm, rfl⟩ := List.mem_map.mp hl
  rw [query_located hd hq m hm]
  rfl

end PathQuery
