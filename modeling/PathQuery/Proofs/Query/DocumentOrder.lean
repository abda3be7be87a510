import PathQuery.Proofs.Query.DeepScanSpelling
import PathQuery.Proofs.Query.PlainPaths
import PathQuery.Proofs.Query.SliceBounds

/-! # Matches come in document order

A document is read in pre-order: a value before those within it, and the children of a value
in the order of their keys or indexes (`Json.Precedes`).  What a selector finds below one match
stands in this order, unless it is a slice that goes backwards; and as long as all matches lie
on one level, what is found below an earlier one comes before what is found below a later one.
So a path without unions, whose only deep scan is its last step, lists its matches in the order
of the document (`Path.query_in_order`).
-/

namespace PathQuery

/-! ## The order of a document -/

namespace Json

/-- Of two children of one value the first stands before the second: its key comes first among
the keys, or its index is the lesser one. -/
def Earlier (v : Json) : Accessor → Accessor → Prop
  | .key a, .key b => v.keys.idxOf a < v.keys.idxOf b
  | .index i, .index j => i < j
  | _, _ => False

/-- **The pre-order of a document.**  A value comes before those within it, and of two values
that lie on different branches of some value, the one on the earlier branch comes first. -/
inductive Precedes : Json → Location → Location → Prop
  | within (v : Json) (a : Accessor) (l : Location) : Precedes v [] (a :: l)
  | branch {v : Json} {a b : Accessor} (h : v.Earlier a b) (l l' : Location) :
    Precedes v (a :: l) (b :: l')
  | under {v child : Json} {a : Accessor} {l l' : Location} (hc : v.get? a = some child)
    (h : Precedes child l l') : Precedes v (a :: l) (a :: l')

variable {v doc : Json} {a b c : Accessor} {l l' l'' : Location}

theorem not_earlier_self (v : Json) (a : Accessor) : ¬v.Earlier a a := by
  cases a <;> exact Nat.lt_irrefl _

theorem Earlier.trans (h : v.Earlier a b) (h' : v.Earlier b c) : v.Earlier a c := by
  cases a <;> cases b <;> cases c <;> first | exact Nat.lt_trans h h' | exact h.elim | exact h'.elim

theorem Precedes.irrefl (v : Json) (l : Location) : ¬v.Precedes l l := by
  induction l generalizing v with
  | nil => nofun
  | cons a l ih =>
    intro h
    cases h with
    | branch h => exact not_earlier_self v a h
    | under _ h => exact ih _ h

theorem Precedes.trans (h : v.Precedes l l') (h' : v.Precedes l' l'') : v.Precedes l l'' := by
  induction h generalizing l'' with
  | within v a l =>
    cases h' with
    | branch => exact .within ..
    | under => exact .within ..
  | branch h l l' =>
    cases h' with
    | branch h' => exact .branch (h.trans h') ..
    | under => exact .branch h ..
  | under hc _ ih =>
    cases h' with
    | branch h' => exact .branch h' ..
    | under hc' h' =>
      obtain rfl := Option.some.inj (hc.symm.trans hc')
      exact .under hc (ih h')

/-- The order of a document is one, so a list that ascends in it repeats nothing. -/
theorem isStrictOrder_precedes (doc : Json) : IsStrictOrder Location doc.Precedes where
  irrefl := Precedes.irrefl doc
  trans _ _ _ := Precedes.trans

/-- The order within a value is that of the whole document. -/
theorem Precedes.append_left (hv : doc.valueAt? l = some v) (h : v.Precedes l' l'') :
    doc.Precedes (l ++ l') (l ++ l'') := by
  induction l generalizing doc with
  | nil => exact Option.some.inj hv ▸ h
  | cons a l ih =>
    obtain ⟨child, hc, hv⟩ := Option.bind_eq_some_iff.mp hv
    exact .under hc (ih hv)

/-- Of two values on one level, neither within the other, all that is within the first one
comes before all that is within the second. -/
theorem Precedes.append_right (h : v.Precedes l l') (hlevel : l.length = l'.length)
    (x y : Location) : v.Precedes (l ++ x) (l' ++ y) := by
  induction h with
  | within => simp at hlevel
  | branch h => exact .branch h ..
  | under hc _ ih => exact .under hc (ih (Nat.succ.inj hlevel))

/-- The keys of an object stand in their own order. -/
theorem pairwise_idxOf {keys : List String} (h : keys.Nodup) :
    keys.Pairwise fun a b => keys.idxOf a < keys.idxOf b := by
  rw [List.pairwise_iff_getElem]
  intro i j hi hj hij
  rwa [h.idxOf_getElem, h.idxOf_getElem]

end Json

/-! ## Rows of matches -/

namespace Match

/-- Both matches lie within a third one, and the first of them comes earlier there. -/
def Before (m first second : Match) : Prop :=
  ∃ l l', first.location = m.location ++ l ∧ second.location = m.location ++ l' ∧
    m.value.Precedes l l'

variable {m start first second : Match} {starts found : List Match}

/-- What comes earlier in a value that lies within a match does so in the match. -/
theorem Before.of_inside (hd : m.value.DistinctKeys) (hstart : start ∈ m.subtree)
    (h : start.Before first second) : m.Before first second := by
  obtain ⟨l, v, hv, rfl⟩ := (mem_subtree_iff hd).mp hstart
  obtain ⟨x, y, hx, hy, hprecedes⟩ := h
  refine ⟨l ++ x, l ++ y, ?_, ?_, hprecedes.append_left hv⟩
  · rw [hx, List.append_assoc]
  · rw [hy, List.append_assoc]

theorem before_of_earlier {a b : Accessor} {v w : Json} (h : m.value.Earlier a b) :
    m.Before (m.below a v) (m.below b w) :=
  ⟨[a], [b], rfl, rfl, .branch h [] []⟩

/-- Children stand in the order of the document. -/
theorem pairwise_children (hd : m.value.DistinctKeys) : m.children.Pairwise m.Before := by
  unfold children
  split
  · rename_i members hm
    rw [hm] at hd
    have hkeys := Json.pairwise_idxOf (Json.distinctKeys_object.mp hd).1
    rw [List.pairwise_map] at hkeys ⊢
    refine hkeys.imp fun {p q} h => before_of_earlier ?_
    rw [hm]
    exact h
  · rw [List.pairwise_iff_getElem]
    intro i j _ _ hij
    rw [List.getElem_mapIdx, List.getElem_mapIdx]
    exact before_of_earlier hij
  · exact List.Pairwise.nil

/-- Matches within another one that lie on one level, in their order. -/
structure Row (m : Match) (starts : List Match) : Prop where
  inside : ∀ start ∈ starts, start ∈ m.subtree
  level : ∃ level, ∀ start ∈ starts, start.location.length = level
  ordered : starts.Pairwise m.Before

/-- **What is found below the matches of a row stands in order**, if what is found below each
of them does. -/
theorem Row.pairwise_flatMap {search : Match → List Match} (h : m.Row starts)
    (hd : m.value.DistinctKeys)
    (hparts : ∀ start ∈ starts, (search start).Pairwise start.Before)
    (hbelow : ∀ start ∈ starts, ∀ a ∈ search start, start.location <+: a.location) :
    (starts.flatMap search).Pairwise m.Before := by
  obtain ⟨level, hlevel⟩ := h.level
  rw [List.pairwise_flatMap]
  refine ⟨fun start hmem => ?_, h.ordered.imp_of_mem fun {start other} hmem hmem' hbefore a ha
    b hb => ?_⟩
  · exact (hparts start hmem).imp (Before.of_inside hd (h.inside start hmem))
  · -- the two starts lie on one level, so the branches on which they lie are different
    obtain ⟨l, l', hl, hl', hprecedes⟩ := hbefore
    have hlength : l.length = l'.length := by
      have hstart := hlevel start hmem
      have hother := hlevel other hmem'
      rw [hl, List.length_append] at hstart
      rw [hl', List.length_append] at hother
      omega
    obtain ⟨x, hx⟩ := hbelow start hmem a ha
    obtain ⟨y, hy⟩ := hbelow other hmem' b hb
    refine ⟨l ++ x, l' ++ y, ?_, ?_, hprecedes.append_right hlength x y⟩
    · rw [← hx, hl, List.append_assoc]
    · rw [← hy, hl', List.append_assoc]

theorem child_mem_subtree (h : start ∈ m.children) : start ∈ m.subtree := by
  rw [subtree_eq]
  refine List.mem_cons_of_mem _ (List.mem_flatMap.mpr ⟨start, h, ?_⟩)
  rw [subtree_eq]
  exact List.mem_cons_self ..

theorem row_children (hd : m.value.DistinctKeys) : m.Row m.children where
  inside _ := child_mem_subtree
  level := ⟨m.location.length + 1, fun _ => length_of_mem_children⟩
  ordered := pairwise_children hd

theorem row_singleton (m : Match) : m.Row [m] where
  inside start hstart := by
    rw [List.mem_singleton.mp hstart, subtree_eq]
    exact List.mem_cons_self ..
  level := ⟨m.location.length, fun start hstart => by rw [List.mem_singleton.mp hstart]⟩
  ordered := List.pairwise_singleton _ m

/-- **A subtree is listed in the order of the document.** -/
theorem pairwise_subtree (hd : m.value.DistinctKeys) : m.subtree.Pairwise m.Before := by
  induction m using children_induction with
  | step m ih =>
    rw [subtree_eq, List.pairwise_cons]
    constructor
    · intro a ha
      obtain ⟨child, hchild, ha⟩ := List.mem_flatMap.mp ha
      obtain ⟨x, hx⟩ := location_of_mem_children hchild
      obtain ⟨l, hl⟩ := location_of_mem_subtree ha
      refine ⟨[], x :: l, (List.append_nil _).symm, ?_, .within ..⟩
      rw [← hl, hx, List.append_assoc]
      rfl
    · refine (row_children hd).pairwise_flatMap hd (fun child hchild => ?_)
        fun child _ a ha => location_of_mem_subtree ha
      exact ih child hchild (distinctKeys_closed m hd child hchild)

/-! ## What selectors find -/

/-- What is found below a match: some of its children, in their order. -/
def PicksInOrder (m : Match) (found : List Match) : Prop :=
  found.Pairwise m.Before ∧ ∀ a ∈ found, a ∈ m.children

theorem PicksInOrder.of_sublist (hd : m.value.DistinctKeys) (h : found.Sublist m.children) :
    m.PicksInOrder found :=
  ⟨(pairwise_children hd).sublist h, fun _ ha => h.subset ha⟩

theorem PicksInOrder.of_option {found : Option Match}
    (h : ∀ child, found = some child → child ∈ m.children) : m.PicksInOrder found.toList := by
  cases found with
  | none => exact ⟨List.Pairwise.nil, by simp⟩
  | some child => exact ⟨List.pairwise_singleton _ _, by simpa using h child rfl⟩

/-- The children of a match in a row are a row on the next level. -/
theorem Row.gather {ε : Type} {search : Match → Except ε (List Match)} (h : m.Row starts)
    (hd : m.value.DistinctKeys) (hfound : gather search starts = .ok found)
    (hparts : ∀ start ∈ starts, start.value.DistinctKeys →
      ∀ part, search start = .ok part → start.PicksInOrder part) : m.Row found := by
  obtain ⟨f, hf, rfl⟩ := exists_flatMap_of_gather hfound
  have hstart : ∀ start ∈ starts, start.value.DistinctKeys := by
    intro start hmem
    obtain ⟨l, v, hv, rfl⟩ := (mem_subtree_iff hd).mp (h.inside start hmem)
    exact hd.of_valueAt? hv
  have hpicks : ∀ start ∈ starts, start.PicksInOrder (f start) := fun start hmem =>
    hparts start hmem (hstart start hmem) _ (hf start hmem)
  constructor
  · intro a ha
    obtain ⟨start, hmem, ha⟩ := List.mem_flatMap.mp ha
    have hchild := (hpicks start hmem).2 a ha
    obtain ⟨l, v, hv, rfl⟩ := (mem_subtree_iff hd).mp (h.inside start hmem)
    obtain ⟨x, w, hw, rfl⟩ := (mem_children_iff (hd.of_valueAt? hv)).mp hchild
    refine (mem_subtree_iff hd).mpr ⟨l ++ [x], w, ?_, ?_⟩
    · rw [Json.valueAt?_append, hv, Option.bind_some]
      simp [Json.valueAt?, hw]
    · simp [below]
  · obtain ⟨level, hlevel⟩ := h.level
    refine ⟨level + 1, fun a ha => ?_⟩
    obtain ⟨start, hmem, ha⟩ := List.mem_flatMap.mp ha
    rw [length_of_mem_children ((hpicks start hmem).2 a ha), hlevel start hmem]
  · refine h.pairwise_flatMap hd (fun start hmem => (hpicks start hmem).1) fun start hmem a ha => ?_
    obtain ⟨x, hx⟩ := location_of_mem_children ((hpicks start hmem).2 a ha)
    exact hx ▸ List.prefix_append _ _

/-- Subtrees of the matches of a row follow one another. -/
theorem Row.pairwise_gather {ε : Type} {search : Match → Except ε (List Match)} (h : m.Row starts)
    (hd : m.value.DistinctKeys) (hfound : PathQuery.gather search starts = .ok found)
    (hparts : ∀ start ∈ starts, ∀ part, search start = .ok part → part.Sublist start.subtree) :
    found.Pairwise m.Before := by
  obtain ⟨f, hf, rfl⟩ := exists_flatMap_of_gather hfound
  have hsublist : ∀ start ∈ starts, (f start).Sublist start.subtree := fun start hmem =>
    hparts start hmem _ (hf start hmem)
  refine h.pairwise_flatMap hd (fun start hmem => ?_) fun start hmem a ha => ?_
  · obtain ⟨l, v, hv, rfl⟩ := (mem_subtree_iff hd).mp (h.inside start hmem)
    exact (pairwise_subtree (hd.of_valueAt? hv)).sublist (hsublist _ hmem)
  · exact location_of_mem_subtree ((hsublist start hmem).subset ha)

end Match

/-- The selector takes children in their order: it is no slice that goes backwards. -/
def Selector.IsForward : Selector → Prop
  | .slice bounds => 0 ≤ bounds.stride.toInt
  | _ => True

/-- The segment has one alternative, and that takes children in their order. -/
def Segment.IsForward (s : Segment) : Prop :=
  ∃ selector, s.selectors = [selector] ∧ selector.IsForward

section
variable {limit : Nat} {root : Json} {names : Names} {segmented : Bool} {m : Match}
  {starts found : List Match}

open Match

theorem Match.picksInOrder_select (hd : m.value.DistinctKeys) {s : Selector} (hs : s.IsForward) :
    m.PicksInOrder (m.select s) := by
  cases s with
  | wildcard => exact .of_sublist hd (List.Sublist.refl _)
  | name key => exact .of_option fun _ => mem_children_of_childByKey?
  | index position =>
    simp only [select]
    cases m.value.length? with
    | none => exact .of_sublist hd (List.nil_sublist _)
    | some length =>
      refine .of_option fun child hchild => ?_
      obtain ⟨i, -, hi⟩ := Option.bind_eq_some_iff.mp hchild
      exact mem_children_of_childAt? hi
  | slice bounds =>
    refine ⟨?_, fun _ => mem_children_of_select⟩
    simp only [select]
    cases m.value.length? with
    | none => exact List.Pairwise.nil
    | some length =>
      rw [List.pairwise_filterMap]
      refine (Slice.pairwise_places bounds length).imp fun {i j} hleads a ha b hb => ?_
      obtain ⟨v, -, rfl⟩ := Option.map_eq_some_iff.mp ha
      obtain ⟨w, -, rfl⟩ := Option.map_eq_some_iff.mp hb
      have hforward : 0 ≤ bounds.stride.toInt := hs
      have hij : i < j := by
        unfold Slice.Leads at hleads
        omega
      exact before_of_earlier hij
  | filter condition => exact .of_sublist hd (List.nil_sublist _)

theorem Selector.picksInOrder_of_find {s : Selector} (hs : s.IsForward)
    (hd : m.value.DistinctKeys) (h : find limit root s m = .ok found) : m.PicksInOrder found := by
  cases s with
  | filter condition => exact .of_sublist hd (sublist_of_filter h)
  | _ =>
    simp only [find, Except.ok.injEq] at h
    exact h ▸ picksInOrder_select hd hs

theorem Segment.row_through {segments : List Segment} (hs : ∀ s ∈ segments, s.IsForward)
    (hd : m.value.DistinctKeys) (hstarts : m.Row starts)
    (h : through limit root segments starts = .ok found) : m.Row found := by
  induction segments generalizing starts with
  | nil =>
    rw [through_nil, Except.ok.injEq] at h
    exact h ▸ hstarts
  | cons s rest ih =>
    rw [List.forall_mem_cons] at hs
    obtain ⟨selectors⟩ := s
    obtain ⟨⟨selector, rfl, hselector⟩, hrest⟩ := hs
    simp only [through, bind_eq_ok] at h
    obtain ⟨reached, hreached, h⟩ := h
    refine ih hrest (hstarts.gather hd hreached fun start _ hkeys part hpart => ?_) h
    simp only [Selector.union, bind_eq_ok] at hpart
    obtain ⟨first, hfirst, others, hothers, hpart⟩ := hpart
    rw [← Except.ok.inj hpart, ← Except.ok.inj hothers, List.append_nil]
    exact Selector.picksInOrder_of_find hselector hkeys hfirst

/-! ## Steps -/

theorem Head.row_go {head : Head} (hhead : head.isPlain = true) (hd : m.value.DistinctKeys)
    (hstarts : m.Row starts) (h : head.go limit names segmented starts = .ok found) :
    m.Row found := by
  match head with
  | .here => exact Except.ok.inj h ▸ hstarts
  | .child .any =>
    have hgather : gather (fun m => (.ok m.children : Except EvalError _)) starts = .ok found :=
      (gather_eq_flatMap fun _ _ => rfl).trans h
    refine hstarts.gather hd hgather fun start _ hkeys part hpart => ?_
    rw [← Except.ok.inj hpart]
    exact .of_sublist hkeys (List.Sublist.refl _)
  | .child (.name key) =>
    refine hstarts.gather hd h fun start _ hkeys part hpart => ?_
    unfold named at hpart
    split at hpart
    · rw [← Except.ok.inj hpart]
      exact .of_option fun _ => mem_children_of_childByKey?
    · rw [← Except.ok.inj hpart]
      exact .of_sublist hkeys (List.nil_sublist _)
    · cases hpart
  | .descend key => cases hhead

theorem Head.pairwise_descend {key : Option KeyTest} (hd : m.value.DistinctKeys)
    (hstarts : m.Row starts)
    (h : Head.go limit names segmented (.descend key) starts = .ok found) :
    found.Pairwise m.Before := by
  match key with
  | none =>
    exact hstarts.pairwise_gather hd h fun start _ part hpart => sublist_of_descendants hpart
  | some key =>
    rw [go_descend_some] at h
    refine hstarts.pairwise_gather hd h fun start _ part hpart => ?_
    obtain ⟨all, hall, rfl⟩ := map_eq_ok.mp hpart
    exact List.filter_sublist.trans (sublist_of_descendants hall)

/-- **Steps keep matches in a row, up to a deep scan at the end.** -/
theorem Step.pairwise_through {steps : List Step}
    (hplain : ∀ s ∈ steps.dropLast, s.head.isPlain = true)
    (hlast : ∀ s, steps.getLast? = some s → s.head.isPlain = true ∨ s.segments = [])
    (hs : ∀ step ∈ steps, ∀ s ∈ step.segments, s.IsForward) (hd : m.value.DistinctKeys)
    (hstarts : m.Row starts) (h : through limit root names steps starts = .ok found) :
    found.Pairwise m.Before := by
  induction steps generalizing starts with
  | nil =>
    rw [through_nil, Except.ok.injEq] at h
    exact h ▸ hstarts.ordered
  | cons s rest ih =>
    rw [List.forall_mem_cons] at hs
    obtain ⟨head, segments⟩ := s
    simp only [through, bind_eq_ok] at h
    obtain ⟨reached, hreached, passed, hpassed, h⟩ := h
    by_cases hhead : head.isPlain = true
    · have hrow := Segment.row_through hs.1 hd (Head.row_go hhead hd hstarts hreached) hpassed
      cases rest with
      | nil => exact ih (by simp) (by simp) hs.2 hrow h
      | cons s' rest =>
        rw [List.dropLast_cons_cons, List.forall_mem_cons] at hplain
        exact ih hplain.2 hlast hs.2 hrow h
    · -- a deep scan is the last step, and has no segments
      obtain rfl : rest = [] := by
        by_contra hrest
        obtain ⟨s', rest, rfl⟩ := List.exists_cons_of_ne_nil hrest
        exact hhead (hplain _ (List.mem_cons_self ..))
      obtain rfl : segments = [] := (hlast _ rfl).resolve_left hhead
      obtain ⟨key, rfl⟩ : ∃ key, head = .descend key := by
        cases head with
        | descend key => exact ⟨key, rfl⟩
        | _ => exact absurd rfl hhead
      rw [Segment.through_nil] at hpassed
      rw [through_nil] at h
      rw [← Except.ok.inj h, ← Except.ok.inj hpassed]
      exact Head.pairwise_descend hd hstarts hreached

end

namespace Path

/-- The path has no unions and no slices that go backwards, and of its steps only the last one
may be a deep scan, without segments. -/
structure IsForward (p : Path) : Prop where
  segments : ∀ s ∈ p.segments, s.IsForward
  steps : ∀ step ∈ p.steps, ∀ s ∈ step.segments, s.IsForward
  plain : ∀ step ∈ p.steps.dropLast, step.head.isPlain = true
  last : ∀ step, p.steps.getLast? = some step → step.head.isPlain = true ∨ step.segments = []

/-- **Matches come in document order.**  A path without unions and backward slices, whose only
deep scan is a last step without segments, lists its matches in the order of the document,
whatever its filters are: each one after those that contain it, and after those on earlier
branches. -/
theorem query_in_order (options : Options) {p : Path} (hp : p.IsForward) {doc : Json}
    (hd : doc.DistinctKeys) {found : List Match} (hq : p.query options doc = .ok found) :
    IsStrictOrder Location doc.Precedes ∧
      (found.map Match.location).Pairwise doc.Precedes := by
  refine ⟨doc.isStrictOrder_precedes, ?_⟩
  obtain ⟨origin, segments, steps, source⟩ := p
  rw [query_mk, bind_eq_ok] at hq
  obtain ⟨passed, hpassed, hq⟩ := hq
  have hrow : (Match.mk [] doc).Row passed :=
    Segment.row_through hp.segments hd (Match.row_singleton _) hpassed
  have hordered := Step.pairwise_through hp.plain hp.last hp.steps hd hrow hq
  rw [List.pairwise_map]
  refine hordered.imp fun {a b} hbefore => ?_
  obtain ⟨l, l', hl, hl', hprecedes⟩ := hbefore
  rw [hl, hl']
  exact hprecedes

/-- Every other array below two keys that do not stand in the order of their texts, the elements
of these that have a third key, and all that lies below them. -/
theorem query_in_order_branches :
    let named : Path := .mk .current [] [.mk (.child (.name "x")) []] "@.x"
    let p : Path := .mk .root []
      [.mk (.child .any)
          [.mk [.slice ⟨none, none, some 2⟩], .mk [.filter (.existence named false)]],
        .mk (.descend none) []] "$.*[::2][?@.x].."
    let doc : Json := .object
      [("b", .array [.array [.object [("y", .null), ("x", .null)]], .null,
        .array [.object [("y", .null)], .object [("x", .array [.null])]]]),
      ("a", .array [.object [("k", .object [("x", .null)])]])]
    p.IsForward ∧ doc.DistinctKeys ∧ ∃ found, p.query {} doc = .ok found ∧
      found.map Match.location =
        [[.key "b", .index 0, .index 0, .key "y"], [.key "b", .index 0, .index 0, .key "x"],
          [.key "b", .index 2, .index 1, .key "x"],
          [.key "b", .index 2, .index 1, .key "x", .index 0],
          [.key "a", .index 0, .key "k", .key "x"]] ∧
      IsStrictOrder Location doc.Precedes ∧
      (found.map Match.location).Pairwise doc.Precedes := by
  intro named p doc
  have hp : p.IsForward := by
    refine ⟨by simp [p, Path.segments], ?_, by decide, ?_⟩
    · intro step hstep s hs
      rcases List.mem_cons.mp hstep with rfl | hstep
      · rcases List.mem_cons.mp hs with rfl | hs
        · have hstride : 0 ≤ (⟨none, none, some 2⟩ : Slice).stride.toInt := by decide
          exact ⟨_, rfl, hstride⟩
        · obtain rfl := List.mem_singleton.mp hs
          exact ⟨_, rfl, trivial⟩
      · obtain rfl := List.mem_singleton.mp hstep
        simp [Step.segments] at hs
    · intro step hstep
      obtain rfl := Option.some.inj hstep
      exact Or.inr rfl
  have hd : doc.DistinctKeys := by
    simp [doc, Json.DistinctKeys, Json.ItemsDistinctKeys, Json.MembersDistinctKeys]
  have heval : ((p.query {} doc).toOption.any fun found => found.map Match.location =
      [[.key "b", .index 0, .index 0, .key "y"], [.key "b", .index 0, .index 0, .key "x"],
        [.key "b", .index 2, .index 1, .key "x"],
        [.key "b", .index 2, .index 1, .key "x", .index 0],
        [.key "a", .index 0, .key "k", .key "x"]]) = true := by decide +kernel
  obtain ⟨found, hq, hfound⟩ := exists_of_any heval
  exact ⟨hp, hd, found, hq, of_decide_eq_true hfound, query_in_order {} hp hd hq⟩

end Path
end PathQuery
