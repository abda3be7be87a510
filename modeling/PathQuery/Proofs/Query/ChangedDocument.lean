import PathQuery.Proofs.Document.Rebuild
import PathQuery.Proofs.Query.PlainPaths

/-! # Plain paths in a changed document

A change that touches nothing above the depth of a plain path, and that leaves out nothing at
that depth, cannot be seen by the path: in the changed document it matches the same locations,
and finds there what has become of the values (`Path.query_rebuild`).  What becomes of them
may be anything, also a value of another kind.
-/

namespace PathQuery

open List (Forall₂)

/-- The second match is what a change makes of the first. -/
def Match.Becomes (change : Json.Change) (m m' : Match) : Prop :=
  m.location = m'.location ∧ Json.rebuild (change.under m.location) m.value = some m'.value

namespace Json

variable {change : Change}

theorem Change.under_concat (change : Change) (l : Location) (a : Accessor) :
    change.under (l ++ [a]) = (change.under l).below a := by
  funext l'
  show change (l ++ [a] ++ l') = change (l ++ a :: l')
  rw [List.append_assoc, List.singleton_append]

/-- If no element is left out, each stays in its place. -/
theorem rebuildItems_forall₂ {i : Nat} {items : List Json}
    (h : ∀ p ∈ items.zipIdx i, (rebuild (change.below (.index p.2)) p.1).isSome) :
    Forall₂ (fun p p' => p.2 = p'.2 ∧ rebuild (change.below (.index p.2)) p.1 = some p'.1)
      (items.zipIdx i) ((rebuildItems change i items).zipIdx i) := by
  induction items generalizing i with
  | nil => exact .nil
  | cons v rest ih =>
    rw [List.zipIdx_cons, List.forall_mem_cons] at h
    obtain ⟨w, hw⟩ := Option.isSome_iff_exists.mp h.1
    rw [rebuildItems, hw, Option.toList_some, List.singleton_append, List.zipIdx_cons,
      List.zipIdx_cons]
    exact .cons ⟨rfl, hw⟩ (ih h.2)

/-- If no member is left out, each stays in its place. -/
theorem rebuildMembers_forall₂ {members : List (String × Json)}
    (h : ∀ p ∈ members, (rebuild (change.below (.key p.1)) p.2).isSome) :
    Forall₂ (fun p p' => p.1 = p'.1 ∧ rebuild (change.below (.key p.1)) p.2 = some p'.2)
      members (rebuildMembers change members) := by
  induction members with
  | nil => exact .nil
  | cons p rest ih =>
    rw [List.forall_mem_cons] at h
    obtain ⟨w, hw⟩ := Option.isSome_iff_exists.mp h.1
    rw [rebuildMembers, hw, Option.map_some, Option.toList_some, List.singleton_append]
    exact .cons ⟨rfl, hw⟩ (ih h.2)

end Json

namespace Match

variable {change : Json.Change} {m m' : Match}

theorem Becomes.corresponds_array {l : Location} {items : List Json}
    (h : ∀ c ∈ children ⟨l, .array items⟩,
      (Json.rebuild (change.under c.location) c.value).isSome) :
    Corresponds (Becomes change) ⟨l, .array items⟩
      ⟨l, .array (Json.rebuildItems (change.under l) 0 items)⟩ := by
  refine .array ?_
  simp only [children, List.mapIdx_eq_zipIdx_map, List.forall₂_map_left_iff,
    List.forall₂_map_right_iff, List.forall_mem_map] at h ⊢
  refine (Json.rebuildItems_forall₂ fun p hp => ?_).imp fun p p' hp => ?_
  · rw [← Json.Change.under_concat]
    exact h p hp
  · refine ⟨by rw [below, below, hp.1], ?_⟩
    rw [below, Json.Change.under_concat]
    exact hp.2

theorem Becomes.corresponds_object {l : Location} {members : List (String × Json)}
    (h : ∀ c ∈ children ⟨l, .object members⟩,
      (Json.rebuild (change.under c.location) c.value).isSome) :
    Corresponds (Becomes change) ⟨l, .object members⟩
      ⟨l, .object (Json.rebuildMembers (change.under l) members)⟩ := by
  refine .object ?_
  simp only [children, List.forall_mem_map] at h
  refine (Json.rebuildMembers_forall₂ fun p hp => ?_).imp fun p p' hp => ⟨hp.1, ?_⟩
  · rw [← Json.Change.under_concat]
    exact h p hp
  · refine ⟨by rw [hp.1], ?_⟩
    rw [Json.Change.under_concat]
    exact hp.2

/-- Where a change leaves a value and all its children in place, what it makes of the value
has for its children what it makes of them. -/
theorem Becomes.corresponds (h : m.Becomes change m') (hself : change m.location = some)
    (hchildren : ∀ c ∈ m.children, (Json.rebuild (change.under c.location) c.value).isSome) :
    m.Corresponds (Becomes change) m' := by
  obtain ⟨l, v⟩ := m
  obtain ⟨l', v'⟩ := m'
  obtain ⟨rfl, hv⟩ : l = l' ∧ Json.rebuild (change.under l) v = some v' := h
  have hkept : change.under l [] = some := (change.under_self l).trans hself
  cases v with
  | array items =>
    rw [Json.rebuild, hkept, Option.some.injEq] at hv
    exact hv ▸ corresponds_array hchildren
  | object members =>
    rw [Json.rebuild, hkept, Option.some.injEq] at hv
    exact hv ▸ corresponds_object hchildren
  | _ =>
    rw [Json.rebuild, hkept, Option.some.injEq] at hv
    · exact hv ▸ .same fun c hc => by simp [children] at hc
    all_goals simp

end Match

/-- Nothing above a depth is changed, and no value at that depth is left out. -/
structure Json.Change.KeepsDownTo (change : Json.Change) (n : Nat) (doc : Json) : Prop where
  above (l : Location) : l.length < n → change l = some
  survives (l : Location) (v : Json) : l.length = n → doc.valueAt? l = some v →
    (Json.rebuild (change.under l) v).isSome

theorem Json.Change.KeepsDownTo.isSome {change : Json.Change} {n : Nat} {doc : Json}
    (h : change.KeepsDownTo n doc) {m : Match} (hm : m.Located doc)
    (hlength : m.location.length ≤ n) :
    (Json.rebuild (change.under m.location) m.value).isSome := by
  rcases Nat.lt_or_eq_of_le hlength with hlt | heq
  · exact Json.rebuild_isSome ((change.under_self _).trans (h.above m.location hlt)) m.value
  · exact h.survives m.location m.value heq hm

/-- **A plain path sees nothing of a change at its depth or below.**  In the changed document
it matches what has become of its matches, at the same locations. -/
theorem Path.query_rebuild {options : Options} {p : Path} (hp : p.isPlain = true)
    {doc doc' : Json} (hd : doc.DistinctKeys) {change : Json.Change}
    (hchange : change.KeepsDownTo p.depth doc) (hdoc : Json.rebuild change doc = some doc')
    {found : List Match} (hq : p.query options doc = .ok found) :
    ∃ found', p.query options doc' = .ok found' ∧
      Forall₂ (Match.Becomes change) found found' := by
  let R : Nat → Match → Match → Prop := fun k m m' =>
    (m.Located doc ∧ m.location.length + k = p.depth) ∧ m.Becomes change m'
  have hR : Match.Graded R := by
    rintro k m m' ⟨⟨hm, hlength⟩, hbecomes⟩
    have hbelow : ∀ c ∈ m.children, c.Located doc ∧ c.location.length + k = p.depth := by
      intro c hc
      have hc' := Match.length_of_mem_children hc
      exact ⟨Match.located_closed hd m hm c hc, by omega⟩
    refine ⟨hbecomes.1, (hbecomes.corresponds (hchange.above _ (by omega)) ?_).and_left hbelow⟩
    exact fun c hc => hchange.isSome (hbelow c hc).1 (by have := (hbelow c hc).2; omega)
  have hroot : R p.depth ⟨[], doc⟩ ⟨[], doc'⟩ := ⟨⟨rfl, Nat.zero_add _⟩, rfl, hdoc⟩
  have hagree := Path.query_graded hR hp options hroot
  rw [hq] at hagree
  obtain ⟨found', hq', hfound⟩ := hagree.exists_of_ok
  exact ⟨found', hq', hfound.imp fun m m' hm => hm.2⟩

end PathQuery
