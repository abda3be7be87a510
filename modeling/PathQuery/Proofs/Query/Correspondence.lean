import PathQuery.Proofs.Agreement
import PathQuery.Proofs.Query.Provenance

/-! # Matches that correspond

All that a selector other than a filter looks at in a value is which children it has: whether
it is an object or an array, how long it is, and what is behind a key or an index.  Matches
correspond if these are related; then so is what a selector or a bare name finds in them
(`Match.Corresponds.select`, `Match.Corresponds.named`).
-/

namespace PathQuery

open List (Forall₂)

theorem forall₂_toList {α β : Type} {R : α → β → Prop} {o : Option α} {o' : Option β}
    (h : Option.Rel R o o') : Forall₂ R o.toList o'.toList := by
  cases h with
  | none => exact .nil
  | some h => exact .cons h .nil

theorem rel_and_left {α β : Type} {R : α → β → Prop} {P : α → Prop} {o : Option α}
    {o' : Option β} (h : Option.Rel R o o') (hP : ∀ a, o = some a → P a) :
    Option.Rel (fun a b => P a ∧ R a b) o o' := by
  cases h with
  | none => exact .none
  | some h => exact .some ⟨hP _ rfl, h⟩

theorem map_eq_of_forall₂ {α β γ : Type} {R : α → β → Prop} {f : α → γ} {g : β → γ}
    {as : List α} {bs : List β} (h : Forall₂ R as bs)
    (hfg : ∀ a ∈ as, ∀ b, R a b → g b = f a) : bs.map g = as.map f := by
  induction h with
  | nil => rfl
  | cons hab _ ih =>
    rw [List.forall_mem_cons] at hfg
    rw [List.map_cons, List.map_cons, hfg.1 _ hab, ih hfg.2]

theorem forall₂_getElem? {α β : Type} {R : α → β → Prop} {as : List α} {bs : List β}
    (h : Forall₂ R as bs) (i : Nat) : Option.Rel R as[i]? bs[i]? := by
  induction h generalizing i with
  | nil => exact .none
  | cons hab _ ih =>
    cases i with
    | zero => exact .some hab
    | succ i => exact ih i

namespace Match

/-- Two matches have values of one kind and one length, whose children are related. -/
structure Corresponds (R : Match → Match → Prop) (m m' : Match) : Prop where
  kind : m.value.kind = m'.value.kind
  length? : m.value.length? = m'.value.length?
  children : Forall₂ R m.children m'.children
  childByKey? (key : String) : Option.Rel R (m.childByKey? key) (m'.childByKey? key)
  childAt? (i : Nat) : Option.Rel R (m.childAt? i) (m'.childAt? i)

variable {R : Match → Match → Prop} {m m' : Match}

/-- The selectors other than filters find what corresponds. -/
theorem Corresponds.select (h : m.Corresponds R m') (s : Selector) :
    Forall₂ R (m.select s) (m'.select s) := by
  cases s with
  | wildcard => exact h.children
  | name key => exact forall₂_toList (h.childByKey? key)
  | index position =>
    unfold Match.select
    rw [← h.length?]
    cases m.value.length? with
    | none => exact .nil
    | some length =>
      refine forall₂_toList ?_
      cases placeOf position length with
      | none => exact .none
      | some i => exact h.childAt? i
  | slice bounds =>
    unfold Match.select
    rw [← h.length?]
    cases m.value.length? with
    | none => exact .nil
    | some length =>
      refine List.rel_filterMap (R := Eq) ?_ (List.forall₂_refl _)
      rintro i _ rfl
      exact h.childAt? i
  | filter condition => exact .nil

/-- So does a bare name, if it has the same location to report or need not report the same. -/
theorem Corresponds.named {Excused : EvalError → Prop} (h : m.Corresponds R m')
    (hlocation : m.location = m'.location ∨ ∀ e, Excused e) (names : Names) (key : String) :
    Agree Excused (Forall₂ R) (m.named names key) (m'.named names key) := by
  unfold Match.named
  rw [← h.kind]
  cases m.value.kind with
  | object => exact .ok (forall₂_toList (h.childByKey? key))
  | _ =>
    cases names with
    | lenient => exact .ok .nil
    | strict =>
      rcases hlocation with hlocation | hall
      · exact hlocation ▸ .error _
      · exact .excused (hall _) _

/-- What is known of the children of one match besides. -/
theorem Corresponds.and_left (h : m.Corresponds R m') {P : Match → Prop}
    (hP : ∀ c ∈ m.children, P c) : m.Corresponds (fun c c' => P c ∧ R c c') m' where
  kind := h.kind
  length? := h.length?
  children := (List.forall₂_and_left _ _).mpr ⟨hP, h.children⟩
  childByKey? key := rel_and_left (h.childByKey? key) fun _ hc =>
    hP _ (mem_children_of_childByKey? hc)
  childAt? i := rel_and_left (h.childAt? i) fun _ hc => hP _ (mem_children_of_childAt? hc)

/-- A match corresponds to itself, if its children do. -/
theorem Corresponds.same (h : ∀ c ∈ m.children, R c c) : m.Corresponds R m where
  kind := rfl
  length? := rfl
  children := List.forall₂_same.mpr h
  childByKey? key := by
    cases hc : m.childByKey? key with
    | none => exact .none
    | some c => exact .some (h c (mem_children_of_childByKey? hc))
  childAt? i := by
    cases hc : m.childAt? i with
    | none => exact .none
    | some c => exact .some (h c (mem_children_of_childAt? hc))

/-- Arrays correspond if their elements are related one by one. -/
theorem Corresponds.array {l l' : Location} {items items' : List Json}
    (h : Forall₂ R (Match.children ⟨l, .array items⟩) (Match.children ⟨l', .array items'⟩)) :
    Corresponds R ⟨l, .array items⟩ ⟨l', .array items'⟩ where
  kind := rfl
  length? := by
    have hlength := h.length_eq
    simp only [Match.children, List.length_mapIdx] at hlength
    exact congrArg some hlength
  children := h
  childByKey? _ := .none
  childAt? i := by
    have hi := forall₂_getElem? h i
    simp only [Match.children, List.getElem?_mapIdx] at hi
    exact hi

/-- Objects correspond if they have the same keys and their values are related one by one. -/
theorem Corresponds.object {l l' : Location} {members members' : List (String × Json)}
    (h : Forall₂ (fun p p' => p.1 = p'.1 ∧
      R ⟨l ++ [.key p.1], p.2⟩ ⟨l' ++ [.key p'.1], p'.2⟩) members members') :
    Corresponds R ⟨l, .object members⟩ ⟨l', .object members'⟩ where
  kind := rfl
  length? := rfl
  children := by
    simp only [Match.children, List.forall₂_map_left_iff, List.forall₂_map_right_iff]
    exact h.imp fun p p' hp => hp.2
  childByKey? key := by
    unfold Match.childByKey? Json.getKey?
    induction h with
    | nil => exact .none
    | @cons p p' rest rest' hp _ ih =>
      simp only [Json.lookup, ← hp.1]
      split
      · rename_i hkey
        exact .some (by rw [← hkey]; exact hp.1 ▸ hp.2)
      · exact ih
  childAt? _ := .none

end Match
end PathQuery
