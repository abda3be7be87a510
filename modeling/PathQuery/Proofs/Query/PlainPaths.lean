import PathQuery.Proofs.Query.Composition
import PathQuery.Proofs.Query.Correspondence
import PathQuery.Proofs.Query.Locations

/-! # Plain paths

A plain path has no deep scans and no filters.  Each of its steps and segments goes down one
level, or stays, so all its matches lie at one depth (`Path.length_of_query`).  Of the values
above that depth it sees no more than which children they have, so in another document, in
which these correspond, it matches what corresponds, or fails in the same way
(`Path.query_graded`).
-/

namespace PathQuery

open List (Forall₂)

/-! ## The depth of a plain path -/

/-- The selector is no filter. -/
def Selector.isPlain : Selector → Bool
  | .filter _ => false
  | _ => true

/-- No alternative of any segment is a filter. -/
def Segment.allPlain (segments : List Segment) : Bool :=
  segments.all fun s => s.selectors.all Selector.isPlain

/-- The step is no deep scan before its segments. -/
def Head.isPlain : Head → Bool
  | .descend _ => false
  | _ => true

/-- The step has neither a deep scan nor a filter. -/
def Step.isPlain (s : Step) : Bool :=
  s.head.isPlain && Segment.allPlain s.segments

/-- The path has neither a deep scan nor a filter. -/
def Path.isPlain (p : Path) : Bool :=
  Segment.allPlain p.segments && p.steps.all Step.isPlain

/-- How many levels a plain step goes down before its segments. -/
def Head.depth : Head → Nat
  | .child _ => 1
  | .here | .descend _ => 0

/-- How many levels a plain step goes down. -/
def Step.depth (s : Step) : Nat :=
  s.head.depth + s.segments.length

/-- How many levels plain steps go down one after the other. -/
def Step.listDepth : List Step → Nat
  | [] => 0
  | s :: rest => s.depth + Step.listDepth rest

/-- How many levels a plain path goes down from the root. -/
def Path.depth (p : Path) : Nat :=
  p.segments.length + Step.listDepth p.steps

theorem Segment.allPlain_append {first second : List Segment} :
    allPlain (first ++ second) = (allPlain first && allPlain second) :=
  List.all_append

/-! ## Levels that correspond -/

/-- Matches that are related with some levels still to go have the same location, and
children that are related with one level less to go. -/
def Match.Graded (R : Nat → Match → Match → Prop) : Prop :=
  ∀ k m m', R (k + 1) m m' → m.location = m'.location ∧ m.Corresponds (R k) m'

/-- The searches end in matches that are related, or in the same error. -/
abbrev AgreeAt (R : Nat → Match → Match → Prop) (k : Nat)
    (x y : Except EvalError (List Match)) : Prop :=
  Agree (fun _ => False) (Forall₂ (R k)) x y

section
variable {R : Nat → Match → Match → Prop} (hR : Match.Graded R) {k : Nat}
  {limit : Nat} {root root' : Json} {starts starts' : List Match}

include hR

theorem Head.go_graded {names : Names} {segmented : Bool} {head : Head}
    (hhead : head.isPlain = true) (h : Forall₂ (R (head.depth + k)) starts starts') :
    AgreeAt R k (head.go limit names segmented starts)
      (head.go limit names segmented starts') := by
  match head with
  | .here =>
    rw [Head.depth, Nat.zero_add] at h
    exact .ok h
  | .child .any =>
    rw [Head.depth, Nat.add_comm] at h
    exact .ok (List.rel_flatMap h fun m m' hm => (hR k m m' hm).2.children)
  | .child (.name key) =>
    rw [Head.depth, Nat.add_comm] at h
    exact Agree.gather (h.imp fun m m' hm =>
      (hR k m m' hm).2.named (.inl (hR k m m' hm).1) names key)
  | .descend key => simp [Head.isPlain] at hhead

theorem Selector.find_graded {s : Selector} (hs : s.isPlain = true) {m m' : Match}
    (h : R (k + 1) m m') :
    AgreeAt R k (Selector.find limit root s m) (Selector.find limit root' s m') := by
  cases s with
  | filter condition => simp [Selector.isPlain] at hs
  | _ =>
    simp only [Selector.find]
    exact .ok ((hR k m m' h).2.select _)

theorem Selector.union_graded {selectors : List Selector}
    (hs : selectors.all Selector.isPlain = true) {m m' : Match} (h : R (k + 1) m m') :
    AgreeAt R k (Selector.union limit root selectors m)
      (Selector.union limit root' selectors m') := by
  induction selectors with
  | nil =>
    simp only [Selector.union]
    exact .ok .nil
  | cons s rest ih =>
    rw [List.all_cons, Bool.and_eq_true] at hs
    simp only [Selector.union]
    refine (Selector.find_graded hR hs.1 h).bind fun first first' hfirst => ?_
    exact (ih hs.2).bind fun others others' hothers => .ok (List.rel_append hfirst hothers)

theorem Segment.through_graded {segments : List Segment}
    (hs : Segment.allPlain segments = true)
    (h : Forall₂ (R (segments.length + k)) starts starts') :
    AgreeAt R k (Segment.through limit root segments starts)
      (Segment.through limit root' segments starts') := by
  induction segments generalizing starts starts' with
  | nil =>
    rw [List.length_nil, Nat.zero_add] at h
    rw [Segment.through_nil, Segment.through_nil]
    exact .ok h
  | cons s rest ih =>
    obtain ⟨selectors⟩ := s
    rw [Segment.allPlain, List.all_cons, Bool.and_eq_true] at hs
    rw [List.length_cons, Nat.add_right_comm] at h
    simp only [Segment.through]
    refine (Agree.gather (h.imp fun m m' hm => Selector.union_graded hR hs.1 hm)).bind ?_
    exact fun found found' hfound => ih hs.2 hfound

theorem Step.through_graded {names : Names} {steps : List Step}
    (hs : steps.all Step.isPlain = true)
    (h : Forall₂ (R (Step.listDepth steps + k)) starts starts') :
    AgreeAt R k (Step.through limit root names steps starts)
      (Step.through limit root' names steps starts') := by
  induction steps generalizing starts starts' with
  | nil =>
    rw [Step.listDepth, Nat.zero_add] at h
    rw [Step.through_nil, Step.through_nil]
    exact .ok h
  | cons s rest ih =>
    obtain ⟨head, segments⟩ := s
    rw [List.all_cons, Step.isPlain, Bool.and_eq_true, Bool.and_eq_true] at hs
    rw [Step.listDepth, Step.depth, Nat.add_assoc, Nat.add_assoc] at h
    simp only [Step.through]
    refine (Head.go_graded hR hs.1.1 h).bind fun reached reached' hreached => ?_
    exact (Segment.through_graded hR hs.1.2 hreached).bind fun found found' hfound =>
      ih hs.2 hfound

/-- **A plain path matches what corresponds**, or fails in the same way. -/
theorem Path.query_graded {p : Path} (hp : p.isPlain = true) (options : Options)
    {doc doc' : Json} (h : R p.depth ⟨[], doc⟩ ⟨[], doc'⟩) :
    AgreeAt R 0 (p.query options doc) (p.query options doc') := by
  obtain ⟨origin, segments, steps, source⟩ := p
  rw [Path.isPlain, Bool.and_eq_true] at hp
  rw [Path.query_mk, Path.query_mk]
  refine (Segment.through_graded hR hp.1 (.cons h .nil)).bind fun found found' hfound => ?_
  exact Step.through_graded hR hp.2 hfound

end

/-- All matches of a plain path lie at its depth. -/
theorem Path.length_of_query {options : Options} {p : Path} (hp : p.isPlain = true) {doc : Json}
    {found : List Match} (hq : p.query options doc = .ok found) :
    ∀ m ∈ found, m.location.length = p.depth := by
  let R : Nat → Match → Match → Prop := fun k m m' => m.location.length + k = p.depth ∧ m = m'
  have hR : Match.Graded R := by
    rintro k m _ ⟨hlength, rfl⟩
    refine ⟨rfl, .same fun c hc => ⟨?_, rfl⟩⟩
    have hc' := Match.length_of_mem_children hc
    omega
  have hroot : R p.depth ⟨[], doc⟩ ⟨[], doc⟩ := ⟨Nat.zero_add _, rfl⟩
  have hagree := Path.query_graded hR hp options hroot
  rw [hq] at hagree
  obtain ⟨found', -, hfound⟩ := hagree.exists_of_ok
  exact ((List.forall₂_and_left _ _).mp hfound).1

end PathQuery
