import PathQuery.Proofs.Path.Safety
import PathQuery.Proofs.Query.Correspondence

/-! # Two runs of the evaluator

The evaluator decides by the values that it meets.  Of locations it looks at the last step
only, and only of what a deep scan has visited; of the limit on depth it asks only whether a
deep scan exceeds it.  `TwoRuns` sets two runs of one path side by side that differ in this:
their limits, the roots of their documents, and the places of the matches that they start
from.  What they find is then the same up to places, and they fail in the same way, except
for errors that name what is different (`TwoRuns.path_agrees`, `TwoRuns.holds_agrees`).
-/

namespace PathQuery

open List (Forall₂)

/-- Two runs of the evaluator, in which some matches stand for one another. -/
structure TwoRuns where
  limit : Nat
  limit' : Nat
  root : Json
  root' : Json
  /-- The matches that stand for one another: values are the same, places may differ. -/
  Alike : Match → Match → Prop
  /-- The errors of the first run that the second need not repeat. -/
  Excused : EvalError → Prop
  value_eq {m m' : Match} : Alike m m' → m.value = m'.value
  below {m m' : Match} (a : Accessor) (v : Json) : Alike m m' → Alike (m.below a v) (m'.below a v)
  location_eq {m m' : Match} : Alike m m' → m.location = m'.location ∨ ∀ e, Excused e
  limit_eq : limit = limit' ∨ limit ≤ limit' ∧ ∀ l, Excused (.tooDeep limit l)

namespace TwoRuns

variable (t : TwoRuns) {m m' : Match} {starts starts' : List Match}

/-- The computations end in matches that stand for one another, or in the same error. -/
abbrev Agrees (x y : Except EvalError (List Match)) : Prop :=
  Agree t.Excused (Forall₂ t.Alike) x y

/-- The references start where the runs are alike: at the root only if that is. -/
def Allows (references : List Path) : Prop :=
  t.Alike ⟨[], t.root⟩ ⟨[], t.root'⟩ ∨ ∀ r ∈ references, r.origin = .current

theorem allows_append {a b : List Path} : t.Allows (a ++ b) ↔ t.Allows a ∧ t.Allows b := by
  unfold Allows
  rw [List.forall_mem_append]
  tauto

theorem allows_cons {p : Path} {rest : List Path} :
    t.Allows (p :: rest) ↔ t.Allows [p] ∧ t.Allows rest :=
  t.allows_append (a := [p])

/-! ## Children and descendants -/

/-- Children are found one step below, by the same step. -/
theorem children_alike (h : t.Alike m m') :
    Forall₂ (fun c c' => t.Alike c c' ∧ c.location.getLast? = c'.location.getLast?)
      m.children m'.children := by
  obtain ⟨l, v⟩ := m
  obtain ⟨l', v'⟩ := m'
  obtain rfl : v = v' := t.value_eq h
  cases v with
  | object members =>
    simp only [Match.children, List.forall₂_map_left_iff, List.forall₂_map_right_iff]
    exact List.forall₂_same.mpr fun p _ => ⟨t.below _ _ h, by simp [Match.below]⟩
  | array items =>
    simp only [Match.children, List.mapIdx_eq_zipIdx_map, List.forall₂_map_left_iff,
      List.forall₂_map_right_iff]
    exact List.forall₂_same.mpr fun p _ => ⟨t.below _ _ h, by simp [Match.below]⟩
  | _ => exact .nil

/-- Matches that stand for one another have children that do. -/
theorem corresponds (h : t.Alike m m') : m.Corresponds t.Alike m' where
  kind := by rw [t.value_eq h]
  length? := by rw [t.value_eq h]
  children := (t.children_alike h).imp fun _ _ hc => hc.1
  childByKey? key := by
    unfold Match.childByKey?
    rw [← t.value_eq h]
    cases m.value.getKey? key with
    | none => exact .none
    | some v => exact .some (t.below _ v h)
  childAt? i := by
    unfold Match.childAt?
    rw [← t.value_eq h]
    cases m.value.getIndex? i with
    | none => exact .none
    | some v => exact .some (t.below _ v h)

/-- The same deep scan has visited both: it started at both, or came to both by one step. -/
def SameVisit (p p' : DeepScan.Pending) : Prop :=
  t.Alike p.target p'.target ∧ p.depth = p'.depth ∧
    (0 < p.depth → p.target.location.getLast? = p'.target.location.getLast?)

theorem visit_agree {visited visited' stack stack' : List DeepScan.Pending}
    (hvisited : Forall₂ t.SameVisit visited visited')
    (hstack : Forall₂ t.SameVisit stack stack') :
    Agree t.Excused (Forall₂ t.SameVisit) (DeepScan.visit t.limit visited stack)
      (DeepScan.visit t.limit' visited' stack') := by
  fun_induction DeepScan.visit t.limit visited stack generalizing visited' stack' with
  | case1 visited =>
    rw [List.forall₂_nil_left_iff.mp hstack, DeepScan.visit]
    exact .ok (List.rel_reverse hvisited)
  | case2 visited p rest hdepth =>
    obtain ⟨p', rest', ⟨hp, hsame, -⟩, -, rfl⟩ := List.forall₂_cons_left_iff.mp hstack
    rcases t.limit_eq with hlimit | ⟨-, hexcused⟩
    · rcases t.location_eq hp with hlocation | hall
      · rw [DeepScan.visit, if_pos (by omega), hlimit, hlocation]
        exact .error _
      · exact .excused (hall _) _
    · exact .excused (hexcused _) _
  | case3 visited p rest hdepth ih =>
    obtain ⟨p', rest', hp, hrest, rfl⟩ := List.forall₂_cons_left_iff.mp hstack
    have hle : t.limit ≤ t.limit' := by
      rcases t.limit_eq with hlimit | ⟨hle, -⟩ <;> omega
    have hdepth' : ¬ t.limit' < p'.depth := by
      have := hp.2.1
      omega
    rw [DeepScan.visit, if_neg hdepth']
    refine ih (.cons hp hvisited) (List.rel_append ?_ hrest)
    rw [List.forall₂_map_left_iff, List.forall₂_map_right_iff]
    exact (t.children_alike hp.1).imp fun c c' hc => ⟨hc.1, congrArg (· + 1) hp.2.1, fun _ => hc.2⟩

/-- A test that comes out the same on both sides keeps the same of both. -/
theorem forall₂_filter {α β : Type} {R : α → β → Prop} {keep : α → Bool} {keep' : β → Bool}
    (hkeep : ∀ a b, R a b → keep' b = keep a) {as : List α} {bs : List β} (h : Forall₂ R as bs) :
    Forall₂ (fun a b => R a b ∧ keep a = true) (as.filter keep) (bs.filter keep') := by
  induction h with
  | nil => exact .nil
  | @cons a b as bs hab _ ih =>
    have hsame := hkeep a b hab
    by_cases hkept : keep a = true
    · rw [List.filter_cons_of_pos hkept, List.filter_cons_of_pos (hsame.trans hkept)]
      exact .cons ⟨hab, hkept⟩ ih
    · rwa [List.filter_cons_of_neg hkept, List.filter_cons_of_neg (hsame ▸ hkept)]

/-- Deep scans find the same, and what lies below their starts by the same last step. -/
theorem descendants_agree (h : t.Alike m m') (includeSelf : Bool) :
    Agree t.Excused (Forall₂ fun d d' => t.Alike d d' ∧
        (includeSelf = false → d.location.getLast? = d'.location.getLast?))
      (m.descendants t.limit includeSelf) (m'.descendants t.limit' includeSelf) := by
  have hstart : Forall₂ t.SameVisit [⟨m, 0⟩] [⟨m', 0⟩] :=
    .cons ⟨h, rfl, fun hpos => absurd hpos (Nat.lt_irrefl 0)⟩ .nil
  refine (t.visit_agree .nil hstart).map fun visited visited' hvisited => ?_
  rw [List.forall₂_map_left_iff, List.forall₂_map_right_iff]
  have hdepth : ∀ p p', t.SameVisit p p' →
      (includeSelf || decide (0 < p'.depth)) = (includeSelf || decide (0 < p.depth)) :=
    fun p p' hp => by rw [hp.2.1]
  refine (forall₂_filter hdepth hvisited).imp fun p p' hp => ⟨hp.1.1, fun hself => ?_⟩
  -- without the start, all that is kept has been reached by a step
  exact hp.1.2.2 (by simpa [hself] using hp.2)

theorem below_agree (h : t.Alike m m') (includeSelf : Bool) :
    t.Agrees (m.descendants t.limit includeSelf) (m'.descendants t.limit' includeSelf) :=
  (t.descendants_agree h includeSelf).imp fun _ _ hfound => hfound.imp fun _ _ hd => hd.1

/-! ## Steps -/

theorem go_agree (names : Names) (segmented : Bool) (head : Head)
    (h : Forall₂ t.Alike starts starts') :
    t.Agrees (head.go t.limit names segmented starts)
      (head.go t.limit' names segmented starts') := by
  match head with
  | .here => exact .ok h
  | .child .any =>
    exact .ok (List.rel_flatMap h fun _ _ hm => (t.corresponds hm).children)
  | .child (.name key) =>
    exact Agree.gather (h.imp fun _ _ hm =>
      (t.corresponds hm).named (t.location_eq hm) names key)
  | .descend (some (.name key)) =>
    refine Agree.gather (h.imp fun _ _ hm => (t.descendants_agree hm false).map ?_)
    intro found found' hfound
    have hlast : ∀ d d' : Match, t.Alike d d' ∧ (false = false →
        d.location.getLast? = d'.location.getLast?) → d'.endsWithKey key = d.endsWithKey key :=
      fun d d' hd => by rw [Match.endsWithKey, Match.endsWithKey, hd.2 rfl]
    exact (forall₂_filter hlast hfound).imp fun _ _ hd => hd.1.1
  | .descend (some .any) => exact Agree.gather (h.imp fun _ _ hm => t.below_agree hm false)
  | .descend none => exact Agree.gather (h.imp fun _ _ hm => t.below_agree hm segmented)

/-! ## Paths and expressions -/

theorem ofMatches_agree (source : String) (h : Forall₂ t.Alike starts starts') :
    Agree t.Excused Eq (Operand.ofMatches source starts) (Operand.ofMatches source starts') := by
  cases h with
  | nil => exact .refl _
  | cons hm hrest =>
    cases hrest with
    | nil =>
      simp only [Operand.ofMatches, t.value_eq hm]
      exact .refl _
    | cons _ _ => exact .refl _

theorem isEmpty_eq (h : Forall₂ t.Alike starts starts') : starts.isEmpty = starts'.isEmpty := by
  cases h <;> rfl

mutual

/-- **Paths lead to the same in both runs.** -/
theorem path_agrees {names : Names} {current current' : Match} (h : t.Alike current current') :
    ∀ p : Path, t.Allows (p :: p.references) →
      t.Agrees (Path.resolve t.limit t.root names current p)
        (Path.resolve t.limit' t.root' names current' p)
  | .mk origin segments steps source, hrefs => by
    obtain ⟨hself, hinner⟩ := t.allows_cons.mp hrefs
    obtain ⟨hsegments, hsteps⟩ := t.allows_append.mp hinner
    simp only [Path.resolve]
    refine (segments_agree segments hsegments ?_).bind fun found found' hfound =>
      steps_agree steps hsteps hfound
    cases origin with
    | root =>
      rcases hself with halike | hcurrent
      · exact .cons halike .nil
      · cases hcurrent _ (List.mem_singleton_self _)
    | current => exact .cons h .nil

/-- Steps lead to the same in both runs. -/
theorem steps_agree {names : Names} :
    ∀ (steps : List Step) {starts starts' : List Match}, t.Allows (Step.listReferences steps) →
      Forall₂ t.Alike starts starts' →
      t.Agrees (Step.through t.limit t.root names steps starts)
        (Step.through t.limit' t.root' names steps starts')
  | [], starts, starts', _, h => by
    simp only [Step.through]
    exact .ok h
  | .mk head segments :: rest, starts, starts', hrefs, h => by
    obtain ⟨hsegments, hrest⟩ := t.allows_append.mp hrefs
    simp only [Step.through]
    refine (t.go_agree names (!segments.isEmpty) head h).bind fun reached reached' hreached => ?_
    exact (segments_agree segments hsegments hreached).bind fun found found' hfound =>
      steps_agree rest hrest hfound

/-- Segments lead to the same in both runs. -/
theorem segments_agree :
    ∀ (segments : List Segment) {starts starts' : List Match},
      t.Allows (Segment.listReferences segments) → Forall₂ t.Alike starts starts' →
      t.Agrees (Segment.through t.limit t.root segments starts)
        (Segment.through t.limit' t.root' segments starts')
  | [], starts, starts', _, h => by
    simp only [Segment.through]
    exact .ok h
  | .mk selectors :: rest, starts, starts', hrefs, h => by
    obtain ⟨hselectors, hrest⟩ := t.allows_append.mp hrefs
    simp only [Segment.through]
    refine (Agree.gather (h.imp fun _ _ hm => union_agrees selectors hselectors hm)).bind ?_
    exact fun found found' hfound => segments_agree rest hrest hfound

/-- Alternatives find the same in both runs. -/
theorem union_agrees :
    ∀ (selectors : List Selector) {m m' : Match}, t.Allows (Selector.listReferences selectors) →
      t.Alike m m' →
      t.Agrees (Selector.union t.limit t.root selectors m)
        (Selector.union t.limit' t.root' selectors m')
  | [], m, m', _, h => by
    simp only [Selector.union]
    exact .ok .nil
  | s :: rest, m, m', hrefs, h => by
    obtain ⟨hs, hrest⟩ := t.allows_append.mp hrefs
    simp only [Selector.union]
    refine (selector_agrees s hs h).bind fun first first' hfirst => ?_
    exact (union_agrees rest hrest h).bind fun others others' hothers =>
      .ok (List.rel_append hfirst hothers)

/-- A selector finds the same in both runs. -/
theorem selector_agrees : ∀ (s : Selector) {m m' : Match}, t.Allows s.references →
    t.Alike m m' →
    t.Agrees (Selector.find t.limit t.root s m) (Selector.find t.limit' t.root' s m')
  | .filter condition, m, m', hrefs, h => by
    simp only [Selector.find]
    refine Agree.gather ((t.corresponds h).children.imp fun c c' hc => ?_)
    refine (holds_agrees condition hrefs hc).map fun holds holds' hsame => ?_
    subst hsame
    cases holds with
    | true => exact .cons hc .nil
    | false => exact .nil
  | .wildcard, m, m', _, h | .name _, m, m', _, h | .index _, m, m', _, h
  | .slice _, m, m', _, h => by
    simp only [Selector.find]
    exact .ok ((t.corresponds h).select _)

/-- **Expressions hold of the same in both runs.** -/
theorem holds_agrees : ∀ (f : Filter) {m m' : Match}, t.Allows f.references → t.Alike m m' →
    Agree t.Excused Eq (Filter.holds t.limit t.root f m) (Filter.holds t.limit' t.root' f m')
  | .existence path inverted, m, m', hrefs, h => by
    simp only [Filter.holds]
    exact (path_agrees h path hrefs).map fun found found' hfound => by rw [t.isEmpty_eq hfound]
  | .reference path, m, m', hrefs, h => by
    simp only [Filter.holds]
    exact (path_agrees h path hrefs).map fun found found' hfound => by rw [t.isEmpty_eq hfound]
  | .negation inner, m, m', hrefs, h => by
    simp only [Filter.holds]
    exact (holds_agrees inner hrefs h).map_self not
  | .logical op left right, m, m', hrefs, h => by
    obtain ⟨hleft, hright⟩ := t.allows_append.mp hrefs
    simp only [Filter.holds]
    refine (holds_agrees left hleft h).bind fun first first' hfirst => ?_
    subst hfirst
    -- the right side is asked in both runs or in neither
    cases op <;> cases first <;> first | exact holds_agrees right hright h | exact .refl _
  | .comparison op left right, m, m', hrefs, h => by
    obtain ⟨hleft, hright⟩ := t.allows_append.mp hrefs
    simp only [Filter.holds]
    refine (operand_agrees left hleft h).bind fun a a' ha => ?_
    exact (operand_agrees right hright h).bind fun b b' hb => .ok (by rw [ha, hb])
  | .literal value, m, m', _, h => by
    cases value <;> simp only [Filter.holds] <;> exact .refl _
  | .arithmetic op left right, m, m', _, h => by
    simp only [Filter.holds]
    exact .refl _

/-- Expressions have the same value in both runs. -/
theorem operand_agrees : ∀ (f : Filter) {m m' : Match}, t.Allows f.references → t.Alike m m' →
    Agree t.Excused Eq (Filter.operand t.limit t.root f m) (Filter.operand t.limit' t.root' f m')
  | .literal value, m, m', _, h => by
    simp only [Filter.operand]
    exact .refl _
  | .reference path, m, m', hrefs, h => by
    simp only [Filter.operand]
    exact (path_agrees h path hrefs).bind fun found found' hfound =>
      t.ofMatches_agree path.source hfound
  | .arithmetic op left right, m, m', hrefs, h => by
    obtain ⟨hleft, hright⟩ := t.allows_append.mp hrefs
    simp only [Filter.operand]
    refine (operand_agrees left hleft h).bind fun a a' ha => ?_
    refine (operand_agrees right hright h).bind fun b b' hb => ?_
    rw [ha, hb]
    exact .refl _
  | .existence _ _, m, m', _, h | .negation _, m, m', _, h | .comparison _ _ _, m, m', _, h
  | .logical _ _ _, m, m', _, h => by
    simp only [Filter.operand]
    exact .refl _

end

end TwoRuns
end PathQuery
