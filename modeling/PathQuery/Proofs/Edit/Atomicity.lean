import PathQuery.Proofs.Edit.Enlargement
import PathQuery.Proofs.Edit.Removal
import PathQuery.Proofs.Query.Failure
import PathQuery.Session

/-! # Edits happen as a whole or not at all

An edit that fails does so before its first change: the loops that carry out changes
have errors of their own, but no edit of a document without repeated keys ends in one
(`Path.set_cases`, `Path.remove_cases`).  An edit that succeeds has changed all that it set
out to change, and nothing else (`Path.Assigns`).  So in a session a step that fails leaves
the document alone, and a failing step may be left out without any later step seeing a
difference (`runAll_atomic`).
-/

namespace PathQuery

/-- A failure other than those of a change that has begun. -/
def Failure.BeforeChange : Failure → Prop
  | .evaluation (.vanished _) | .evaluation (.refused ..) => False
  | _ => True

theorem EvalError.OfQuery.beforeChange {e : EvalError} (h : e.OfQuery) :
    (Failure.evaluation e).BeforeChange := by
  cases e <;> trivial

namespace Path

variable {options : Options} {p : Path} {doc : Json}

/-- What `set` may leave of a document, and how many values it puts there: if the path has
targets, one value over each of them; else a new entry, with a value, in each target of the path
without its last step. -/
inductive Assigns (options : Options) (p : Path) (supply : Nat → Json) (doc : Json) :
    Json → Nat → Prop
  | written {targets : List Location} (h : p.targets options doc = .ok targets)
      (hne : targets ≠ []) :
      Assigns options p supply doc (doc.overlay (Edit.assigned supply 0 targets)) targets.length
  | created {q : Path} {entry : NewEntry} {targets : List Location}
      (h : p.targets options doc = .ok []) (hextends : p.Extends q entry)
      (hq : q.targets options doc = .ok targets) (hne : targets ≠ []) :
      Assigns options p supply doc (doc.enlarge entry (Edit.assigned supply 0 targets))
        targets.length

/-- `set` either is refused before the first change or happens everywhere. -/
theorem set_cases (options : Options) (p : Path) (hd : doc.DistinctKeys) (supply : Nat → Json) :
    (∃ failure : Failure, failure.BeforeChange ∧
      p.set options supply doc = .refused doc failure) ∨
    ∃ changed n, Assigns options p supply doc changed n ∧
      p.set options supply doc = ⟨changed, n, .ok n⟩ := by
  cases hq : p.query options doc with
  | error e =>
    refine Or.inl ⟨_, (query_ofQuery hq).beforeChange, ?_⟩
    rw [set, targets, hq]
    rfl
  | ok found =>
    by_cases hfound : found = []
    · subst hfound
      rcases set_cases_of_nil hq supply with ⟨-, hset⟩ |
        ⟨q, entry, parents, h, hparents, hne, hlacks, ⟨-, kind, l, hset⟩ | ⟨hnot, hset⟩⟩
      · exact Or.inl ⟨.notFound _, trivial, hset⟩
      · exact Or.inl ⟨.evaluation (.noRoom ..), trivial, hset⟩
      · have hparentTargets : Location.distinctDescending (parents.map Match.location) ≠ [] :=
          Location.distinctDescending_ne_nil (by simpa using hne)
        have hrun := extendAll_of_query hd hparents hlacks hnot
          (Location.distinctDescending_pairwise _) (fun l => Location.mem_distinctDescending) supply
        exact Or.inr ⟨_, _, .created (targets_of_nil hq) h (targets_of_query hparents)
          hparentTargets, hset.trans hrun⟩
    · have htargets : Location.distinctDescending (found.map Match.location) ≠ [] :=
        Location.distinctDescending_ne_nil (by simpa using hfound)
      exact Or.inr ⟨_, _, .written (targets_of_query hq) htargets,
        set_of_query hd hq hfound supply (Location.distinctDescending_pairwise _)
          fun l => Location.mem_distinctDescending⟩

/-- `remove` either is refused before the first change or deletes every target. -/
theorem remove_cases (options : Options) (p : Path) (hd : doc.DistinctKeys) :
    (∃ failure : Failure, failure.BeforeChange ∧
      p.remove options doc = .refused doc failure) ∨
    ∃ targets, p.targets options doc = .ok targets ∧
      p.remove options doc = ⟨doc.prune fun l => l ∈ targets, 0, .ok targets.length⟩ := by
  cases hq : p.query options doc with
  | error e =>
    refine Or.inl ⟨_, (query_ofQuery hq).beforeChange, ?_⟩
    rw [remove, targets, hq]
    rfl
  | ok found =>
    have htargets := targets_of_query hq
    by_cases hroot : ∀ m ∈ found, m.location ≠ []
    · exact Or.inr ⟨_, htargets, remove_of_query hd hq hroot
        (Location.distinctDescending_pairwise _) fun l => Location.mem_distinctDescending⟩
    · refine Or.inl ⟨.evaluation .rootRemoval, trivial, ?_⟩
      have hmem : [] ∈ Location.distinctDescending (found.map Match.location) := by
        rw [Location.mem_distinctDescending, List.mem_map]
        simpa using hroot
      simp only [remove, htargets, List.contains_eq_mem, hmem, decide_true, if_true]

end Path

/-! ## Edited documents have no repeated keys -/

namespace Json

theorem DistinctKeys.write? {doc changed value : Json} {l : Location} (hd : doc.DistinctKeys)
    (hv : value.DistinctKeys) (h : doc.write? l value = some changed) :
    changed.DistinctKeys := by
  unfold Json.write? at h
  split at h
  · exact Option.some.inj h ▸ hv
  · exact hd.updateAt? (fun v w hvw hput => hvw.put? hv hput) h

theorem DistinctKeys.extend? {doc changed value : Json} {entry : NewEntry}
    (hd : doc.DistinctKeys) (hv : value.DistinctKeys)
    (h : doc.extend? entry value = some changed) : changed.DistinctKeys := by
  cases entry with
  | key name => exact DistinctKeys.put? (a := .key name) hd hv h
  | index i =>
    cases doc with
    | array items =>
      simp only [Json.extend?, append?, Option.some.injEq] at h
      rw [← h]
      refine distinctKeys_array.mpr fun v hmem => ?_
      rcases List.mem_append.mp hmem with hmem | hmem
      · exact distinctKeys_array.mp hd v hmem
      · exact List.mem_singleton.mp hmem ▸ hv
    | _ => simp [Json.extend?, append?] at h

theorem DistinctKeys.delete? {doc changed : Json} {l : Location} (hd : doc.DistinctKeys)
    (h : doc.delete? l = some changed) : changed.DistinctKeys := by
  unfold Json.delete? at h
  split at h
  · simp at h
  · exact hd.updateAt? (fun v w hvw hremove => hvw.remove? hremove) h

end Json

namespace Edit

open Json

theorem distinctKeys_writeAll {supply : Nat → Json} (hs : ∀ k, (supply k).DistinctKeys)
    (taken : Nat) {doc : Json} (hd : doc.DistinctKeys) (targets : List Location) :
    (writeAll supply taken doc targets).document.DistinctKeys := by
  induction targets generalizing taken doc with
  | nil => exact hd
  | cons l rest ih =>
    rw [writeAll]
    split
    · rename_i changed h
      exact ih _ (hd.write? (hs taken) h)
    · exact hd

theorem distinctKeys_extendAll {entry : NewEntry} {supply : Nat → Json}
    (hs : ∀ k, (supply k).DistinctKeys) (taken : Nat) {doc : Json} (hd : doc.DistinctKeys)
    (targets : List Location) :
    (extendAll entry supply taken doc targets).document.DistinctKeys := by
  induction targets generalizing taken doc with
  | nil => exact hd
  | cons l rest ih =>
    rw [extendAll]
    split
    · exact hd
    · split
      · rename_i changed h
        exact ih _ (hd.updateAt? (fun v w hvw hextend => hvw.extend? (hs taken) hextend) h)
      · exact hd

theorem distinctKeys_deleteAll (removed : Nat) {doc : Json} (hd : doc.DistinctKeys)
    (targets : List Location) : (deleteAll removed doc targets).document.DistinctKeys := by
  induction targets generalizing removed doc with
  | nil => exact hd
  | cons l rest ih =>
    rw [deleteAll]
    split
    · rename_i changed h
      exact ih _ (hd.delete? h)
    · exact ih _ hd

end Edit

namespace Path

variable {options : Options} {p : Path} {doc : Json}

theorem distinctKeys_set (hd : doc.DistinctKeys) {supply : Nat → Json}
    (hs : ∀ k, (supply k).DistinctKeys) :
    (p.set options supply doc).document.DistinctKeys := by
  unfold set
  split
  · exact hd
  · unfold create
    split
    · exact hd
    · split
      · exact hd
      · exact hd
      · split
        · exact hd
        · exact Edit.distinctKeys_extendAll hs 0 hd _
  · exact Edit.distinctKeys_writeAll hs 0 hd _

theorem distinctKeys_remove (hd : doc.DistinctKeys) :
    (p.remove options doc).document.DistinctKeys := by
  unfold remove
  split
  · exact hd
  · split
    · exact hd
    · exact Edit.distinctKeys_deleteAll 0 hd _

end Path

/-! ## Sessions -/

/-- The action changes the document. -/
def Action.isEdit : Action → Bool
  | .set _ | .remove => true
  | _ => false

/-- The values that the action may put into the document have no repeated keys. -/
def Action.DistinctKeys : Action → Prop
  | .set supply => ∀ k, (supply k).DistinctKeys
  | _ => True

/-- The answer reports a failure. -/
def Answer.isFailure : Answer → Bool
  | .failed _ => true
  | _ => false

namespace SessionStep

/-- A step on a document happens as a whole or not at all. -/
structure Atomic (step : SessionStep) (doc : Json) : Prop where
  /-- A failing step leaves the document alone. -/
  unchanged : (step.run doc).1.isFailure = true → (step.run doc).2 = doc
  /-- A failing `set` asks its supply for nothing. -/
  untaken : ∀ supply, step.action = .set supply → (step.run doc).1.isFailure = true →
    (step.path.set step.options supply doc).taken = 0
  /-- No step fails with an error of a change that has begun. -/
  beforeChange : ∀ failure, (step.run doc).1 = .failed failure → failure.BeforeChange
  /-- A `set` that succeeds has put a value everywhere it was to put one. -/
  assigned : ∀ supply, step.action = .set supply → ∀ n, (step.run doc).1 = .count n →
    step.path.Assigns step.options supply doc (step.run doc).2 n
  /-- `remove` deletes all that it set out to delete. -/
  complete : step.action = .remove → ∀ n, (step.run doc).1 = .count n →
    ∃ targets, step.path.targets step.options doc = .ok targets ∧ n = targets.length ∧
      (step.run doc).2 = doc.prune fun l => l ∈ targets

theorem atomic_of_failed {step : SessionStep} {doc : Json} {failure : Failure}
    (hrun : step.run doc = (.failed failure, doc)) (hbefore : failure.BeforeChange)
    (htaken : ∀ supply, step.action = .set supply →
      (step.path.set step.options supply doc).taken = 0) : step.Atomic doc where
  unchanged _ := by rw [hrun]
  untaken supply hset _ := htaken supply hset
  beforeChange failure' h := by
    rw [hrun] at h
    obtain rfl : failure = failure' := by simpa using h
    exact hbefore
  assigned _ _ n h := by simp [hrun] at h
  complete _ n h := by simp [hrun] at h

theorem atomic_of_success {step : SessionStep} {doc : Json}
    (hrun : (step.run doc).1.isFailure = false)
    (hassigned : ∀ supply, step.action = .set supply → ∀ n, (step.run doc).1 = .count n →
      step.path.Assigns step.options supply doc (step.run doc).2 n)
    (hcomplete : step.action = .remove → ∀ n, (step.run doc).1 = .count n →
      ∃ targets, step.path.targets step.options doc = .ok targets ∧ n = targets.length ∧
        (step.run doc).2 = doc.prune fun l => l ∈ targets) :
    step.Atomic doc where
  unchanged h := by simp [hrun] at h
  untaken _ _ h := by simp [hrun] at h
  beforeChange _ h := by simp [h, Answer.isFailure] at hrun
  assigned := hassigned
  complete := hcomplete

/-- Every step on a document without repeated keys happens as a whole or not at all. -/
theorem atomic {doc : Json} (hd : doc.DistinctKeys) (step : SessionStep) : step.Atomic doc := by
  obtain ⟨action, path, options⟩ := step
  cases action with
  | query =>
    cases hq : path.query options doc with
    | ok found =>
      exact atomic_of_success (by simp [run, hq, Answer.ofQuery, Answer.isFailure]) nofun nofun
    | error e =>
      exact atomic_of_failed (by simp [run, hq, Answer.ofQuery])
        (Path.query_ofQuery hq).beforeChange nofun
  | get =>
    cases hq : path.query options doc with
    | ok found =>
      cases found with
      | nil =>
        have hbefore : (Failure.notFound path.source).BeforeChange := trivial
        exact atomic_of_failed (by simp [run, Path.get, hq, Answer.ofValues]) hbefore nofun
      | cons m rest =>
        exact atomic_of_success
          (by simp [run, Path.get, hq, Answer.ofValues, Answer.isFailure]) nofun nofun
    | error e =>
      exact atomic_of_failed (by simp [run, Path.get, hq, Answer.ofValues])
        (Path.query_ofQuery hq).beforeChange nofun
  | contains =>
    cases hq : path.query options doc with
    | ok found =>
      exact atomic_of_success
        (by simp [run, Path.contains, hq, Except.map, Answer.ofQuery, Answer.isFailure]) nofun nofun
    | error e =>
      exact atomic_of_failed (by simp [run, Path.contains, hq, Except.map, Answer.ofQuery])
        (Path.query_ofQuery hq).beforeChange nofun
  -- the two actions that change the document fail before they begin or not at all
  | set supply =>
    rcases Path.set_cases options path hd supply with
      ⟨failure, hbefore, hset⟩ | ⟨changed, n, hassigns, hset⟩
    · refine atomic_of_failed (by simp only [run, hset]; rfl) hbefore fun supply' h => ?_
      obtain rfl : supply = supply' := by simpa using h
      exact congrArg Edit.taken hset
    · refine atomic_of_success (by simp only [run, hset]; rfl) (fun supply' h n' hcount => ?_) nofun
      obtain rfl : supply = supply' := by simpa using h
      obtain rfl : n = n' := by
        simpa only [run, hset, Answer.ofEdit, Answer.count.injEq] using hcount
      simpa only [run, hset] using hassigns
  | remove =>
    rcases Path.remove_cases options path hd with
      ⟨failure, hbefore, hremove⟩ | ⟨targets, ht, hremove⟩
    · exact atomic_of_failed (by simp only [run, hremove]; rfl) hbefore nofun
    · refine atomic_of_success (by simp only [run, hremove]; rfl) nofun
        fun _ n h => ⟨targets, ht, ?_, ?_⟩
      · simp only [run, hremove, Answer.ofEdit, Answer.count.injEq] at h
        exact h.symm
      · simp only [run, hremove]

theorem distinctKeys_run {doc : Json} (hd : doc.DistinctKeys) {step : SessionStep}
    (hs : step.action.DistinctKeys) : (step.run doc).2.DistinctKeys := by
  obtain ⟨action, path, options⟩ := step
  cases action with
  | set supply => exact Path.distinctKeys_set hd hs
  | remove => exact Path.distinctKeys_remove hd
  | _ => exact hd

theorem distinctKeys_runAll {doc : Json} (hd : doc.DistinctKeys) {steps : List SessionStep}
    (hs : ∀ step ∈ steps, step.action.DistinctKeys) : (runAll steps doc).2.DistinctKeys := by
  induction steps generalizing doc with
  | nil => exact hd
  | cons step rest ih =>
    exact ih (distinctKeys_run hd (hs step (List.mem_cons_self ..)))
      fun s hmem => hs s (List.mem_cons_of_mem _ hmem)

/-- The steps of a session that change the document and do not fail. -/
def successfulEdits (steps : List SessionStep) (doc : Json) : List SessionStep :=
  ((steps.zip (runAll steps doc).1).filter fun (step, answer) =>
    step.action.isEdit && !answer.isFailure).map Prod.fst

theorem successfulEdits_cons (step : SessionStep) (rest : List SessionStep) (doc : Json) :
    successfulEdits (step :: rest) doc =
      if step.action.isEdit && !(step.run doc).1.isFailure then
        step :: successfulEdits rest (step.run doc).2
      else successfulEdits rest (step.run doc).2 := by
  simp only [successfulEdits, runAll, List.zip_cons_cons, List.filter_cons]
  split <;> rfl

/-- A step that is no successful edit leaves the document alone. -/
theorem run_unchanged {step : SessionStep} {doc : Json} (h : step.Atomic doc)
    (hstep : (step.action.isEdit && !(step.run doc).1.isFailure) = false) :
    (step.run doc).2 = doc := by
  by_cases hfail : (step.run doc).1.isFailure = true
  · exact h.unchanged hfail
  · obtain ⟨action, path, options⟩ := step
    cases action with
    | set supply => simp [hfail, Action.isEdit] at hstep
    | remove => simp [hfail, Action.isEdit] at hstep
    | _ => rfl

/-- **A session of edits is all or nothing, step by step.**  Started on a document
without repeated keys, every step of a session leaves the document alone if it fails,
without having asked its supply, never fails once it has begun to change it, and if it
succeeds has made the whole of its change.  So the document at the end is the one that the
successful edits alone lead to. -/
theorem runAll_atomic {doc : Json} (hd : doc.DistinctKeys) {steps : List SessionStep}
    (hs : ∀ step ∈ steps, step.action.DistinctKeys) :
    (∀ before step after, steps = before ++ step :: after →
      step.Atomic (runAll before doc).2) ∧
    (runAll steps doc).2 = (runAll (successfulEdits steps doc) doc).2 := by
  refine ⟨?_, ?_⟩
  · rintro before step after rfl
    exact atomic (distinctKeys_runAll hd fun s hmem => hs s (List.mem_append_left _ hmem)) step
  · induction steps generalizing doc with
    | nil => rfl
    | cons step rest ih =>
      have hrest := ih (distinctKeys_run hd (hs step (List.mem_cons_self ..)))
        fun s hmem => hs s (List.mem_cons_of_mem _ hmem)
      have hrun : (runAll (step :: rest) doc).2 = (runAll rest (step.run doc).2).2 := rfl
      rw [hrun, successfulEdits_cons]
      split
      · exact hrest
      · rename_i hstep
        have hsame := run_unchanged (atomic hd step) (by simpa using hstep)
        rw [hsame] at hrest ⊢
        exact hrest

/-- A `set` with no place for its value and a removal of the root fail, between a replacement
and the creation of an entry before the one and a removal behind the other. -/
theorem runAll_failing_between :
    let path (steps : List Step) : Path := .mk .root [] steps ""
    let doc : Json := .object [("a", .array [.null, .null]), ("b", .bool true)]
    let steps : List SessionStep := [
      ⟨.set (Json.always (.bool false)), path [.mk (.child (.name "a")) [.mk [.wildcard]]], {}⟩,
      ⟨.set (Json.always .null), path [.mk (.child (.name "c")) []], {}⟩,
      ⟨.set (Json.always (.bool false)), path [.mk (.child (.name "b")) [.mk [.name "c"]]], {}⟩,
      ⟨.remove, path [], {}⟩,
      ⟨.remove, path [.mk (.child (.name "b")) []], {}⟩]
    doc.DistinctKeys ∧ (∀ step ∈ steps, step.action.DistinctKeys) ∧
      (runAll steps doc).1.map Answer.isFailure = [false, false, true, true, false] ∧
      (runAll steps doc).2 = .object [("a", .array [.bool false, .bool false]), ("c", .null)] ∧
      (runAll steps doc).2 = (runAll (successfulEdits steps doc) doc).2 ∧
      ∀ before step after, steps = before ++ step :: after →
        step.Atomic (runAll before doc).2 := by
  intro path doc steps
  have hd : doc.DistinctKeys := by
    simp [doc, Json.DistinctKeys, Json.ItemsDistinctKeys, Json.MembersDistinctKeys]
  have hs : ∀ step ∈ steps, step.action.DistinctKeys := by
    simp [steps, Action.DistinctKeys, Json.always, Json.DistinctKeys]
  obtain ⟨hatomic, hsame⟩ := runAll_atomic hd hs
  exact ⟨hd, hs, by cbv, by cbv, hsame, hatomic⟩

end SessionStep
end PathQuery
