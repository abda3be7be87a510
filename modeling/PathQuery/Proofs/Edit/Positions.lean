import PathQuery.Proofs.Edit.LastStep
import PathQuery.Proofs.Query.Failure

/-! # Conditions and values of compiled paths

An expression of a compiled path is a condition where its truth is asked for, and a value
where it is compared or computed with.  This is part of the form that every compiled path
has, and it is what keeps one error of the evaluator from ever being seen: neither a query
nor an edit finds that a condition is used as a value (`Path.compile_wellFormed`).  An edit
may apply a path without its last step, which is no compiled path; the form of its segments
is all that counts, and they are those of the path.
-/

namespace PathQuery

/-- The failure is not that a condition is used as a value. -/
def Failure.KeepsPositions : Failure → Prop
  | .evaluation (.notAValue _) => False
  | _ => True

namespace Edit

theorem writeAll_keepsPositions {supply : Nat → Json} {taken : Nat} {doc : Json}
    {targets : List Location} {failure : Failure}
    (h : (writeAll supply taken doc targets).result = .error failure) :
    failure.KeepsPositions := by
  induction targets generalizing taken doc with
  | nil => simp [writeAll] at h
  | cons l rest ih =>
    rw [writeAll] at h
    split at h
    · exact ih h
    · exact Except.error.inj h ▸ trivial

theorem extendAll_keepsPositions {entry : NewEntry} {supply : Nat → Json} {taken : Nat}
    {doc : Json} {targets : List Location} {failure : Failure}
    (h : (extendAll entry supply taken doc targets).result = .error failure) :
    failure.KeepsPositions := by
  induction targets generalizing taken doc with
  | nil => simp [extendAll] at h
  | cons l rest ih =>
    rw [extendAll] at h
    split at h
    · exact Except.error.inj h ▸ trivial
    · split at h
      · exact ih h
      · exact Except.error.inj h ▸ trivial

theorem deleteAll_result (removed : Nat) (doc : Json) (targets : List Location) :
    ∃ n, (deleteAll removed doc targets).result = .ok n := by
  induction targets generalizing removed doc with
  | nil => exact ⟨removed, rfl⟩
  | cons l rest ih =>
    rw [deleteAll]
    split
    · exact ih _ _
    · exact ih _ _

end Edit

namespace Path

variable {p : Path}

theorem PartsWellFormed.query_keepsPositions (hp : p.PartsWellFormed) {options : Options}
    {doc : Json} {e : EvalError} (h : p.query options doc = .error e) :
    (Failure.evaluation e).KeepsPositions := by
  cases e with
  | notAValue condition => exact query_ne_notAValue hp options doc condition h
  | _ => trivial

/-- The path without its last step has no other segments than the path. -/
theorem Extends.partsWellFormed {parent : Path} {entry : NewEntry} (h : p.Extends parent entry)
    (hp : p.PartsWellFormed) : parent.PartsWellFormed := by
  obtain ⟨hsegments, hsteps⟩ := hp
  cases h with
  | first origin segments source =>
    exact ⟨Segment.listWellFormed_iff.mpr fun s hs =>
      Segment.listWellFormed_iff.mp hsegments s (List.mem_append_left _ hs), by simp [Path.steps]⟩
  | @bracket origin segments steps head _ inner source =>
    refine ⟨hsegments, fun s hs => ?_⟩
    rcases List.mem_append.mp hs with hs | hs
    · exact hsteps s (List.mem_append_left _ hs)
    · have hinner := hsteps (.mk head (inner ++ [.mk [entry.selector]])) (by simp [Path.steps])
      rw [List.mem_singleton.mp hs]
      exact Segment.listWellFormed_iff.mpr fun s hs =>
        Segment.listWellFormed_iff.mp hinner s (List.mem_append_left _ hs)
  | name origin segments steps key source =>
    exact ⟨hsegments, fun s hs => hsteps s (List.mem_append_left _ hs)⟩

theorem PartsWellFormed.create_keepsPositions (hp : p.PartsWellFormed) {options : Options}
    {supply : Nat → Json} {doc : Json} {failure : Failure}
    (h : (p.create options supply doc).result = .error failure) : failure.KeepsPositions := by
  unfold create at h
  split at h
  · exact Except.error.inj h ▸ trivial
  · rename_i parent entry hcreation
    split at h
    · rename_i e hq
      have hparent := (creation?_eq_some_iff.mp hcreation).partsWellFormed hp
      exact Except.error.inj h ▸ hparent.query_keepsPositions hq
    · exact Except.error.inj h ▸ trivial
    · split at h
      · exact Except.error.inj h ▸ trivial
      · exact Edit.extendAll_keepsPositions h

theorem PartsWellFormed.set_keepsPositions (hp : p.PartsWellFormed) {options : Options}
    {supply : Nat → Json} {doc : Json} {failure : Failure}
    (h : (p.set options supply doc).result = .error failure) : failure.KeepsPositions := by
  unfold set at h
  split at h
  · rename_i e he
    exact Except.error.inj h ▸ hp.query_keepsPositions (map_eq_error.mp he)
  · exact hp.create_keepsPositions h
  · exact Edit.writeAll_keepsPositions h

theorem PartsWellFormed.remove_keepsPositions (hp : p.PartsWellFormed) {options : Options}
    {doc : Json} {failure : Failure} (h : (p.remove options doc).result = .error failure) :
    failure.KeepsPositions := by
  unfold remove at h
  split at h
  · rename_i e he
    exact Except.error.inj h ▸ hp.query_keepsPositions (map_eq_error.mp he)
  · rename_i targets _
    split at h
    · exact Except.error.inj h ▸ trivial
    · obtain ⟨n, hn⟩ := Edit.deleteAll_result 0 doc targets
      simp [hn] at h

/-- **Every compiled path is well formed, and so no condition is ever used as a value.**
With whatever limit a text was compiled, what `Path.WellFormed` says holds of the path, of
its segments and filters and of the references in them; and with whatever limit the path is
then applied to a document, no query and no edit fails because of a condition that is used
as a value. -/
theorem compile_wellFormed {options : Options} {text : String}
    (h : compile options text = .ok p) :
    p.WellFormed false ∧ ∀ (evaluation : Options) (doc : Json) (condition : Filter),
      p.query evaluation doc ≠ .error (.notAValue condition) ∧
      (∀ supply, (p.set evaluation supply doc).result ≠
        .error (.evaluation (.notAValue condition))) ∧
      (p.remove evaluation doc).result ≠ .error (.evaluation (.notAValue condition)) := by
  have hwf := Compiler.path_wellFormed (compile_eq_ok.mp h)
  have hparts := hwf.parts
  refine ⟨hwf, fun evaluation doc condition => ⟨?_, fun supply hset => ?_, fun hremove => ?_⟩⟩
  · exact query_ne_notAValue hparts evaluation doc condition
  · exact hparts.set_keepsPositions hset
  · exact hparts.remove_keepsPositions hremove

/-- Groups, negations and a reference in the filter of a reference. -/
theorem compile_wellFormed_nested :
    ∃ p, compile {} "$..a[?!((@.b + 1) * 2 > @[?(@.c)].d || !@.e)]" = .ok p ∧
      p.WellFormed false ∧ ∀ condition,
        p.query {} (.array [.object []]) ≠ .error (.notAValue condition) := by
  have heval : ((compile {} "$..a[?!((@.b + 1) * 2 > @[?(@.c)].d || !@.e)]").toOption.any
      fun _ => true) = true := by decide +kernel
  obtain ⟨p, hp, -⟩ := exists_of_any heval
  obtain ⟨hwf, hdead⟩ := compile_wellFormed hp
  exact ⟨p, hp, hwf, fun condition => (hdead {} _ condition).1⟩

end Path
end PathQuery
