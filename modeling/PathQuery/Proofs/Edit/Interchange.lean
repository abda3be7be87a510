import PathQuery.Proofs.Edit.Atomicity
import PathQuery.Proofs.Query.SourceText

/-! # Paths that are interchangeable

Two paths with the same nodes may have been compiled from different texts, and so may the
references in them.  Whatever they are applied for, they have the same results, ask for the same
values and leave the same document; where one fails, so does the other, with an error that
differs in the cited texts only (`Path.interchangeable`).  So one of them may be taken for the
other, as a store of compiled paths does that looks them up by their structure.
-/

namespace PathQuery

/-- The failure, without the sources that it cites. -/
def Failure.unsourced : Failure → Failure
  | .malformed e => .malformed e
  | .notFound _ => .notFound ""
  | .evaluation e => .evaluation e.unsourced

/-- The edit, without the sources that its failure cites. -/
def Edit.unsourced (edit : Edit) : Edit :=
  { edit with result := edit.result.mapError Failure.unsourced }

/-- The paths cannot be told apart by applying them: each operation has the same outcome for
both, up to the texts that are cited if it fails.  A change that fails has changed nothing and
asked for no value. -/
structure Path.Interchangeable (p q : Path) : Prop where
  query : ∀ options doc, (p.query options doc).mapError EvalError.unsourced =
    (q.query options doc).mapError EvalError.unsourced
  get : ∀ options doc, (p.get options doc).mapError Failure.unsourced =
    (q.get options doc).mapError Failure.unsourced
  contains : ∀ options doc, (p.contains options doc).mapError EvalError.unsourced =
    (q.contains options doc).mapError EvalError.unsourced
  set : ∀ options supply doc,
    (p.set options supply doc).unsourced = (q.set options supply doc).unsourced
  remove : ∀ options doc, (p.remove options doc).unsourced = (q.remove options doc).unsourced
  unchanged : ∀ options supply doc, doc.DistinctKeys → ∀ failure,
    ((p.set options supply doc).result = .error failure →
      p.set options supply doc = .refused doc failure) ∧
    ((p.remove options doc).result = .error failure →
      p.remove options doc = .refused doc failure)

/-! ## The last step of a path -/

theorem Segment.entry?_unsourced (s : Segment) : s.unsourced.entry? = s.entry? := by
  obtain ⟨selectors⟩ := s
  match selectors with
  | [] => rfl
  | [s] => cases s <;> rfl
  | _ :: _ :: _ => simp [unsourced, Selector.unsourcedList, entry?]

namespace Path

variable {options : Options} {p : Path} {doc : Json}

/-- Without sources the same entry is to be created, in the matches of the same path. -/
theorem creation?_unsourced (p : Path) : p.unsourced.creation? =
    p.creation?.map fun (parent, entry) => (parent.unsourced, entry) := by
  obtain ⟨origin, segments, steps, source⟩ := p
  simp only [unsourced_mk, creation?, List.getLast?_map]
  cases steps.getLast? with
  | none =>
    cases segments.getLast? with
    | none => rfl
    | some last =>
      simp [Segment.entry?_unsourced, unsourced_mk, List.map_dropLast, Function.comp_def]
  | some s =>
    obtain ⟨head, inner⟩ := s
    simp only [Option.map_some, Step.unsourced, Segment.unsourcedList_eq_map, List.getLast?_map]
    cases inner.getLast? with
    | none => rcases head with _ | (_ | _) | _ <;> simp [unsourced_mk, List.map_dropLast]
    | some last =>
      cases head <;> simp [Segment.entry?_unsourced, unsourced_mk, Step.unsourced,
        Segment.unsourcedList_eq_map, List.map_dropLast, Function.comp_def]

end Path

/-! ## Changes -/

namespace Edit

/-- A change that has been begun cites nothing. -/
theorem unsourced_writeAll (supply : Nat → Json) (taken : Nat) (doc : Json)
    (locations : List Location) :
    (writeAll supply taken doc locations).unsourced = writeAll supply taken doc locations := by
  induction locations generalizing taken doc with
  | nil => rfl
  | cons location rest ih =>
    rw [writeAll]
    split
    · exact ih ..
    · rfl

theorem unsourced_extendAll (entry : NewEntry) (supply : Nat → Json) (taken : Nat) (doc : Json)
    (locations : List Location) : (extendAll entry supply taken doc locations).unsourced =
      extendAll entry supply taken doc locations := by
  induction locations generalizing taken doc with
  | nil => rfl
  | cons location rest ih =>
    rw [extendAll]
    split
    · rfl
    · split
      · exact ih ..
      · rfl

theorem unsourced_deleteAll (removed : Nat) (doc : Json) (locations : List Location) :
    (deleteAll removed doc locations).unsourced = deleteAll removed doc locations := by
  induction locations generalizing removed doc with
  | nil => rfl
  | cons location rest ih =>
    rw [deleteAll]
    split
    · exact ih ..
    · exact ih ..

end Edit

namespace Path

variable (options : Options) (p : Path) (supply : Nat → Json) (doc : Json)

theorem targets_unsourced : p.unsourced.targets options doc =
    (p.targets options doc).mapError EvalError.unsourced := by
  rw [targets, query_unsourced, targets, mapError_map]

theorem create_unsourced :
    p.unsourced.create options supply doc = (p.create options supply doc).unsourced := by
  rw [create, create, creation?_unsourced]
  cases p.creation? with
  | none => rw [source_unsourced]; rfl
  | some target =>
    obtain ⟨parent, entry⟩ := target
    simp only [Option.map_some, query_unsourced, source_unsourced]
    rcases parent.query options doc with e | (_ | ⟨m, rest⟩)
    · rfl
    · rfl
    · simp only [Except.mapError]
      cases firstWithoutRoom? entry (m :: rest) with
      | some m => rfl
      | none => exact (Edit.unsourced_extendAll ..).symm

theorem set_unsourced :
    p.unsourced.set options supply doc = (p.set options supply doc).unsourced := by
  rw [set, set, targets_unsourced]
  rcases p.targets options doc with e | (_ | ⟨location, rest⟩)
  · rfl
  · exact create_unsourced options p supply doc
  · exact (Edit.unsourced_writeAll ..).symm

theorem remove_unsourced :
    p.unsourced.remove options doc = (p.remove options doc).unsourced := by
  rw [remove, remove, targets_unsourced]
  cases p.targets options doc with
  | error e => rfl
  | ok targets =>
    simp only [Except.mapError]
    split
    · rfl
    · exact (Edit.unsourced_deleteAll ..).symm

theorem get_unsourced :
    p.unsourced.get options doc = (p.get options doc).mapError Failure.unsourced := by
  rw [get, get, query_unsourced, source_unsourced]
  rcases p.query options doc with e | (_ | ⟨m, rest⟩) <;> rfl

theorem contains_unsourced : p.unsourced.contains options doc =
    (p.contains options doc).mapError EvalError.unsourced := by
  rw [contains, contains, query_unsourced, mapError_map]

/-- A path can be interchanged with one that is the same without sources. -/
theorem interchangeable_of_unsourced {p q : Path} (h : p.unsourced = q.unsourced) :
    p.Interchangeable q where
  query options doc := by rw [← query_unsourced, ← query_unsourced, h]
  get options doc := by rw [← get_unsourced, ← get_unsourced, h]
  contains options doc := by rw [← contains_unsourced, ← contains_unsourced, h]
  set options supply doc := by rw [← set_unsourced, ← set_unsourced, h]
  remove options doc := by rw [← remove_unsourced, ← remove_unsourced, h]
  unchanged options supply doc hd failure := by
    constructor
    · intro hfail
      rcases set_cases options p hd supply with
        ⟨failure', -, hrefused⟩ | ⟨changed, n, -, hchanged⟩
      · rw [hrefused] at hfail ⊢
        exact congrArg _ (Except.error.inj hfail)
      · rw [hchanged] at hfail
        cases hfail
    · intro hfail
      rcases remove_cases options p hd with
        ⟨failure', -, hrefused⟩ | ⟨targets, -, hchanged⟩
      · rw [hrefused] at hfail ⊢
        exact congrArg _ (Except.error.inj hfail)
      · rw [hchanged] at hfail
        cases hfail

/-- **Evaluation does not depend on source text.**  Paths with the same nodes, whatever texts they
and the references in them were compiled from, can be interchanged; and these are the paths that
are structurally equal and have the same numbers in them. -/
theorem interchangeable (p q : Path) :
    (p.unsourced = q.unsourced ↔ p.same q = true ∧ p.numbers = q.numbers) ∧
      (p.unsourced = q.unsourced → p.Interchangeable q) :=
  ⟨unsourced_eq_iff, interchangeable_of_unsourced⟩

/-- A name in either kind of quotes, in a reference that may be compared with a number and may
not: both paths create the same entry, or both fail, each with its own text. -/
theorem interchangeable_quotes :
    let condition (text : String) : Filter := .comparison .eq
      (.reference (.mk .current [.mk [.name "a"]] [] text)) (.literal (.number (.ofInt64 1)))
    let p : Path := .mk .root [.mk [.filter (condition "@['a']")]]
      [.mk (.child (.name "b")) []] "$[?@['a'] == 1].b"
    let q : Path := .mk .root [.mk [.filter (condition "@[\"a\"]")]]
      [.mk (.child (.name "b")) []] "$[?@[\"a\"]==1].b"
    let doc : Json := .array [.object [("a", .number (.ofInt64 1))]]
    let other : Json := .array [.object [("a", .array [])]]
    p.same q = true ∧ p.numbers = q.numbers ∧ p.Interchangeable q ∧
      (p.set {} Json.counting doc).taken = 1 ∧ (q.set {} Json.counting doc).taken = 1 ∧
      p.query {} other = .error (.notComparable "@['a']" .array) ∧
      q.query {} other = .error (.notComparable "@[\"a\"]" .array) := by
  intro condition p q doc other
  have hsame : p.same q = true := by decide +kernel
  have hnumbers : p.numbers = q.numbers := by decide +kernel
  obtain ⟨hiff, hinterchangeable⟩ := interchangeable p q
  exact ⟨hsame, hnumbers, hinterchangeable (hiff.mpr ⟨hsame, hnumbers⟩), by decide +kernel,
    by decide +kernel, rfl, rfl⟩

end Path
end PathQuery
