import Mathlib
import PathQuery.Edit
import PathQuery.Proofs.Path.DepthLimit
import PathQuery.Proofs.Query.TwoRuns

/-! # The depth limit

Raising the limit on depth can only turn an excess of the limit into something else.  What
compiles, or fails to compile for another reason, does so as before
(`Path.compile_of_le`); and as the evaluator never catches an error, neither within an
expression nor before it creates an entry, the same is true of queries and of edits
(`Path.depthLimit_raised`).
-/

namespace PathQuery

/-- The error says that values are nested beyond a limit. -/
def EvalError.IsDepth : EvalError → Prop
  | .tooDeep .. => True
  | _ => False

/-- The failure is an excess of a limit on depth. -/
def Failure.IsDepth : Failure → Prop
  | .malformed e => e.cause.IsDepth
  | .evaluation e => e.IsDepth
  | .notFound _ => False

/-- The run of a query with a lower limit, beside that with a higher one. -/
def TwoRuns.raised {low high : Nat} (h : low ≤ high) (doc : Json) : TwoRuns where
  limit := low
  limit' := high
  root := doc
  root' := doc
  Alike := Eq
  Excused := EvalError.IsDepth
  value_eq := congrArg Match.value
  below _ _ := congrArg (Match.below · _ _)
  location_eq h := .inl (congrArg Match.location h)
  limit_eq := .inr ⟨h, fun _ => trivial⟩

namespace Path

variable {low high : Options} {p : Path} {doc : Json}

theorem query_agree (h : low.maxDepth ≤ high.maxDepth) (p : Path) (doc : Json) :
    Agree EvalError.IsDepth Eq (p.query low doc) (p.query high doc) := by
  have hagree : (TwoRuns.raised h doc).Agrees (p.query low doc) (p.query high doc) :=
    (TwoRuns.raised h doc).path_agrees rfl p (Or.inl rfl)
  refine hagree.imp fun found found' hfound => ?_
  have hsame : List.Forall₂ Eq found found' := hfound
  rwa [List.forall₂_eq_eq_eq] at hsame

theorem query_of_le (h : low.maxDepth ≤ high.maxDepth)
    (hlow : ∀ e, p.query low doc = .error e → ¬ e.IsDepth) :
    p.query high doc = p.query low doc :=
  (query_agree h p doc).eq_of_not_excused hlow

theorem targets_of_le (h : low.maxDepth ≤ high.maxDepth)
    (hlow : ∀ e, p.targets low doc = .error e → ¬ e.IsDepth) :
    p.targets high doc = p.targets low doc := by
  rw [targets, targets, query_of_le h fun e he => hlow e (map_eq_error.mpr he)]

/-- The query of the path without its last step decides, if it is asked at all. -/
theorem create_of_le (h : low.maxDepth ≤ high.maxDepth) {supply : Nat → Json}
    (hlow : ∀ failure, (p.create low supply doc).result = .error failure → ¬ failure.IsDepth) :
    p.create high supply doc = p.create low supply doc := by
  unfold create at hlow ⊢
  cases hc : p.creation? with
  | none => rfl
  | some split =>
    obtain ⟨parent, entry⟩ := split
    simp only [hc] at hlow ⊢
    rw [query_of_le h fun e he => ?_]
    exact hlow (.evaluation e) (by rw [he]; rfl)

theorem set_of_le (h : low.maxDepth ≤ high.maxDepth) {supply : Nat → Json}
    (hlow : ∀ failure, (p.set low supply doc).result = .error failure → ¬ failure.IsDepth) :
    p.set high supply doc = p.set low supply doc := by
  unfold set at hlow ⊢
  rw [targets_of_le h fun e he => hlow (.evaluation e) (by rw [he]; rfl)]
  cases ht : p.targets low doc with
  | error e => rfl
  | ok targets =>
    cases targets with
    | nil =>
      simp only [ht] at hlow ⊢
      exact create_of_le h hlow
    | cons l rest => rfl

theorem remove_of_le (h : low.maxDepth ≤ high.maxDepth)
    (hlow : ∀ failure, (p.remove low doc).result = .error failure → ¬ failure.IsDepth) :
    p.remove high doc = p.remove low doc := by
  unfold remove at hlow ⊢
  rw [targets_of_le h fun e he => hlow (.evaluation e) (by rw [he]; rfl)]

/-- **Raising the limit on depth only makes room.**  Compiling, querying, `set` and `remove`
come out just as with the lower limit, with the same path, matches, document, count or error,
unless that was exceeded. -/
theorem depthLimit_raised (h : low.maxDepth ≤ high.maxDepth) :
    (∀ text, (∀ e, compile low text = .error e → ¬ e.cause.IsDepth) →
      compile high text = compile low text) ∧
    ∀ (p : Path) (doc : Json),
      ((∀ e, p.query low doc = .error e → ¬ e.IsDepth) →
        p.query high doc = p.query low doc) ∧
      (∀ supply, (∀ failure, (p.set low supply doc).result = .error failure → ¬ failure.IsDepth) →
        p.set high supply doc = p.set low supply doc) ∧
      ((∀ failure, (p.remove low doc).result = .error failure → ¬ failure.IsDepth) →
        p.remove high doc = p.remove low doc) :=
  ⟨fun _ => compile_of_le h,
    fun _ _ => ⟨query_of_le h, fun _ => set_of_le h, remove_of_le h⟩⟩

/-- A nested expression, and a deep scan that finds a value, both just within the lower limit:
with one level less both are too deep. -/
theorem depthLimit_raised_two_three :
    let text := "$[?(@.a) == 'b']"
    let p : Path := .mk .root [] [.mk (.descend (some (.name "b"))) []] ""
    let doc : Json := .object [("a", .object [("b", .null)])]
    (compile ⟨3⟩ text = compile ⟨2⟩ text ∧
      p.query ⟨3⟩ doc = p.query ⟨2⟩ doc ∧
      p.set ⟨3⟩ Json.counting doc = p.set ⟨2⟩ Json.counting doc ∧
      p.remove ⟨3⟩ doc = p.remove ⟨2⟩ doc) ∧
    ((∃ q, compile ⟨2⟩ text = .ok q) ∧
      p.query ⟨2⟩ doc = .ok [⟨[.key "a", .key "b"], .null⟩] ∧
      p.set ⟨2⟩ Json.counting doc =
        ⟨.object [("a", .object [("b", Json.counting 0)])], 1, .ok 1⟩ ∧
      p.remove ⟨2⟩ doc = ⟨.object [("a", .object [])], 0, .ok 1⟩) ∧
    compile ⟨1⟩ text = .error ⟨.tooDeep 1, 4, text⟩ ∧
      p.query ⟨1⟩ doc = .error (.tooDeep 1 [.key "a", .key "b"]) := by
  intro text p doc
  have hle : (⟨2⟩ : Options).maxDepth ≤ (⟨3⟩ : Options).maxDepth := by decide
  obtain ⟨q, hcompile, -⟩ := exists_of_any (x := compile ⟨2⟩ text) (P := fun _ => true)
    (by decide +kernel)
  have hquery : p.query ⟨2⟩ doc = .ok [⟨[.key "a", .key "b"], .null⟩] := by cbv
  have hset : p.set ⟨2⟩ Json.counting doc =
      ⟨.object [("a", .object [("b", Json.counting 0)])], 1, .ok 1⟩ := by cbv
  have hremove : p.remove ⟨2⟩ doc = ⟨.object [("a", .object [])], 0, .ok 1⟩ := by cbv
  have hnested : (compile ⟨1⟩ text).map (fun _ => ()) = .error ⟨.tooDeep 1, 4, text⟩ := by
    decide +kernel
  have hdeep : p.query ⟨1⟩ doc = .error (.tooDeep 1 [.key "a", .key "b"]) := by cbv
  obtain ⟨htexts, hpaths⟩ := depthLimit_raised hle
  obtain ⟨hq, hs, hr⟩ := hpaths p doc
  refine ⟨⟨htexts text ?_, hq ?_, hs _ ?_, hr ?_⟩, ⟨⟨q, hcompile⟩, hquery, hset, hremove⟩,
    map_eq_error.mp hnested, hdeep⟩
  · simp [hcompile]
  · simp [hquery]
  · simp [hset]
  · simp [hremove]

end Path
end PathQuery
