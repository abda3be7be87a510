import PathQuery.CommandLine.Run
import PathQuery.Double.Layout
import PathQuery.Proofs.CommandLine.Words
import PathQuery.Proofs.Json.PrettyText
import PathQuery.Proofs.Outcome

/-! # The program and the text interface answer alike

A request names what the text interface has a function for and the program an option.  Whatever
reads and writes their JSON texts, a run prints what the function answers, or fails where that
fails (`CommandLine.Request.run_answer`): with the same message when the path, the document and
the new value can be read, and otherwise each in its own words.  A run that asks whether anything
matches tells whether the answer would be an empty array (`CommandLine.Request.run_exists`).
-/

namespace PathQuery
namespace CommandLine

/-- What both the program and the text interface can be asked for. -/
inductive Request
  /-- The values of the matches. -/
  | values
  /-- The locations of the matches. -/
  | locations
  /-- The document with the value of this JSON text for every match. -/
  | set (json : String)
  /-- The document without the matches. -/
  | remove
deriving DecidableEq, Repr

/-- How a run ends that answers as the text interface does. -/
def Outcome.ofAnswer : Except String String → Outcome
  | .ok text => .finished 0 (text ++ "\n")
  | .error message => .failed message

/-- A run with these arguments compiles the path with the usual limit and applies it to its
standard input. -/
structure Arguments.AppliesPath (arguments : Arguments) (path : String) : Prop where
  path : arguments.path = path
  limit : Options.mk arguments.maxDepth = {}
  canonical : arguments.canonical = false
  file : arguments.file = none

namespace Request

/-- The options of the program for a request. -/
def options : Request → List String
  | .values => []
  | .locations => ["--paths"]
  | .set json => ["--set=" ++ json]
  | .remove => ["--remove"]

/-- The arguments of the program for a request. -/
def arguments (request : Request) (path : String) : Arguments :=
  match request with
  | .values => { path }
  | .locations => { path, paths := true }
  | .set json => { path, set := some json }
  | .remove => { path, remove := true }

theorem read_options {read : ArgumentReader} (h : read.Lawful) (request : Request)
    (path : String) : read (request.options ++ ["--", path]) = .ok (request.arguments path) := by
  cases request with
  | values => exact h.values path
  | locations => exact h.paths path
  | set json => exact h.set json path
  | remove => exact h.remove path

theorem appliesPath_arguments (request : Request) (path : String) :
    (request.arguments path).AppliesPath path := by
  cases request <;> exact ⟨rfl, rfl, rfl, rfl⟩

/-- The path compiles, and the document and the new value are JSON texts. -/
structure Readable (request : Request) (texts : JsonTexts) (path doc : String) : Prop where
  path : ∃ p, Path.compile {} path = .ok p
  doc : ∃ v, texts.read doc = .ok v
  value : ∀ json, request = .set json → ∃ v, texts.read json = .ok v

section

variable {texts : JsonTexts} {read : ArgumentReader} {request : Request} {path doc : String}

theorem Readable.exists_input (h : request.Readable texts path doc) :
    ∃ input, TextInterface.readInput texts path doc = .ok input := by
  obtain ⟨⟨p, hp⟩, ⟨v, hv⟩, -⟩ := h
  rw [TextInterface.readInput, TextInterface.readJson, hv, hp]
  exact ⟨(p, v), rfl⟩

/-- A document is printed as it is answered. -/
theorem printed_eq_ofAnswer (htexts : texts.Lawful) (v : Json) :
    printed texts false v = .ofAnswer (TextInterface.writeJson texts v) := by
  obtain ⟨text, htext⟩ := htexts.prints v
  simp only [printed, TextInterface.writeJson, htext]
  rfl

variable [DoubleText]

/-- The function of the text interface for a request. -/
def answer (request : Request) (texts : JsonTexts) (path doc : String) : Except String String :=
  match request with
  | .values => TextInterface.query texts path doc
  | .locations => TextInterface.paths texts path doc
  | .set json => TextInterface.set texts path doc json
  | .remove => TextInterface.remove texts path doc

/-! ## Reading -/

/-- A run with these arguments compiles its path and goes on with its standard input. -/
theorem run_of_appliesPath {words : List String} {arguments : Arguments}
    (h : read words = .ok arguments) (hpath : arguments.AppliesPath path) (doc : String)
    (files : String → Except ReadError String) : run texts read words doc files =
      match Path.compile {} path with
      | .error e => .failed ("error compiling path: " ++ e.text)
      | .ok p => resume texts arguments p (.ok doc) := by
  have hplan : start texts read words = plan texts arguments := by rw [start, h]
  rw [run, hplan, plan, hpath.limit, hpath.path, hpath.canonical, hpath.file]
  cases Path.compile {} path with
  | error e => rfl
  | ok p => rfl

/-- **A run fails where the text interface cannot read its path and its document**, and else
does what its arguments say with both.  The text interface reads the document first and the
program compiles the path first, so that they need not stumble over the same text. -/
theorem run_reads {words : List String} {arguments : Arguments} (h : read words = .ok arguments)
    (hpath : arguments.AppliesPath path) (doc : String)
    (files : String → Except ReadError String) :
    (∃ said message, run texts read words doc files = .failed said ∧
        TextInterface.readInput texts path doc = .error message) ∨
      ∃ p v, run texts read words doc files = apply texts arguments p v ∧
        TextInterface.readInput texts path doc = .ok (p, v) := by
  rw [run_of_appliesPath h hpath, TextInterface.readInput, TextInterface.readJson]
  cases Path.compile {} path with
  | error e =>
    cases texts.read doc with
    | error said => exact Or.inl ⟨_, _, rfl, rfl⟩
    | ok v => exact Or.inl ⟨_, _, rfl, rfl⟩
  | ok p =>
    simp only [resume]
    cases texts.read doc with
    | error said => exact Or.inl ⟨_, _, rfl, rfl⟩
    | ok v => exact Or.inr ⟨p, v, rfl, rfl⟩

theorem answer_of_readInput (request : Request) {message : String}
    (h : TextInterface.readInput texts path doc = .error message) :
    request.answer texts path doc = .error message := by
  cases request <;>
    simp only [answer, TextInterface.query, TextInterface.paths, TextInterface.set,
      TextInterface.remove, h, bind, Except.bind]

/-! ## Printing -/

/-- The matches are printed as they are answered, and so is the reason why there are none. -/
theorem ofAnswer_found (htexts : texts.Lawful) (result : Except EvalError (List Match))
    (shown : List Match → Json) :
    (match result with
      | .ok found => printed texts false (shown found)
      | .error e => notApplied e) =
      .ofAnswer (do
        let found ← result.mapError TextInterface.wording
        TextInterface.writeJson texts (shown found)) := by
  cases result with
  | ok found => exact printed_eq_ofAnswer htexts (shown found)
  | error e => rfl

theorem ofAnswer_edited (htexts : texts.Lawful) (edit : Edit) : edited texts false edit =
    .ofAnswer (do
      let changed ← TextInterface.documentOf edit
      TextInterface.writeJson texts changed) := by
  rw [edited]
  cases TextInterface.documentOf edit with
  | ok changed => exact printed_eq_ofAnswer htexts changed
  | error message => rfl

/-! ## Answers -/

/-- **What a run does with a path and a document is what the text interface answers**, unless
the new value is no JSON text. -/
theorem apply_eq_ofAnswer (htexts : texts.Lawful) {p : Path} {v : Json}
    (hinput : TextInterface.readInput texts path doc = .ok (p, v))
    (hvalue : ∀ json, request = .set json → ∃ value, texts.read json = .ok value) :
    apply texts (request.arguments path) p v = .ofAnswer (request.answer texts path doc) := by
  cases request with
  | values =>
    rw [answer, TextInterface.query, hinput]
    exact ofAnswer_found htexts (p.query {} v) TextInterface.valuesOf
  | locations =>
    rw [answer, TextInterface.paths, hinput]
    exact ofAnswer_found htexts (p.query {} v) TextInterface.locationsOf
  | set json =>
    obtain ⟨value, hjson⟩ := hvalue json rfl
    have hread : TextInterface.readJson texts json = .ok value := by
      rw [TextInterface.readJson, hjson]
      rfl
    have happly : apply texts (arguments (.set json) path) p v =
        edited texts false (p.set {} value.always v) := by
      simp only [apply, arguments, hjson, Bool.false_eq_true, if_false]
    rw [happly, ofAnswer_edited htexts, answer, TextInterface.set, hinput]
    simp only [hread, bind, Except.bind]
  | remove =>
    rw [answer, TextInterface.remove, hinput]
    exact ofAnswer_edited htexts (p.remove {} v)

theorem apply_set_of_unreadable {json reason : String} {p : Path} {v : Json}
    (hinput : TextInterface.readInput texts path doc = .ok (p, v))
    (hjson : texts.read json = .error reason) :
    (∃ said, apply texts (arguments (.set json) path) p v = .failed said) ∧
      ∃ message, (Request.set json).answer texts path doc = .error message := by
  have hread : TextInterface.readJson texts json = .error ("JSON parse error: " ++ reason) := by
    rw [TextInterface.readJson, hjson]
    rfl
  rw [answer, TextInterface.set, hinput]
  simp only [apply, arguments, hjson, hread, bind, Except.bind]
  exact ⟨⟨_, rfl⟩, _, rfl⟩

/-- **A run prints what the text interface answers, or fails where that fails**: with the same
message if all can be read, and else each in its own words. -/
theorem run_answer (htexts : texts.Lawful) (hread : read.Lawful) (request : Request)
    (path doc : String) (files : String → Except ReadError String) :
    (∃ text, request.answer texts path doc = .ok text ∧
        run texts read (request.options ++ ["--", path]) doc files =
          .finished 0 (text ++ "\n")) ∨
      ∃ message said, request.answer texts path doc = .error message ∧
        run texts read (request.options ++ ["--", path]) doc files = .failed said ∧
          (request.Readable texts path doc → said = message) := by
  rcases run_reads (read_options hread request path) (request.appliesPath_arguments path) doc files
    with ⟨said, message, hrun, hinput⟩ | ⟨p, v, hrun, hinput⟩
  · refine Or.inr ⟨message, said, answer_of_readInput request hinput, hrun, fun hreadable => ?_⟩
    obtain ⟨input, hok⟩ := hreadable.exists_input
    cases hinput.symm.trans hok
  · by_cases hvalue : ∀ json, request = .set json → ∃ value, texts.read json = .ok value
    · rw [hrun, apply_eq_ofAnswer htexts hinput hvalue]
      cases request.answer texts path doc with
      | ok text => exact Or.inl ⟨text, rfl, rfl⟩
      | error message => exact Or.inr ⟨message, message, rfl, rfl, fun _ => rfl⟩
    · push Not at hvalue
      obtain ⟨json, rfl, hnone⟩ := hvalue
      obtain ⟨reason, hjson⟩ : ∃ reason, texts.read json = .error reason := by
        cases hread : texts.read json with
        | ok value => exact absurd hread (hnone value)
        | error reason => exact ⟨reason, rfl⟩
      obtain ⟨⟨said, hfails⟩, message, hanswer⟩ := apply_set_of_unreadable hinput hjson
      refine Or.inr ⟨message, said, hanswer, hrun.trans hfails, fun hreadable => ?_⟩
      obtain ⟨value, hsome⟩ := hreadable.value json rfl
      exact absurd hsome (hnone value)

/-- A run that asks whether anything matches fails or tells whether the text interface answers
with values. -/
theorem run_exists (htexts : texts.Lawful) (hread : read.Lawful) (path doc : String)
    (files : String → Except ReadError String) :
    (∃ said message, run texts read ["--exists", "--", path] doc files = .failed said ∧
        TextInterface.query texts path doc = .error message) ∨
      ∃ values text, TextInterface.query texts path doc = .ok text ∧
        texts.pretty (.array values) = .ok text ∧
        run texts read ["--exists", "--", path] doc files =
          if values = [] then .finished 1 "false\n" else .finished 0 "true\n" := by
  rcases run_reads (hread.exist path) ⟨rfl, rfl, rfl, rfl⟩ doc files with
    ⟨said, message, hrun, hinput⟩ | ⟨p, v, hrun, hinput⟩
  · exact Or.inl ⟨said, message, hrun, answer_of_readInput .values hinput⟩
  · have hquery : TextInterface.query texts path doc = (do
        let found ← (p.query {} v).mapError TextInterface.wording
        TextInterface.writeJson texts (TextInterface.valuesOf found)) := by
      rw [TextInterface.query, hinput]
      rfl
    have hcontains : p.contains ⟨({} : Options).maxDepth⟩ v =
        (p.query {} v).map fun found => !found.isEmpty := rfl
    rw [hrun, hquery]
    simp only [apply, hcontains, if_true]
    cases p.query {} v with
    | error e => exact Or.inl ⟨_, _, rfl, rfl⟩
    | ok found =>
      obtain ⟨text, htext⟩ := htexts.prints (TextInterface.valuesOf found)
      refine Or.inr ⟨found.map Match.value, text, ?_, htext, ?_⟩
      · simp only [Except.mapError, TextInterface.writeJson, htext, bind, Except.bind]
      · cases found with
        | nil => rfl
        | cons m rest => rfl

/-! ## The two programs -/

/-- **The program answers as the text interface does**: it prints the same text, or fails where
the text interface fails, with the same message if all the texts can be read.  Asked whether
anything matches, it tells an array with values from an empty one. -/
theorem answers_agree (htexts : texts.Lawful) (hread : read.Lawful) (request : Request)
    (path doc : String) (files : String → Except ReadError String) :
    let outcome := run texts read (request.options ++ ["--", path]) doc files
    let found := run texts read ["--exists", "--", path] doc files
    ((outcome.code = 0 ↔ ∃ text, request.answer texts path doc = .ok text) ∧
      (∀ text, request.answer texts path doc = .ok text → outcome.output = text ++ "\n") ∧
      ∀ message, request.answer texts path doc = .error message →
        outcome.code = 2 ∧ outcome.output = "" ∧
          (request.Readable texts path doc → outcome = .failed message)) ∧
    ((found.code = 0 ∨ found.code = 1) ↔
        ∃ text, TextInterface.query texts path doc = .ok text) ∧
      (found.code = 0 ↔ ∃ values, values ≠ [] ∧
        TextInterface.query texts path doc = texts.pretty (.array values)) ∧
      (found.code = 1 ↔ TextInterface.query texts path doc = .ok "[]") := by
  intro outcome found
  refine ⟨?_, ?_⟩
  · rcases run_answer htexts hread request path doc files with
      ⟨text, hanswer, hrun⟩ | ⟨message, said, hanswer, hrun, hsaid⟩
    · simp [outcome, hanswer, hrun, Outcome.code, Outcome.output]
    · simpa [outcome, hanswer, hrun, Outcome.code, Outcome.output] using hsaid
  · rcases run_exists htexts hread path doc files with
      ⟨said, message, hrun, hanswer⟩ | ⟨values, text, hanswer, htext, hrun⟩
    · have hprints : ∀ values, ¬Except.error message = texts.pretty (.array values) := by
        intro values hvalues
        obtain ⟨text, htext⟩ := htexts.prints (.array values)
        cases hvalues.trans htext
      simp [found, hanswer, hrun, Outcome.code, hprints]
    · have hempty : text = "[]" ↔ values = [] := by
        rw [← htexts.empty values, htext, Except.ok.injEq]
      rcases eq_or_ne values [] with rfl | hvalues
      · -- another array with this text is empty as well
        have hnone : ∀ other, other ≠ [] → ¬Except.ok text = texts.pretty (.array other) := by
          intro other hother htext
          rw [hempty.mpr rfl] at htext
          exact hother ((htexts.empty other).mp htext.symm)
        simpa [found, hanswer, hrun, Outcome.code, hempty] using hnone
      · have hsome : ∃ other, other ≠ [] ∧ Except.ok text = texts.pretty (.array other) :=
          ⟨values, hvalues, htext.symm⟩
        simpa [found, hanswer, hrun, Outcome.code, hvalues, hempty] using hsome

end

/-- Both find the number and its location, and neither can go on below it. -/
theorem answers_agree_below_a_number :
    let doc := "\x7b\"a\":1\x7d"
    let run := fun words => run .standard readArguments words doc fun _ => .error .missing
    Request.Readable (.set "2") .standard "$.a.b" doc ∧
      run ["--set=2", "--", "$.a.b"] =
        .failed "evaluation error: cannot select 'b' from the primitive at $['a']" ∧
      (run ["--paths", "--", "$.a"]).output = "[\n  \"$['a']\"\n]\n" ∧
      (run ["--exists", "--", "$.a"]).code = 0 := by
  intro doc run
  have hset := answers_agree JsonTexts.standard_lawful readArguments_lawful (.set "2") "$.a.b" doc
    fun _ => .error .missing
  have hlocations := answers_agree JsonTexts.standard_lawful readArguments_lawful .locations "$.a"
    doc fun _ => .error .missing
  have hread : Request.Readable (.set "2") .standard "$.a.b" doc := by
    refine ⟨?_, ?_, ?_⟩
    · obtain ⟨p, hp, -⟩ := exists_of_any (x := Path.compile {} "$.a.b") (P := fun _ => true)
        (by decide +kernel)
      exact ⟨p, hp⟩
    · obtain ⟨v, hv, -⟩ := exists_of_any (x := JsonTexts.standard.read doc) (P := fun _ => true)
        (by decide +kernel)
      exact ⟨v, hv⟩
    · rintro _ ⟨⟩
      obtain ⟨v, hv, -⟩ := exists_of_any (x := JsonTexts.standard.read "2") (P := fun _ => true)
        (by decide +kernel)
      exact ⟨v, hv⟩
  have hfails : Request.answer (.set "2") .standard "$.a.b" doc =
      .error "evaluation error: cannot select 'b' from the primitive at $['a']" := by
    decide +kernel
  have hanswer : Request.answer .locations .standard "$.a" doc =
      .ok "[\n  \"$['a']\"\n]" := by
    decide +kernel
  have hquery : TextInterface.query .standard "$.a" doc =
      JsonTexts.standard.pretty (.array [.number (.ofInt64 1)]) := by
    decide +kernel
  refine ⟨hread, (hset.1.2.2 _ hfails).2.2 hread, hlocations.1.2.1 _ hanswer, ?_⟩
  exact hlocations.2.2.1.mpr ⟨_, List.cons_ne_nil _ _, hquery⟩

end Request
end CommandLine
end PathQuery
