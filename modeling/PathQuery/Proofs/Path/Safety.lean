import PathQuery.Proofs.Path.Bytewise

/-! # Compiling is safe

On every text the compiler comes out with a path or with an error at a boundary of that text.
Run on byte offsets it is never stuck and comes out the same, so each slice is in range and
cuts through no character, and each stage is given the slice that its offset says
(`Path.compile_safe`).  The sources of the references in filters are slices too.
-/

namespace PathQuery

/-! ## References -/

mutual

/-- The references in the filters of a path, and the references in theirs. -/
def Path.references : Path → List Path
  | .mk _ segments steps _ => Segment.listReferences segments ++ Step.listReferences steps

/-- The references in the filters of a step. -/
def Step.references : Step → List Path
  | .mk _ segments => Segment.listReferences segments

/-- The references in the filters of steps. -/
def Step.listReferences : List Step → List Path
  | [] => []
  | s :: rest => s.references ++ Step.listReferences rest

/-- The references in the filters of a segment. -/
def Segment.references : Segment → List Path
  | .mk selectors => Selector.listReferences selectors

/-- The references in the filters of segments. -/
def Segment.listReferences : List Segment → List Path
  | [] => []
  | s :: rest => s.references ++ Segment.listReferences rest

/-- The references in a filter. -/
def Selector.references : Selector → List Path
  | .filter condition => condition.references
  | _ => []

/-- The references in filters. -/
def Selector.listReferences : List Selector → List Path
  | [] => []
  | s :: rest => s.references ++ Selector.listReferences rest

/-- The references in an expression. -/
def Filter.references : Filter → List Path
  | .literal _ => []
  | .reference p => p :: p.references
  | .existence p _ => p :: p.references
  | .negation f => f.references
  | .arithmetic _ a b => a.references ++ b.references
  | .comparison _ a b => a.references ++ b.references
  | .logical _ a b => a.references ++ b.references

end

theorem Step.listReferences_eq (steps : List Step) :
    Step.listReferences steps = steps.flatMap Step.references := by
  induction steps with
  | nil => rfl
  | cons s rest ih => rw [Step.listReferences, ih, List.flatMap_cons]

theorem Segment.listReferences_eq (segments : List Segment) :
    Segment.listReferences segments = segments.flatMap Segment.references := by
  induction segments with
  | nil => rfl
  | cons s rest ih => rw [Segment.listReferences, ih, List.flatMap_cons]

theorem Selector.listReferences_eq (selectors : List Selector) :
    Selector.listReferences selectors = selectors.flatMap Selector.references := by
  induction selectors with
  | nil => rfl
  | cons s rest ih => rw [Selector.listReferences, ih, List.flatMap_cons]

/-- Of every reference, the text that it was compiled from is a piece of the source. -/
def Sourced (source : List Char) (references : List Path) : Prop :=
  ∀ r ∈ references, ∃ f : Fragment, f.Within source ∧ r.source = f.toString

section
variable {source : List Char}

@[simp] theorem sourced_nil : Sourced source [] := by
  simp [Sourced]

theorem sourced_append {a b : List Path} :
    Sourced source (a ++ b) ↔ Sourced source a ∧ Sourced source b :=
  List.forall_mem_append

theorem sourced_flatMap {α : Type} {items : List α} {each : α → List Path}
    (h : ∀ a ∈ items, Sourced source (each a)) : Sourced source (items.flatMap each) := by
  intro r hr
  obtain ⟨a, ha, hr⟩ := List.mem_flatMap.mp hr
  exact h a ha r hr

theorem Segment.sourced {segments : List Segment}
    (h : ∀ s ∈ segments, Sourced source s.references) :
    Sourced source (Segment.listReferences segments) := by
  rw [Segment.listReferences_eq]
  exact sourced_flatMap h

theorem Step.sourced {steps : List Step} (h : ∀ s ∈ steps, Sourced source s.references) :
    Sourced source (Step.listReferences steps) := by
  rw [Step.listReferences_eq]
  exact sourced_flatMap h

theorem Selector.sourced {selectors : List Selector}
    (h : ∀ s ∈ selectors, Sourced source s.references) :
    Sourced source (Segment.mk selectors).references := by
  rw [Segment.references, Selector.listReferences_eq]
  exact sourced_flatMap h

end

namespace Bytewise
open Compiler Slicing

variable {source : List Char} {f : Fragment}

/-! ## Stages without filters -/

theorem position_of_literal {e : Fault} (hq : ¬(f.text.head? = some '\'' ∨ f.text.head? = some '"'))
    (h : Compiler.literal f = .error e) : e.position = f.offset := by
  unfold Compiler.literal number at h
  rw [if_neg hq] at h
  grind [Except.map]

theorem literal_safe (hf : f.Within source) :
    (literal source f).Safe source (Compiler.literal f) fun _ => True := by
  refine .receive hf ?_
  by_cases hq : f.text.head? = some '\'' ∨ f.text.head? = some '"'
  · rw [if_pos hq, Compiler.literal, if_pos hq]
    exact (Quoted.decodeBytes_safe hf).map fun _ _ => trivial
  · rw [if_neg hq]
    exact .ofOutcome (fun e he => position_of_literal hq he ▸ hf.boundary) fun _ _ => trivial

theorem name_safe (hf : f.Within source) : (name source f).Safe source (Compiler.name f)
    fun s => Sourced source s.references := by
  unfold name Compiler.name
  simp only
  split
  · exact .throw hf.trim.boundary
  · refine .receive hf.trim ?_
    exact (Quoted.decodeBytes_safe hf.trim).map fun _ _ => sourced_nil

theorem index_safe (hf : f.Within source) : (ofOutcome (index f)).Safe source (index f)
    fun s => Sourced source s.references := by
  unfold index
  split
  · exact .pure sourced_nil
  · exact .throw hf.boundary

theorem bound_safe {which : SliceBound} (hf : f.Within source) :
    (ofOutcome (bound which f)).Safe source (bound which f) fun _ => True := by
  unfold bound
  simp only
  split
  · exact .pure trivial
  · split
    · exact .pure trivial
    · exact .throw hf.boundary

theorem slice_safe {start stop : Fragment} {step : Option Fragment} (hstart : start.Within source)
    (hstop : stop.Within source) (hstep : ∀ s ∈ step, s.Within source) :
    (ofOutcome (slice start stop step)).Safe source (slice start stop step) fun _ => True := by
  refine .ofOutcome (fun e he => ?_) fun _ _ => trivial
  rcases bind_eq_error.mp he with he | ⟨first, -, he⟩
  · exact (bound_safe hstart).fault e he
  rcases bind_eq_error.mp he with he | ⟨last, -, he⟩
  · exact (bound_safe hstop).fault e he
  cases step with
  | none => cases he
  | some step =>
    have hstep := hstep step rfl
    rcases bind_eq_error.mp he with he | ⟨stride, -, he⟩
    · exact (bound_safe hstep).fault e he
    · split at he
      · exact Except.error.inj he ▸ hstep.boundary
      · cases he

theorem indexList_safe (hf : f.Within source) :
    (indexList f).Safe source (do
      let parts ← f.splitTop ','
      if parts.all fun part => isIndexText part.trim.text then
        return .mk (← parts.mapM index)
      else .error ⟨.unknownSelector f.text, f.offset⟩)
      fun s => Sourced source s.references := by
  refine (Fragment.splitTopBytes_safe hf).bind fun parts hparts => ?_
  split
  · refine (Safe.mapM fun part hpart => index_safe (hparts part hpart)).bind
      fun indexes hindexes => ?_
    exact .pure (Selector.sourced hindexes)
  · exact .throw hf.boundary

theorem plainSegment_safe (hf : f.Within source) :
    (plainSegment source f).Safe source (Compiler.plainSegment f)
      fun s => Sourced source s.references := by
  have hslice : ∀ bounds : Slice, Sourced source (Segment.mk [.slice bounds]).references :=
    fun bounds => Selector.sourced (by simp [Selector.references])
  refine .receive hf ?_
  unfold Compiler.plainSegment
  split
  · refine (Fragment.splitTopBytes_safe hf).bind fun parts hparts => ?_
    refine (Safe.mapM fun part hpart => name_safe (hparts part hpart)).bind fun names hnames => ?_
    exact .pure (Selector.sourced hnames)
  · refine (Fragment.splitTopBytes_safe hf).bind fun parts hparts => ?_
    -- one case for each number of parts that a slice or a list of indexes may have
    match parts, hparts with
    | [], _ => exact indexList_safe hf
    | [_], _ => exact indexList_safe hf
    | [start, stop], hparts =>
      simp only [List.forall_mem_cons] at hparts
      exact (slice_safe hparts.1 hparts.2.1 (by simp)).bind fun bounds _ => .pure (hslice bounds)
    | [start, stop, step], hparts =>
      simp only [List.forall_mem_cons] at hparts
      refine (slice_safe hparts.1 hparts.2.1 fun _ hs => ?_).bind fun bounds _ =>
        .pure (hslice bounds)
      exact Option.some.inj hs ▸ hparts.2.2.1
    | _ :: _ :: _ :: _ :: _, _ => exact .throw hf.boundary

/-! ## Paths and expressions -/

theorem sourced_binary {op : Operator} {a b : Filter} (ha : Sourced source a.references)
    (hb : Sourced source b.references) : Sourced source (binary op a b).references := by
  cases op <;> exact sourced_append.mpr ⟨ha, hb⟩

/-- A path that stands in an expression is one of its references. -/
theorem sourced_cons {p : Path} (hf : f.Within source)
    (h : p.source = f.toString ∧ Sourced source p.references) :
    Sourced source (p :: p.references) :=
  List.forall_mem_cons.mpr ⟨⟨f, hf, h.1⟩, h.2⟩

mutual

/-- **Compiling a path is safe.** -/
theorem path_safe {limit depth : Nat} {nested : Bool} {f : Fragment} (hf : f.Within source) :
    (path source limit depth nested f).Safe source (Compiler.path limit depth nested f)
      fun p => p.source = f.toString ∧ Sourced source p.references := by
  rw [path, Compiler.path_eq]
  refine .receive hf ?_
  split
  · exact .throw hf.boundary
  · rename_i origin horigin
    refine (NodeText.splitBytes_safe hf).attach fun nodes hnodes hwithin => ?_
    obtain ⟨nodes, hrun⟩ := nodes
    cases nodes with
    | nil => exact .throw hf.boundary
    | cons first rest =>
      rw [List.forall_mem_cons] at hwithin
      have hfirst : (first.body.drop 1).Within source := hwithin.1.drop 1
      refine .receive hfirst ?_
      refine (NodeParts.splitBytes_safe hfirst).attach fun parts hparts hpieces => ?_
      obtain ⟨hname, hbodies⟩ := hpieces
      dsimp only
      split
      · exact .throw (hname ▸ hfirst.boundary)
      · refine (Safe.mapM_attach fun body hbody => ?_).bind fun segments hsegments =>
          (Safe.mapM_attach fun node hnode => ?_).bind fun steps hsteps =>
            .pure ⟨rfl, sourced_append.mpr ⟨Segment.sourced hsegments, Step.sourced hsteps⟩⟩
        · have := NodeParts.length_of_split hparts hbody
          have := first.body.length_drop_le 1
          have := NodeText.length_of_split hnodes (List.mem_cons_self ..)
          exact segment_safe (hbodies body hbody)
        · have := NodeText.length_of_split hnodes (List.mem_cons_of_mem _ hnode)
          exact step_safe (hwithin.2 node hnode)
termination_by 4 * f.text.length + 1
decreasing_by all_goals omega

theorem step_safe {limit depth : Nat} {node : NodeText} (hf : node.body.Within source) :
    (step source limit depth node).Safe source (Compiler.step limit depth node)
      fun s => Sourced source s.references := by
  rw [step, Compiler.step_eq]
  split
  · exact .throw hf.boundary
  · refine .receive hf ?_
    refine (NodeParts.splitBytes_safe hf).attach fun parts hparts hpieces => ?_
    obtain ⟨-, hbodies⟩ := hpieces
    dsimp only
    split
    · exact .throw hf.boundary
    · refine (Safe.mapM_attach fun body hbody => ?_).bind fun segments hsegments =>
        .pure (Segment.sourced hsegments)
      have := NodeParts.length_of_split hparts hbody
      exact segment_safe (hbodies body hbody)
termination_by 4 * node.body.text.length
decreasing_by all_goals omega

theorem segment_safe {limit depth : Nat} {inner : Fragment} (hf : inner.Within source) :
    (segment source limit depth inner).Safe source (Compiler.segment limit depth inner)
      fun s => Sourced source s.references := by
  rw [segment, Compiler.segment]
  refine .receive hf ?_
  have hbody := hf.trim
  dsimp only
  split
  · exact .throw hbody.boundary
  · split
    · exact .pure (Selector.sourced (by simp [Selector.references]))
    · split
      · rename_i hq
        have := length_drop_one (ne_nil_of_head? hq)
        have := inner.length_trim_le
        exact (expression_safe (hbody.drop 1)).map fun condition hcondition =>
          Selector.sourced (by simpa [Selector.references] using hcondition)
      · exact plainSegment_safe hbody
termination_by 4 * inner.text.length + 3
decreasing_by all_goals omega

theorem expression_safe {limit depth : Nat} {position : Position} {f : Fragment}
    (hf : f.Within source) :
    (expression source limit depth position f).Safe source
      (Compiler.expression limit depth position f) fun e => Sourced source e.references := by
  rw [expression, Compiler.expression_eq]
  refine .receive hf ?_
  have hlength := f.length_trim_le
  have htrim := hf.trim
  split
  · exact .throw hf.boundary
  · split
    · exact .throw htrim.boundary
    · refine .receive htrim ?_
      refine (Fragment.operatorsBytes_safe htrim).attach fun found hfound hplaces => ?_
      obtain ⟨found, hrun⟩ := found
      dsimp only
      split
      · rename_i hloosest
        rw [hloosest]
        exact operand_safe htrim
      · rename_i first next tail hloosest
        rw [hloosest]
        have hnext : next ∈ found := Occurrence.mem_of_loosest
          (hloosest ▸ List.mem_cons_of_mem _ (List.mem_cons_self ..))
        exact .throw ((hplaces next hnext).boundary htrim)
      · rename_i o hloosest
        rw [hloosest]
        have ho : o ∈ found := Occurrence.mem_of_loosest (hloosest ▸ List.mem_cons_self ..)
        have hplace := hplaces o ho
        refine .slice_attach hplace.slice?_left (.slice_attach hplace.slice?_right ?_)
        have := Occurrence.length_left hfound ho
        have := Occurrence.length_right hfound ho
        dsimp only
        split
        · exact .throw (hplace.boundary htrim)
        · refine (expression_safe (htrim.slice? hplace.slice?_left)).bind fun first hleft =>
            (expression_safe (htrim.slice? hplace.slice?_right)).bind fun second hright => ?_
          exact .pure (sourced_binary hleft hright)
termination_by 4 * f.text.length + 3
decreasing_by all_goals omega

theorem operand_safe {limit depth : Nat} {position : Position} {f : Fragment}
    (hf : f.Within source) :
    (operand source limit depth position f).Safe source
      (Compiler.operand limit depth position f) fun e => Sourced source e.references := by
  rw [operand, Compiler.operand]
  refine .receive hf ?_
  dsimp only
  split
  · rename_i hn
    have hlength := length_drop_one (ne_nil_of_head? hn)
    have hshort : (f.drop 1).trimStart.text.length ≤ (f.drop 1).text.length :=
      Text.length_trimStart_le _
    have hrest := (hf.drop 1).trimStart
    split
    · exact .throw hf.boundary
    · split
      · rename_i hg
        exact (group_safe hrest hg).map fun _ h => h
      · split
        · exact (path_safe hrest).map fun _ h => sourced_cons hrest h
        · exact .throw hf.boundary
  · split
    · rename_i hg
      exact group_safe hf hg
    · split
      · cases position <;> exact (path_safe hf).map fun _ h => sourced_cons hf h
      · exact (literal_safe hf).map fun _ _ => sourced_nil
termination_by 4 * f.text.length + 2
decreasing_by all_goals omega

theorem group_safe {limit depth : Nat} {position : Position} {f : Fragment}
    (hf : f.Within source) (hopen : f.text.head? = some '(') :
    (group source limit depth position f hopen).Safe source
      (Compiler.group limit depth position f (ne_nil_of_head? hopen))
      fun e => Sourced source e.references := by
  rw [group, Compiler.group_eq]
  refine .receive hf ?_
  refine (Fragment.groupBytes_safe hf hopen).attach fun pieces hpieces hwithin => ?_
  have hlength := length_of_group hopen pieces.2
  dsimp only
  split
  · exact .throw hwithin.2.boundary
  · exact expression_safe hwithin.1
termination_by 4 * f.text.length + 1
decreasing_by all_goals omega

end

end Bytewise

/-- **Compiling is safe on every text.**  It ends with a path, whose references were compiled
from pieces of the text, or with an error at a boundary of the text.  Done on byte offsets it
ends in the same way and is never stuck: every slice on the way is in range and cuts through
no character, and every stage is given the slice of the text that starts at its offset. -/
theorem Path.compile_safe (options : Options) (text : String) :
    Bytewise.compile options text = some (Path.compile options text) ∧
      ((∃ p, Path.compile options text = .ok p ∧ p.source = text ∧
          ∀ r ∈ p.references, ∃ before after, text = before ++ r.source ++ after) ∨
        ∃ e, Path.compile options text = .error e ∧ e.source = text ∧
          e.position ≤ text.utf8ByteSize ∧ String.Pos.Raw.IsValid text ⟨e.position⟩) := by
  have hwithin : (⟨text.toList, 0⟩ : Fragment).Within text.toList := ⟨[], [], by simp, rfl⟩
  have hsafe : (Bytewise.path text.toList options.maxDepth 0 false ⟨text.toList, 0⟩).Safe _
      (Compiler.path options.maxDepth 0 false ⟨text.toList, 0⟩) _ := Bytewise.path_safe hwithin
  obtain ⟨hrun, hfault, hgood⟩ := hsafe
  constructor
  · rw [Bytewise.compile, hrun]
    rfl
  · cases hcompile : Compiler.path options.maxDepth 0 false ⟨text.toList, 0⟩ with
    | ok p =>
      obtain ⟨hsource, hreferences⟩ := hgood p hcompile
      refine Or.inl ⟨p, Path.compile_eq_ok.mpr hcompile, ?_, fun r hr => ?_⟩
      · rw [hsource, Fragment.toString, String.ofList_toList]
      · obtain ⟨f, ⟨before, after, htext, -⟩, hr⟩ := hreferences r hr
        refine ⟨String.ofList before, String.ofList after, ?_⟩
        rw [hr, Fragment.toString, ← String.ofList_append, ← String.ofList_append, ← htext,
          String.ofList_toList]
    | error e =>
      refine Or.inr ⟨⟨e.cause, e.position, text⟩, ?_, rfl, (hfault e hcompile).isValid⟩
      rw [Path.compile, hcompile]
      rfl

/-! Behind two letters of two bytes each, an operand is missing at offset 13. -/

example : (match Path.compile {} "$.é[?@.ü == ]" with
    | .ok _ => none
    | .error e => some (e.cause, e.position)) = some (.emptyExpression, 13) := by
  decide +kernel

end PathQuery
