import PathQuery.Proofs.Path.Inversion
import PathQuery.Proofs.Path.Reassembly

/-! # The form of compiled paths

`Path.WellFormed` says what the types leave open about a path: where it may start, that
a segment is one wildcard, slice or filter or a list of indexes or of names, that no
slice has step zero, that every step says something, that a bare deep scan comes last,
and that the parts of an expression stand where they may.  Every compiled path is of
this form (`Compiler.path_wellFormed`).
-/

namespace PathQuery

/-- The bare name is not empty and does not end in white space. -/
def KeyTest.Closes : KeyTest → Prop
  | .any => True
  | .name key => ∃ c, key.toList.getLast? = some c ∧ Text.isBlank c = false

/-- The step can do without segments. -/
def Head.Closes : Head → Prop
  | .here => False
  | .child key => key.Closes
  | .descend none => True
  | .descend (some key) => key.Closes

/-- One selector of any kind, or several indexes, or several names. -/
def Selector.Uniform (selectors : List Selector) : Prop :=
  selectors.length = 1 ∨
    selectors ≠ [] ∧ ((∀ s ∈ selectors, ∃ i, s = .index i) ∨ ∀ s ∈ selectors, ∃ key, s = .name key)

mutual

/-- The path has the form that compiled paths have. -/
def Path.WellFormed (nested : Bool) : Path → Prop
  | .mk origin segments steps _ => (origin = .root ∨ nested = true) ∧
    Segment.ListWellFormed segments ∧ Step.ListWellFormed steps

/-- The step has the form of a compiled one. -/
def Step.WellFormed : Step → Prop
  | .mk head segments => (segments = [] → head.Closes) ∧ Segment.ListWellFormed segments

/-- So have all steps, and a bare deep scan is the last of them. -/
def Step.ListWellFormed : List Step → Prop
  | [] => True
  | s :: rest => Step.WellFormed s ∧ (s = .mk (.descend none) [] → rest = []) ∧
    Step.ListWellFormed rest

/-- The segment has the form of a compiled one. -/
def Segment.WellFormed : Segment → Prop
  | .mk selectors => Selector.Uniform selectors ∧ Selector.ListWellFormed selectors

/-- So have all segments. -/
def Segment.ListWellFormed : List Segment → Prop
  | [] => True
  | s :: rest => Segment.WellFormed s ∧ Segment.ListWellFormed rest

/-- The selector has the form of a compiled one. -/
def Selector.WellFormed : Selector → Prop
  | .slice s => s.step ≠ some 0
  | .filter f => Filter.WellFormed .boolean f
  | _ => True

/-- So have all selectors. -/
def Selector.ListWellFormed : List Selector → Prop
  | [] => True
  | s :: rest => Selector.WellFormed s ∧ Selector.ListWellFormed rest

/-- The expression may stand at a position, and so may its parts at theirs. -/
def Filter.WellFormed (position : Compiler.Position) : Filter → Prop
  | .literal _ => True
  | .reference p => position = .value ∧ Path.WellFormed true p
  | .existence p _ => position = .boolean ∧ Path.WellFormed true p
  | .negation f => position = .boolean ∧ Filter.WellFormed .boolean f
  | .arithmetic _ a b => Filter.WellFormed .value a ∧ Filter.WellFormed .value b
  | .comparison _ a b => position = .boolean ∧ Filter.WellFormed .value a ∧
    Filter.WellFormed .value b
  | .logical _ a b => position = .boolean ∧ Filter.WellFormed .boolean a ∧
    Filter.WellFormed .boolean b

end

theorem Segment.listWellFormed_iff {segments : List Segment} :
    Segment.ListWellFormed segments ↔ ∀ s ∈ segments, s.WellFormed := by
  induction segments with
  | nil => simp [Segment.ListWellFormed]
  | cons s rest ih => simp [Segment.ListWellFormed, ih]

theorem Selector.listWellFormed_iff {selectors : List Selector} :
    Selector.ListWellFormed selectors ↔ ∀ s ∈ selectors, s.WellFormed := by
  induction selectors with
  | nil => simp [Selector.ListWellFormed]
  | cons s rest ih => simp [Selector.ListWellFormed, ih]

theorem Step.wellFormed_of_mem {steps : List Step} (h : Step.ListWellFormed steps) {s : Step}
    (hs : s ∈ steps) : s.WellFormed := by
  induction steps with
  | nil => simp at hs
  | cons t rest ih =>
    rcases List.mem_cons.mp hs with rfl | hs
    · exact h.1
    · exact ih h.2.2 hs

/-! ## The pieces of a node -/

namespace NodeParts

/-- A node without segments is its name, in which no escape is left open. -/
theorem split_of_no_bodies {f : Fragment} {parts : NodeParts} (h : split f = .ok parts)
    (hbodies : parts.bodies = []) : parts.name.text = Text.trimEnd f.text ∧
      ∃ marks t, ScanState.initial.walk false f.offset f.text = some (marks, t) ∧
        t.escape = none := by
  obtain ⟨name, segments, htext, hname, hspaced, -⟩ := makeUp_of_split h
  obtain ⟨_, -, h⟩ := bind_eq_ok.mp h
  obtain ⟨⟨⟩, hcheck, -⟩ := bind_eq_ok.mp h
  obtain ⟨marks, hwalk, -⟩ := Fragment.walk_of_check hcheck
  rw [hbodies] at hspaced
  rw [hname, htext, hspaced.trimEnd_append]
  exact ⟨rfl, marks, .initial, htext ▸ hwalk, rfl⟩

end NodeParts

namespace Compiler

/-- The last character of a name that leaves no escape open is the last of its text. -/
theorem getLast?_unescape {text : List Char} {s t : ScanState} {offset : Nat} {marks : List Mark}
    (h : s.walk false offset text = some (marks, t)) (hs : s.escape = none)
    (ht : t.escape = none) : (unescape text).getLast? = text.getLast? := by
  induction text using unescape.induct generalizing s offset marks with
  | case1 => rfl
  | case2 =>
    obtain ⟨after, plain, tail, hstep, htail, -⟩ := ScanState.exists_of_walk_cons h
    obtain ⟨-, rfl⟩ : [] = tail ∧ after = t := by simpa [ScanState.walk] using htail
    simp [ScanState.step_escape hs hstep] at ht
  | case3 c rest ih =>
    obtain ⟨after, plain, tail, hstep, htail, -⟩ := ScanState.exists_of_walk_cons h
    obtain ⟨after', plain', tail', hstep', htail', -⟩ := ScanState.exists_of_walk_cons htail
    have hescape : after.escape.isSome := by simp [ScanState.step_escape hs hstep]
    have hlast := ih htail' (ScanState.step_escaped hescape hstep')
    simp [unescape, List.getLast?_cons, hlast]
  | case4 c rest hc ih =>
    obtain ⟨after, plain, tail, hstep, htail, -⟩ := ScanState.exists_of_walk_cons h
    have hlast := ih htail (by rw [ScanState.step_escape hs hstep, if_neg hc])
    rw [unescape]
    · rw [List.getLast?_cons, List.getLast?_cons, hlast]
    · exact hc

end Compiler

namespace NodeText

theorem trimmed_of_mem_cut {deep : Bool} {start : Nat} {chars : List Char} {marks : List Mark}
    {node : NodeText} (h : node ∈ cut deep start chars marks) :
    Text.Trimmed node.body.text := by
  have hofReversed : ∀ deep start chars, Text.Trimmed (ofReversed deep start chars).body.text :=
    fun _ _ _ => Text.trimmed_trim _
  fun_induction cut deep start chars marks with
  | case1 => exact List.mem_singleton.mp h ▸ hofReversed _ _ _
  | case2 =>
    rcases List.mem_cons.mp h with rfl | h
    · exact hofReversed _ _ _
    · exact List.mem_singleton.mp h ▸ hofReversed _ _ _
  | case3 deep start chars m hdot next after hnext ih =>
    rcases List.mem_cons.mp h with rfl | h
    · exact hofReversed _ _ _
    · exact ih h
  | case4 deep start chars m hdot next after hnext ih =>
    rcases List.mem_cons.mp h with rfl | h
    · exact hofReversed _ _ _
    · exact ih h
  | case5 deep start chars m rest hdot ih => exact ih h

theorem trimmed_of_split {f : Fragment} {nodes : List NodeText} (h : split f = .ok nodes) :
    (∀ node ∈ nodes, Text.Trimmed node.body.text) ∧ checkNonempty nodes = .ok () := by
  obtain ⟨_, -, h⟩ := bind_eq_ok.mp h
  obtain ⟨_, hcheck, h⟩ := bind_eq_ok.mp h
  obtain rfl := Except.ok.inj h
  exact ⟨fun _ => trimmed_of_mem_cut, hcheck⟩

end NodeText

/-! ## Compiled paths are well formed -/

namespace Compiler

variable {limit depth : Nat} {nested : Bool} {f : Fragment} {position : Position}

theorem keyTest?_eq_none {name : List Char} (h : keyTest? name = none) : name = [] := by
  unfold keyTest? at h
  split at h
  · rename_i hempty
    simpa using hempty
  · split at h <;> simp at h

/-- What is known of a node without segments. -/
theorem closes_of_split {node : NodeText} {parts : NodeParts}
    (htrim : Text.Trimmed node.body.text) (h : NodeParts.split node.body = .ok parts)
    (hbodies : parts.bodies = []) :
    parts.name.text = node.body.text ∧
      ∀ key, keyTest? parts.name.text = some key → key.Closes := by
  obtain ⟨hname, marks, t, hwalk, hescape⟩ := NodeParts.split_of_no_bodies h hbodies
  rw [Text.trimEnd_eq_self htrim.last] at hname
  refine ⟨hname, fun key hkey => ?_⟩
  rw [hname] at hkey
  unfold keyTest? at hkey
  split at hkey
  · simp at hkey
  · rename_i hne
    split at hkey
    · obtain rfl := Option.some.inj hkey
      trivial
    · obtain rfl := Option.some.inj hkey
      have hne' : node.body.text ≠ [] := by simpa using hne
      obtain ⟨c, hc⟩ : ∃ c, node.body.text.getLast? = some c :=
        ⟨_, List.getLast?_eq_some_getLast hne'⟩
      refine ⟨c, ?_, htrim.last c hc⟩
      rw [String.toList_ofList, getLast?_unescape hwalk rfl hescape, hc]

theorem length_eq_of_mapM {α β ε : Type} {g : α → Except ε β} {xs : List α} {ys : List β}
    (h : xs.mapM g = .ok ys) : xs.length = ys.length :=
  (mapM_eq_ok.mp h).length_eq

theorem step_closes {node : NodeText} {parts : NodeParts} {segments : List Segment}
    (htrim : Text.Trimmed node.body.text) (hparts : NodeParts.split node.body = .ok parts)
    (hsome : node.deep = true ∨ (keyTest? parts.name.text).isSome = true ∨ parts.bodies ≠ [])
    (hsegments : parts.bodies.mapM (segment limit depth) = .ok segments) (hnil : segments = []) :
    (headOf node.deep (keyTest? parts.name.text)).Closes := by
  have hbodies : parts.bodies = [] := by
    have hlength := length_eq_of_mapM hsegments
    rw [hnil] at hlength
    exact List.length_eq_zero_iff.mp hlength
  obtain ⟨-, hcloses⟩ := closes_of_split htrim hparts hbodies
  unfold headOf
  cases hkey : keyTest? parts.name.text with
  | none =>
    have hdeep : node.deep = true := by simpa [hkey, hbodies] using hsome
    simp [hdeep, Head.Closes]
  | some key =>
    have hclose := hcloses key hkey
    split <;> exact hclose

/-- Nodes that compile to well-formed steps compile to a well-formed list of steps. -/
theorem steps_wellFormed {nodes : List NodeText} {steps : List Step}
    (h : nodes.mapM (step limit depth) = .ok steps)
    (htrim : ∀ node ∈ nodes, Text.Trimmed node.body.text)
    (hcheck : NodeText.checkNonempty nodes = .ok ())
    (hsteps : ∀ node ∈ nodes, ∀ s, step limit depth node = .ok s → s.WellFormed) :
    Step.ListWellFormed steps := by
  induction nodes generalizing steps with
  | nil =>
    obtain rfl : [] = steps := by simpa using mapM_eq_ok.mp h
    trivial
  | cons node rest ih =>
    obtain ⟨s, later, hs, hlater, rfl⟩ := List.forall₂_cons_left_iff.mp (mapM_eq_ok.mp h)
    rw [NodeText.checkNonempty] at hcheck
    split at hcheck
    · simp at hcheck
    · rename_i hnode
      refine ⟨hsteps node (List.mem_cons_self ..) s hs, fun hbare => ?_,
        ih (mapM_eq_ok.mpr hlater) (fun n hn => htrim n (List.mem_cons_of_mem _ hn)) hcheck
          fun n hn => hsteps n (List.mem_cons_of_mem _ hn)⟩
      obtain ⟨parts, segments, -, hparts, -, hsegments, hstep⟩ := step_eq_ok.mp hs
      rw [hbare] at hstep
      obtain ⟨hhead, rfl⟩ := Step.mk.inj hstep
      have hbodies : parts.bodies = [] := List.length_eq_zero_iff.mp (length_eq_of_mapM hsegments)
      obtain ⟨hname, -⟩ := closes_of_split (htrim node (List.mem_cons_self ..)) hparts hbodies
      -- no dots but two and no name: the node is empty, and such a node comes last
      have hempty : node.body.text = [] ∧ node.deep = true := by
        unfold headOf at hhead
        split at hhead
        · rename_i hdeep
          exact ⟨hname ▸ keyTest?_eq_none (Head.descend.inj hhead).symm, hdeep⟩
        · cases hkey : keyTest? parts.name.text <;> simp [hkey] at hhead
      have hlast : rest = [] := by simpa [hempty] using hnode
      subst hlast
      exact List.forall₂_nil_left_iff.mp hlater

theorem splitTop_ne_nil {separator : Char} {parts : List Fragment}
    (h : f.splitTop separator = .ok parts) : parts ≠ [] := by
  obtain ⟨_, -, h⟩ := bind_eq_ok.mp h
  obtain rfl := Except.ok.inj h
  exact Fragment.cutTop_ne_nil

theorem uniform_of_mapM {parts : List Fragment} {selectors : List Selector}
    {g : Fragment → Except Fault Selector} (hne : parts ≠ [])
    (h : parts.mapM g = .ok selectors) {shape : Selector → Prop}
    (hshape : ∀ part s, g part = .ok s → shape s) :
    selectors ≠ [] ∧ ∀ s ∈ selectors, shape s := by
  refine ⟨fun hnil => hne ?_, fun s hs => ?_⟩
  · have hlength := length_eq_of_mapM h
    rw [hnil] at hlength
    exact List.length_eq_zero_iff.mp hlength
  · obtain ⟨part, -, hpart⟩ := exists_of_mem_mapM h hs
    exact hshape part s hpart

theorem exists_of_name {part : Fragment} {s : Selector} (h : name part = .ok s) :
    ∃ key, s = .name key := by
  unfold name at h
  simp only at h
  split at h
  · simp at h
  · obtain ⟨key, -, rfl⟩ := map_eq_ok.mp h
    exact ⟨key, rfl⟩

theorem exists_of_index {part : Fragment} {s : Selector} (h : index part = .ok s) :
    ∃ i, s = .index i := by
  unfold index at h
  split at h
  · rename_i i _
    exact ⟨i, (Except.ok.inj h).symm⟩
  · simp at h

theorem step_of_slice {start stop : Fragment} {step : Option Fragment} {bounds : Slice}
    (h : slice start stop step = .ok bounds) : bounds.step ≠ some 0 := by
  unfold slice at h
  obtain ⟨first, -, h⟩ := bind_eq_ok.mp h
  obtain ⟨last, -, h⟩ := bind_eq_ok.mp h
  cases step with
  | none =>
    obtain rfl := Except.ok.inj h
    simp
  | some step =>
    obtain ⟨stride, -, h⟩ := bind_eq_ok.mp h
    split at h
    · simp at h
    · rename_i hstride
      obtain rfl := Except.ok.inj h
      exact hstride

theorem plainSegment_wellFormed {body : Fragment} {s : Segment}
    (h : plainSegment body = .ok s) : s.WellFormed := by
  -- two parts and three parts are both read as a slice
  have hslice : ∀ {start stop step s}, (do
      let bounds ← slice start stop step
      return Segment.mk [.slice bounds] : Except Fault Segment) = .ok s → s.WellFormed := by
    intro start stop step s h
    obtain ⟨bounds, hbounds, h⟩ := bind_eq_ok.mp h
    obtain rfl := Except.ok.inj h
    exact ⟨Or.inl rfl, step_of_slice hbounds, trivial⟩
  unfold plainSegment at h
  split at h
  · obtain ⟨parts, hparts, h⟩ := bind_eq_ok.mp h
    obtain ⟨selectors, hselectors, h⟩ := bind_eq_ok.mp h
    obtain rfl := Except.ok.inj h
    obtain ⟨hne, hnames⟩ := uniform_of_mapM (splitTop_ne_nil hparts) hselectors
      fun _ _ => exists_of_name
    refine ⟨Or.inr ⟨hne, Or.inr hnames⟩, Selector.listWellFormed_iff.mpr fun s hs => ?_⟩
    obtain ⟨key, rfl⟩ := hnames s hs
    trivial
  · obtain ⟨pieces, hpieces, h⟩ := bind_eq_ok.mp h
    split at h
    · exact hslice h
    · exact hslice h
    · simp at h
    · obtain ⟨parts, hparts, h⟩ := bind_eq_ok.mp h
      split at h
      · obtain ⟨selectors, hselectors, h⟩ := bind_eq_ok.mp h
        obtain rfl := Except.ok.inj h
        obtain ⟨hne, hindexes⟩ := uniform_of_mapM (splitTop_ne_nil hparts) hselectors
          fun _ _ => exists_of_index
        refine ⟨Or.inr ⟨hne, Or.inl hindexes⟩, Selector.listWellFormed_iff.mpr fun s hs => ?_⟩
        obtain ⟨i, rfl⟩ := hindexes s hs
        trivial
      · simp at h

theorem originOf?_nested {text : List Char} {origin : Origin}
    (h : originOf? nested text = some origin) : origin = .root ∨ nested = true := by
  unfold originOf? at h
  split at h
  · exact Or.inl (Option.some.inj h).symm
  · split at h
    · rename_i hnested
      exact Or.inr hnested
    · simp at h
  · simp at h

mutual

/-- **Every compiled path is well formed.** -/
theorem path_wellFormed {limit depth : Nat} {nested : Bool} {f : Fragment} {p : Path}
    (h : path limit depth nested f = .ok p) :
    p.WellFormed nested := by
  obtain ⟨origin, first, rest, parts, segments, steps, horigin, hnodes, hparts, -, hsegments,
    hsteps, rfl⟩ := path_eq_ok.mp h
  obtain ⟨htrim, hcheck⟩ := NodeText.trimmed_of_split hnodes
  have hrest : NodeText.checkNonempty rest = .ok () := by
    rw [NodeText.checkNonempty] at hcheck
    split at hcheck
    · simp at hcheck
    · exact hcheck
  refine ⟨originOf?_nested horigin, Segment.listWellFormed_iff.mpr fun s hs => ?_,
    steps_wellFormed hsteps (fun n hn => htrim n (List.mem_cons_of_mem _ hn)) hrest
      fun node hnode s hs => ?_⟩
  · obtain ⟨body, hbody, hs⟩ := exists_of_mem_mapM hsegments hs
    have := NodeParts.length_of_split hparts hbody
    have := first.body.length_drop_le 1
    have := NodeText.length_of_split hnodes (List.mem_cons_self ..)
    exact segment_wellFormed hs
  · have := NodeText.length_of_split hnodes (List.mem_cons_of_mem _ hnode)
    exact step_wellFormed (htrim node (List.mem_cons_of_mem _ hnode)) hs
termination_by 4 * f.text.length + 1
decreasing_by all_goals omega

theorem step_wellFormed {limit depth : Nat} {node : NodeText} {s : Step}
    (htrim : Text.Trimmed node.body.text) (h : step limit depth node = .ok s) : s.WellFormed := by
  obtain ⟨parts, segments, -, hparts, hsome, hsegments, rfl⟩ := step_eq_ok.mp h
  refine ⟨step_closes htrim hparts hsome hsegments,
    Segment.listWellFormed_iff.mpr fun s hs => ?_⟩
  obtain ⟨body, hbody, hs⟩ := exists_of_mem_mapM hsegments hs
  have := NodeParts.length_of_split hparts hbody
  exact segment_wellFormed hs
termination_by 4 * node.body.text.length
decreasing_by all_goals omega

theorem segment_wellFormed {limit depth : Nat} {inner : Fragment} {s : Segment}
    (h : segment limit depth inner = .ok s) : s.WellFormed := by
  rcases segment_eq_ok.mp h with ⟨-, rfl⟩ | ⟨condition, hq, hcondition, rfl⟩ | ⟨-, -, -, hplain⟩
  · exact ⟨Or.inl rfl, trivial, trivial⟩
  · have := length_drop_one (ne_nil_of_head? hq)
    have := inner.length_trim_le
    exact ⟨Or.inl rfl, expression_wellFormed hcondition, trivial⟩
  · exact plainSegment_wellFormed hplain
termination_by 4 * inner.text.length + 3
decreasing_by all_goals omega

theorem expression_wellFormed {limit depth : Nat} {f : Fragment} {position : Position}
    {e : Filter} (h : expression limit depth position f = .ok e) :
    e.WellFormed position := by
  obtain ⟨-, -, found, hfound, h⟩ := expression_eq_ok.mp h
  have := f.length_trim_le
  rcases h with ⟨-, h⟩ | ⟨o, left, right, hloosest, hpermits, hleft, hright, rfl⟩
  · exact operand_wellFormed h
  -- both operands are shorter than the expression by the operator between them
  · have hmem : o ∈ found := Occurrence.mem_of_loosest (hloosest ▸ List.mem_cons_self ..)
    have := Occurrence.length_left hfound hmem
    have := Occurrence.length_right hfound hmem
    have hl := expression_wellFormed hleft
    have hr := expression_wellFormed hright
    cases hop : o.op with
    | arithmetic op =>
      rw [hop] at hl hr
      exact ⟨hl, hr⟩
    | comparison op =>
      rw [hop] at hl hr hpermits
      cases position with
      | boolean => exact ⟨rfl, hl, hr⟩
      | value =>
        obtain ⟨a, ha⟩ := hpermits
        simp at ha
    | logical op =>
      rw [hop] at hl hr hpermits
      cases position with
      | boolean => exact ⟨rfl, hl, hr⟩
      | value =>
        obtain ⟨a, ha⟩ := hpermits
        simp at ha
termination_by 4 * f.text.length + 3
decreasing_by all_goals omega

theorem operand_wellFormed {limit depth : Nat} {f : Fragment} {position : Position}
    {e : Filter} (h : operand limit depth position f = .ok e) :
    e.WellFormed position := by
  by_cases hn : f.text.head? = some '!'
  · have := length_drop_one (ne_nil_of_head? hn)
    have hstart : (f.drop 1).trimStart.text.length ≤ (f.drop 1).text.length :=
      Text.length_trimStart_le _
    obtain ⟨rfl, ⟨hne, condition, -, hgroup, rfl⟩ | ⟨p, -, hp, rfl⟩⟩ := (negated_eq_ok hn).mp h
    · exact ⟨rfl, group_wellFormed hgroup⟩
    · exact ⟨rfl, path_wellFormed hp⟩
  · rcases (operand_eq_ok hn).mp h with ⟨hne, -, hgroup⟩ | ⟨p, -, hp, rfl⟩ | ⟨l, -, -, -, rfl⟩
    · exact group_wellFormed hgroup
    · have hwf := path_wellFormed hp
      cases position <;> exact ⟨rfl, hwf⟩
    · trivial
termination_by 4 * f.text.length + 2
decreasing_by all_goals omega

theorem group_wellFormed {limit depth : Nat} {f : Fragment} {position : Position}
    {hne : f.text ≠ []} {e : Filter}
    (h : group limit depth position f hne = .ok e) : e.WellFormed position := by
  obtain ⟨close, -, -, hinner⟩ := group_eq_ok.mp h
  have := length_between hne close
  exact expression_wellFormed hinner
termination_by 4 * f.text.length + 1
decreasing_by all_goals omega

end

end Compiler
end PathQuery
