import PathQuery.Path.Equality
import PathQuery.Proofs.Path.Inversion
import PathQuery.Proofs.Path.PrintedEnds

/-! # Reading back the steps of a path

The canonical text of a well-formed step is one node, which is cut into the name of the
step, trimmed, and the bodies of its segments (`Step.split_text`).  The name is read back
exactly if it is faithful (`Head.read_iff`).
-/

namespace PathQuery

variable {c : Char}

/-! ## Names -/

namespace KeyTest

/-- **A bare name is read back exactly if it is not empty and trimmed.** -/
theorem read_iff (key : KeyTest) :
    Compiler.keyTest? (Text.trim key.chars) = some key ↔ key.isFaithful = true := by
  cases key with
  | any => exact ⟨fun _ => rfl, fun _ => rfl⟩
  | name key =>
    have hread := (writes_nameChars key).trim.keyTest?_eq
    rw [chars, hread, isFaithful]
    by_cases hempty : key.toList = []
    · simp [hempty, Text.trim, Text.trimStart, Text.trimEnd]
    · constructor
      · intro h
        split at h
        · simp at h
        · have heq : String.ofList (Text.trim key.toList) = key := by simpa using h
          have htrim : Text.trim key.toList = key.toList := by
            rw [← String.toList_ofList (l := Text.trim key.toList), heq]
          simp [hempty, htrim]
      · intro h
        have htrim : Text.trim key.toList = key.toList := by simpa [hempty] using h
        rw [htrim, if_neg hempty, String.ofList_toList]

theorem Writes.head {text name : List Char} (h : Writes text name) (hc : text.head? = some c) :
    c = '\\' ∨ name.head? = some c := by
  cases h with
  | nil => simp at hc
  | plain special rest => exact Or.inr hc
  | escaped blank rest => exact Or.inl (Option.some.inj hc).symm

/-- A faithful name does not start with white space, nor with a marker. -/
theorem head_chars {key : KeyTest} (h : key.isFaithful = true) (hc : key.chars.head? = some c) :
    Text.isBlank c = false ∧ c ≠ '$' ∧ c ≠ '@' := by
  cases key with
  | any =>
    obtain rfl : '*' = c := Option.some.inj hc
    decide
  | name key =>
    refine ⟨?_, head_nameChars hc⟩
    rcases (writes_nameChars key).head hc with rfl | hname
    · decide
    · have htrim : Text.trim key.toList = key.toList := by
        simp only [isFaithful, Bool.and_eq_true, beq_iff_eq] at h
        exact h.2
      exact (htrim ▸ Text.trimmed_trim key.toList).head c hname

theorem chars_ne_nil {key : KeyTest} (h : key.isFaithful = true) : key.chars ≠ [] := by
  cases key with
  | any => exact List.cons_ne_nil _ _
  | name key =>
    intro hnil
    have hempty : key.toList = [] := (writes_nameChars key).nil_iff.mp hnil
    simp [isFaithful, hempty] at h

end KeyTest

/-- What is read as the head of a step is that head exactly if its name is read back. -/
theorem Head.read_iff (head : Head) :
    Compiler.headOf head.isDeep (Compiler.keyTest? (Text.trim head.nameChars)) = head ↔
      head.isFaithful = true := by
  rcases head with _ | key | (_ | key)
  · exact ⟨fun _ => rfl, fun _ => rfl⟩
  · rw [isFaithful, ← key.read_iff]
    cases hkey : Compiler.keyTest? (Text.trim key.chars) <;>
      simp [Compiler.headOf, isDeep, nameChars, hkey]
  · exact ⟨fun _ => rfl, fun _ => rfl⟩
  · rw [isFaithful, ← key.read_iff]
    simp [Compiler.headOf, isDeep, nameChars]

/-! ## Nodes -/

theorem EndsWith.trimStart_ne_nil {operator : Bool} {text : List Char}
    (h : EndsWith operator text) : Text.trimStart text ≠ [] := by
  obtain ⟨c, hlast, hc, -⟩ := h
  obtain ⟨front, rfl⟩ := List.getLast?_eq_some_iff.mp hlast
  have hsolid : ∀ d, [c].head? = some d → Text.isBlank d = false := by
    intro d hd
    exact Option.some.inj hd ▸ hc
  rw [Text.trimStart_append hsolid]
  exact List.append_ne_nil_of_right_ne_nil _ (List.cons_ne_nil _ _)

theorem NodeParts.startsSolid_bracketed {bodies : List (List Char)} (h : bodies ≠ []) :
    StartsSolid (bodies.flatMap bracketed) := by
  obtain ⟨body, rest, rfl⟩ := List.exists_cons_of_ne_nil h
  exact ⟨'[', rfl, by decide⟩

namespace Node

variable {n : Node}

/-- What is left of the node if its text is trimmed. -/
def trimmed (n : Node) : Bool × List Char :=
  (n.head.isDeep, Text.trim n.chars)

/-- Trimming takes white space off the front of a name only. -/
theorem trim_chars (h : n.SaysSomething) :
    Text.trim n.chars =
      Text.trimStart n.head.nameChars ++ n.bodies.flatMap NodeParts.bracketed := by
  obtain ⟨head, bodies⟩ := n
  rw [chars]
  by_cases hnil : bodies = []
  · subst hnil
    have hcloses : head.Closes := h rfl
    rw [List.flatMap_nil, List.append_nil, List.append_nil]
    refine Text.trim_eq_trimStart fun c hc => ?_
    have hkey : ∀ key : KeyTest, key.Closes → key.chars.getLast? = some c →
        Text.isBlank c = false := by
      intro key hkey hlast
      obtain ⟨d, hd, hblank, -⟩ := KeyTest.endsWith_chars hkey
      rw [hd] at hlast
      exact Option.some.inj hlast ▸ hblank
    rcases head with _ | key | (_ | key)
    · exact absurd hcloses id
    · exact hkey key hcloses hc
    · simp [Head.nameChars] at hc
    · exact hkey key hcloses hc
  · have hend := NodeParts.endsWith_bracketed hnil
    exact ((NodeParts.startsSolid_bracketed hnil).trimmed hend).trim_append hend.ne_nil

/-- **A node is cut into the name of its step and its bodies.** -/
theorem split_chars (h : n.SaysSomething) (hclosed : n.IsClosed) {f : Fragment}
    (hf : f.text = Text.trim n.chars) :
    ∃ parts, NodeParts.split f = .ok parts ∧ parts.name.text = Text.trim n.head.nameChars ∧
      parts.bodies.map Fragment.text = n.bodies := by
  rw [trim_chars h] at hf
  have hname : Flat false (· ≠ '[') (Text.trimStart n.head.nameChars) :=
    n.head.flat_trimStart (fun c => KeyTest.ne_of_not_special rfl) (by decide)
  exact NodeParts.split_bracketed hf hname fun t ht => hclosed t ht false

/-- The node of a faithful step has no marker. -/
theorem marker?_eq_none (h : n.SaysSomething) (hhead : n.head.isFaithful = true)
    {node : NodeText} (hnode : node.key = n.trimmed) : Compiler.marker? node = none := by
  obtain ⟨hdeep, hbody⟩ : node.deep = n.head.isDeep ∧ node.body.text = Text.trim n.chars :=
    Prod.mk.inj hnode
  unfold Compiler.marker?
  rw [hdeep, hbody, trim_chars h]
  obtain ⟨head, bodies⟩ := n
  rcases head with _ | key | key
  · obtain ⟨body, rest, rfl⟩ := List.exists_cons_of_ne_nil (h : bodies ≠ [])
    rfl
  · obtain ⟨c, rest, hchars⟩ := List.exists_cons_of_ne_nil (KeyTest.chars_ne_nil hhead)
    obtain ⟨hblank, hroot, hcurrent⟩ := KeyTest.head_chars hhead (congrArg List.head? hchars)
    have hname : Text.trimStart (Head.child key).nameChars = c :: rest := by
      rw [Head.nameChars, hchars, Text.trimStart_cons hblank]
    simp [Head.isDeep, hname, hroot, hcurrent]
  · rfl

/-- So its dots, its name or a segment is there to be read. -/
theorem SaysSomething.of_faithful (h : n.SaysSomething) (hhead : n.head.isFaithful = true) :
    n.head.isDeep = true ∨ (Compiler.keyTest? (Text.trim n.head.nameChars)).isSome = true ∨
      n.bodies ≠ [] := by
  obtain ⟨head, bodies⟩ := n
  rcases head with _ | key | key
  · exact Or.inr (Or.inr h)
  · refine Or.inr (Or.inl ?_)
    rw [Head.nameChars, key.read_iff.mpr hhead]
    rfl
  · exact Or.inl rfl

/-- Only a bare deep scan has no text. -/
theorem trim_chars_ne_nil (h : n.SaysSomething) (hbare : n.head = .descend none → n.bodies ≠ []) :
    Text.trim n.chars ≠ [] := by
  rw [trim_chars h]
  obtain ⟨head, bodies⟩ := n
  by_cases hnil : bodies = []
  · refine List.append_ne_nil_of_left_ne_nil ?_ _
    have hcloses : head.Closes := h hnil
    rcases head with _ | key | (_ | key)
    · exact absurd hcloses id
    · exact (KeyTest.endsWith_chars hcloses).trimStart_ne_nil
    · exact absurd hnil (hbare rfl)
    · exact (KeyTest.endsWith_chars hcloses).trimStart_ne_nil
  · exact List.append_ne_nil_of_right_ne_nil _ (NodeParts.endsWith_bracketed hnil).ne_nil

end Node

/-- **A step is read back exactly if its name is faithful and its segments are read
back.** -/
theorem Step.read_iff {head : Head} {segments : List Segment} {bodies : List (List Char)}
    (h : (Node.mk head bodies).SaysSomething) (hclosed : (Node.mk head bodies).IsClosed)
    {limit depth : Nat} {node : NodeText} (hnode : node.key = (Node.mk head bodies).trimmed)
    {Read : Prop} (hsegments : ∀ parts : List Fragment, parts.map Fragment.text = bodies →
      ((∃ read, parts.mapM (Compiler.segment limit depth) = .ok read ∧
        Segment.sameList segments read = true) ↔ Read)) :
    (∃ read, Compiler.step limit depth node = .ok read ∧
      (Step.mk head segments).same read = true) ↔ head.isFaithful = true ∧ Read := by
  obtain ⟨hdeep, hbody⟩ : node.deep = head.isDeep ∧
      node.body.text = Text.trim (Node.mk head bodies).chars := Prod.mk.inj hnode
  obtain ⟨parts, hparts, hname, hbodies⟩ := Node.split_chars h hclosed hbody
  rw [← hsegments parts.bodies hbodies]
  constructor
  · rintro ⟨read, hread, hsame⟩
    obtain ⟨parts', inner, -, hparts', -, hinner, rfl⟩ := Compiler.step_eq_ok.mp hread
    obtain rfl : parts = parts' := Except.ok.inj (hparts.symm.trans hparts')
    simp only [same, Bool.and_eq_true, beq_iff_eq] at hsame
    rw [hname, hdeep] at hsame
    exact ⟨head.read_iff.mp hsame.1.symm, inner, hinner, hsame.2⟩
  · rintro ⟨hhead, inner, hinner, hsame⟩
    have hsome : node.deep = true ∨ (Compiler.keyTest? parts.name.text).isSome = true ∨
        parts.bodies ≠ [] := by
      rw [hdeep, hname]
      rcases h.of_faithful hhead with hd | hk | hs
      · exact Or.inl hd
      · exact Or.inr (Or.inl hk)
      · refine Or.inr (Or.inr fun hnil => hs ?_)
        rw [← hbodies, hnil, List.map_nil]
    refine ⟨_, Compiler.step_eq_ok.mpr ⟨parts, inner, Node.marker?_eq_none h hhead hnode,
      hparts, hsome, hinner, rfl⟩, ?_⟩
    rw [hname, hdeep, head.read_iff.mpr hhead]
    simp [same, hsame]

/-! ## The nodes of a path -/

namespace Node

/-- Nodes that may stand behind each other: all say something, and only the last one may be no
more than two dots. -/
def ListFilled : List Node → Prop
  | [] => True
  | n :: rest => n.SaysSomething ∧ (n = ⟨.descend none, []⟩ → rest = []) ∧ ListFilled rest

variable {nodes : List Node}

theorem ListFilled.saysSomething (h : ListFilled nodes) {n : Node} (hn : n ∈ nodes) :
    n.SaysSomething := by
  induction nodes with
  | nil => simp at hn
  | cons first rest ih =>
    rcases List.mem_cons.mp hn with rfl | hn
    · exact h.1
    · exact ih h.2.2 hn

theorem ListFilled.filled (h : ListFilled nodes) : NodeText.Filled (nodes.map trimmed) := by
  induction nodes with
  | nil => trivial
  | cons n rest ih =>
    refine ⟨fun hempty => ?_, ih h.2.2⟩
    have hbare : n = ⟨.descend none, []⟩ := by
      obtain ⟨head, bodies⟩ := n
      by_contra hbare
      refine trim_chars_ne_nil h.1 (fun hhead hnil => hbare ?_) hempty
      exact congrArg₂ Node.mk hhead hnil
    refine ⟨?_, by rw [h.2.1 hbare, List.map_nil]⟩
    rw [hbare]
    rfl

/-- The nodes of the steps of a well-formed path may stand behind each other, whatever is
written between their brackets. -/
theorem ListFilled.of_steps {steps : List Step} (h : Step.ListWellFormed steps)
    (hnodes : List.Forall₂ (fun (s : Step) (n : Node) =>
      n.head = s.head ∧ (n.bodies = [] → s.segments = [])) steps nodes) : ListFilled nodes := by
  induction hnodes with
  | nil => trivial
  | @cons s n rest nodes hn hrest ih =>
    obtain ⟨head, segments⟩ := s
    obtain ⟨head', bodies⟩ := n
    obtain ⟨rfl, hbodies⟩ := hn
    refine ⟨fun hnil => h.1.1 (hbodies hnil), fun hbare => ?_, ih h.2.2⟩
    obtain ⟨rfl, rfl⟩ := Node.mk.inj hbare
    obtain rfl : segments = [] := hbodies rfl
    obtain rfl : rest = [] := h.2.1 rfl
    exact List.forall₂_nil_left_iff.mp hrest

/-- **The text of a path is cut into its nodes.** -/
theorem split_join {origin : Origin} {bodies : List (List Char)}
    (hbodies : ∀ t ∈ bodies, Closed false (fun _ => True) t) (h : ListFilled nodes)
    (hclosed : ∀ n ∈ nodes, n.IsClosed) {f : Fragment}
    (hf : f.text = origin.marker :: (bodies.flatMap NodeParts.bracketed ++
      NodeText.join (nodes.map piece))) :
    ∃ first rest, NodeText.split f = .ok (first :: rest) ∧
      first.body.text = origin.marker :: bodies.flatMap NodeParts.bracketed ∧
      rest.map NodeText.key = nodes.map trimmed := by
  set front := origin.marker :: bodies.flatMap NodeParts.bracketed with hfront
  have htrim : Text.trim front = front := by
    have hstart : StartsSolid front := ⟨origin.marker, rfl, by cases origin <;> decide⟩
    have hend : EndsWith false front := by
      by_cases hnil : bodies = []
      · rw [hfront, hnil]
        cases origin with
        | root => exact ⟨'$', rfl, by decide, rfl⟩
        | current => exact ⟨'@', rfl, by decide, rfl⟩
      · exact (NodeParts.endsWith_bracketed hnil).cons _
    exact (hstart.trimmed hend).trim_eq
  have hfirst : Closed false (· ≠ '.') front :=
    Closed.cons origin.ordinary_marker.of_true (by cases origin <;> decide)
      (Closed.flatMap fun t ht => (hbodies t ht).bracketed (by decide))
  have hpieces : ∀ p ∈ nodes.map piece,
      Closed false (· ≠ '.') p.2 ∧ (p.1 = false → p.2 ≠ []) := by
    intro p hp
    obtain ⟨n, hn, rfl⟩ := List.mem_map.mp hp
    refine ⟨closed_chars (hclosed n hn), fun hdeep hnil => ?_⟩
    refine trim_chars_ne_nil (h.saysSomething hn) ?_ ?_
    · intro hbare
      rw [piece, hbare] at hdeep
      exact absurd hdeep.symm Bool.false_ne_true
    · rw [show n.chars = [] from hnil]
      rfl
  have hkeys : (nodes.map piece).map (fun p => (p.1, Text.trim p.2)) = nodes.map trimmed :=
    List.map_map
  -- the only empty node is a bare descent, which is at the end
  have hfilled : NodeText.Filled ((false, Text.trim front) ::
      (nodes.map piece).map fun p => (p.1, Text.trim p.2)) := by
    rw [htrim, hkeys]
    exact ⟨fun hnil => absurd hnil (List.cons_ne_nil _ _), h.filled⟩
  obtain ⟨found, hsplit, hfound⟩ :=
    NodeText.split_join (hf.trans (List.cons_append ..).symm) hfirst hpieces hfilled
  rw [htrim, hkeys] at hfound
  obtain ⟨first, rest, rfl, hkey, hrest⟩ := List.map_eq_cons_iff.mp hfound
  exact ⟨first, rest, hsplit, (Prod.mk.inj hkey).2, hrest⟩

end Node

/-- The first node of a path is cut into the bodies behind its marker. -/
theorem NodeParts.split_marked {origin : Origin} {bodies : List (List Char)}
    (hbodies : ∀ t ∈ bodies, Closed false (fun _ => True) t) {f : Fragment}
    (hf : f.text = origin.marker :: bodies.flatMap bracketed) :
    ∃ parts, split (f.drop 1) = .ok parts ∧ parts.name.text = [] ∧
      parts.bodies.map Fragment.text = bodies := by
  have hinner : (f.drop 1).text = [] ++ bodies.flatMap bracketed := by
    rw [Fragment.drop, hf]
    rfl
  exact split_bracketed hinner Flat.nil hbodies

theorem Compiler.originOf?_marker {nested : Bool} {origin : Origin}
    (h : origin = .root ∨ nested = true) (text : List Char) :
    originOf? nested (origin.marker :: text) = some origin := by
  cases origin with
  | root => rfl
  | current =>
    obtain rfl : nested = true := by simpa using h
    rfl

/-- **A path is read back exactly if its segments and its steps are.** -/
theorem Path.read_iff {nested : Bool} {origin : Origin} {segments : List Segment}
    {steps : List Step} {source : String} (horigin : origin = .root ∨ nested = true)
    {bodies : List (List Char)} (hbodies : ∀ t ∈ bodies, Closed false (fun _ => True) t)
    {nodes : List Node} (h : Node.ListFilled nodes) (hclosed : ∀ n ∈ nodes, n.IsClosed)
    {limit depth : Nat} {f : Fragment}
    (hf : f.text = origin.marker :: (bodies.flatMap NodeParts.bracketed ++
      NodeText.join (nodes.map Node.piece)))
    {ReadSegments ReadSteps : Prop}
    (hsegments : ∀ parts : List Fragment, parts.map Fragment.text = bodies →
      ((∃ read, parts.mapM (Compiler.segment limit depth) = .ok read ∧
        Segment.sameList segments read = true) ↔ ReadSegments))
    (hsteps : ∀ parts : List NodeText, parts.map NodeText.key = nodes.map Node.trimmed →
      ((∃ read, parts.mapM (Compiler.step limit depth) = .ok read ∧
        Step.sameList steps read = true) ↔ ReadSteps)) :
    (∃ read, Compiler.path limit depth nested f = .ok read ∧
      (Path.mk origin segments steps source).same read = true) ↔ ReadSegments ∧ ReadSteps := by
  obtain ⟨first, rest, hsplit, hfirst, hrest⟩ := Node.split_join hbodies h hclosed hf
  obtain ⟨parts, hparts, hname, htexts⟩ := NodeParts.split_marked hbodies hfirst
  have hstart : Compiler.originOf? nested f.text = some origin :=
    hf ▸ Compiler.originOf?_marker horigin _
  simp only [Compiler.path_iff_of_split hstart hsplit hparts hname]
  rw [← hsegments parts.bodies htexts, ← hsteps rest hrest]
  constructor
  · rintro ⟨_, ⟨innerSegments, innerSteps, hreadSegments, hreadSteps, rfl⟩, hsame⟩
    simp only [Path.same, Bool.and_eq_true, beq_iff_eq] at hsame
    exact ⟨⟨innerSegments, hreadSegments, hsame.1.2⟩, ⟨innerSteps, hreadSteps, hsame.2⟩⟩
  · rintro ⟨⟨innerSegments, hreadSegments, hsame⟩, ⟨innerSteps, hreadSteps, hsame'⟩⟩
    refine ⟨_, ⟨innerSegments, innerSteps, hreadSegments, hreadSteps, rfl⟩, ?_⟩
    simp [Path.same, hsame, hsame']

/-- A path text that has nothing but closed segments behind the root is compiled segment by
segment. -/
theorem Compiler.path_bracketed (limit depth : Nat) {f : Fragment} {bodies : List (List Char)}
    (hf : f.text = '$' :: bodies.flatMap NodeParts.bracketed)
    (hbodies : ∀ t ∈ bodies, Closed false (fun _ => True) t) :
    ∃ parts : List Fragment, parts.map Fragment.text = bodies ∧ ∀ p,
      Compiler.path limit depth false f = .ok p ↔ ∃ segments,
        parts.mapM (Compiler.segment limit depth) = .ok segments ∧
          p = .mk .root segments [] f.toString := by
  have hmarked : f.text = Origin.root.marker :: (bodies.flatMap NodeParts.bracketed ++
      NodeText.join (List.map Node.piece [])) :=
    hf.trans (congrArg _ (List.append_nil _).symm)
  obtain ⟨first, rest, hnodes, hfirst, hrest⟩ :=
    @Node.split_join [] _ _ hbodies trivial nofun _ hmarked
  obtain rfl := List.map_eq_nil_iff.mp hrest
  obtain ⟨parts, hparts, hname, htexts⟩ := NodeParts.split_marked hbodies hfirst
  have horigin : Compiler.originOf? false f.text = some .root := by rw [hf]; rfl
  refine ⟨parts.bodies, htexts, fun p => ?_⟩
  rw [Compiler.path_iff_of_split horigin hnodes hparts hname]
  constructor
  · rintro ⟨segments, steps, hsegments, hsteps, rfl⟩
    obtain rfl : [] = steps := Except.ok.inj hsteps
    exact ⟨segments, hsegments, rfl⟩
  · rintro ⟨segments, hsegments, rfl⟩
    exact ⟨segments, [], hsegments, rfl, rfl⟩

end PathQuery
