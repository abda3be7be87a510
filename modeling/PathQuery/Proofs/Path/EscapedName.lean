import Mathlib.Data.List.TakeWhile
import PathQuery.Proofs.Path.BareName
import PathQuery.Proofs.Path.Bytewise
import PathQuery.Proofs.Path.SelectorText
import PathQuery.Proofs.Path.StepText

/-! # Names with every character escaped

A name may be written with a backslash before each of its characters, so that none of them
has a meaning to the scanner.  White space is trimmed from a node before its escapes are
looked at: of a name that ends in white space the last character is lost, and the backslash
before it is left.  So a name written in this way is read back exactly if it does not end in
white space (`Path.compile_escapedText`).
-/

namespace PathQuery

/-! ## Escaped characters -/

namespace KeyTest

/-- The characters of a name, each behind a backslash. -/
def escapedChars (name : List Char) : List Char :=
  name.flatMap fun c => ['\\', c]

variable {front : List Char} {c : Char}

theorem escapedChars_concat (front : List Char) (c : Char) (rest : List Char) :
    escapedChars (front ++ [c]) ++ rest = escapedChars front ++ '\\' :: c :: rest := by
  simp [escapedChars]

/-- To the scanner, a name with every character escaped is one flat piece. -/
theorem flat_escapedChars {grouping : Bool} {P : Char → Prop} (name : List Char) :
    Flat grouping P (escapedChars name) :=
  Flat.flatMap fun _ _ => Flat.escaped

theorem exists_backslash (front rest : List Char) :
    ∃ tail, escapedChars front ++ '\\' :: rest = '\\' :: tail := by
  cases front with
  | nil => exact ⟨rest, rfl⟩
  | cons c front => exact ⟨_, rfl⟩

theorem unescape_escapedChars (name rest : List Char) :
    Compiler.unescape (escapedChars name ++ rest) = name ++ Compiler.unescape rest := by
  induction name with
  | nil => rfl
  | cons c name ih =>
    show c :: Compiler.unescape (escapedChars name ++ rest) = c :: (name ++ _)
    rw [ih]

/-- A name that starts with a backslash is neither empty nor the wildcard. -/
theorem keyTest?_backslash {text tail : List Char} (h : text = '\\' :: tail) :
    Compiler.keyTest? text = some (.name (String.ofList (Compiler.unescape text))) := by
  rw [Compiler.keyTest?, if_neg (by simp [h]), if_neg (by simp [h])]

/-- Trimming takes a blank character off the end of the name, but not the backslash that
escapes it. -/
theorem trimEnd_escapedChars_blank (hc : Text.isBlank c = true) :
    Text.trimEnd (escapedChars (front ++ [c])) = escapedChars front ++ ['\\'] := by
  have hlast : escapedChars (front ++ [c]) = (escapedChars front ++ ['\\']) ++ [c] := by
    simp [escapedChars]
  rw [hlast, Text.trimEnd_append_blank hc]
  apply Text.trimEnd_eq_self
  intro d hd
  obtain rfl : '\\' = d := by simpa using hd
  decide

theorem trimEnd_escapedChars (hc : Text.isBlank c = false) :
    Text.trimEnd (escapedChars (front ++ [c])) = escapedChars (front ++ [c]) := by
  apply Text.trimEnd_eq_self
  intro d hd
  obtain rfl : c = d := by simpa [escapedChars] using hd
  exact hc

/-- From its trimmed text, a name is read back if it does not end in white space; else it is
read without its last character. -/
theorem keyTest?_trimEnd_escapedChars (front : List Char) (c : Char) :
    Compiler.keyTest? (Text.trimEnd (escapedChars (front ++ [c]))) =
      some (.name (String.ofList (if Text.isBlank c then front else front ++ [c]))) := by
  by_cases hc : Text.isBlank c = true
  · obtain ⟨tail, htail⟩ := exists_backslash front []
    rw [trimEnd_escapedChars_blank hc, keyTest?_backslash htail, unescape_escapedChars,
      if_pos hc]
    simp [Compiler.unescape]
  · obtain ⟨tail, htail⟩ := exists_backslash front [c]
    have hsame := unescape_escapedChars (front ++ [c]) []
    rw [← escapedChars_concat, List.append_nil] at htail
    rw [List.append_nil] at hsame
    rw [trimEnd_escapedChars (by simpa using hc), keyTest?_backslash htail, hsame, if_neg hc]
    simp [Compiler.unescape]

end KeyTest

/-! ## Indexes -/

namespace Selector

/-- The texts between the brackets of index segments. -/
def indexBodies (indexes : List Int64) : List (List Char) :=
  indexes.map fun i => Text.integerChars i.toInt

/-- One segment for each index. -/
def indexSegments (indexes : List Int64) : List Segment :=
  indexes.map fun i => .mk [.index i]

theorem closed_of_mem_indexBodies {indexes : List Int64} {text : List Char}
    (h : text ∈ indexBodies indexes) : Closed false (fun _ => True) text := by
  obtain ⟨i, -, rfl⟩ := List.mem_map.mp h
  refine closed_of_ordinary (fun c hc => ?_) fun _ _ => trivial
  have hrange := (Compiler.isRangeChar_of_integerChars hc).1
  exact (Compiler.not_special_of_isRangeChar hrange).1.of_true

/-- Index segments are read back from the texts between their brackets. -/
theorem mapM_indexBodies {limit depth : Nat} {indexes : List Int64} {bodies : List Fragment}
    (h : bodies.map Fragment.text = indexBodies indexes) :
    bodies.mapM (Compiler.segment limit depth) = .ok (indexSegments indexes) :=
  mapM_eq_ok_map h fun _ i _ hbody =>
    @Compiler.segment_indexTexts _ _ _ i [] (by simp [hbody])

end Selector

/-! ## The node of a name -/

namespace NodeParts

/-- A backslash at the end of a node escapes nothing. -/
theorem split_dangling {f : Fragment} {text : List Char} (hf : f.text = text ++ ['\\'])
    (htext : Flat false (· ≠ '[') text) :
    ∃ position, split f = .error ⟨.danglingEscape, position⟩ := by
  obtain ⟨marks, hwalk, hmarks⟩ := htext [] [] f.offset
  let place := f.offset + Text.byteSize text
  have hstep : (ScanState.within [] []).step false place '\\' =
      .ok (⟨none, some place, [], []⟩, false) := rfl
  have hlast : (ScanState.within [] []).walk false place ['\\'] =
      some ([⟨'\\', place, false, 0, 0⟩], ⟨none, some place, [], []⟩) :=
    ScanState.walk_cons hstep rfl
  have hwhole : (ScanState.within [] []).walk false f.offset f.text =
      some (marks ++ [⟨'\\', place, false, 0, 0⟩], ⟨none, some place, [], []⟩) := by
    rw [hf]
    exact ScanState.walk_append hwalk hlast
  have hscan : f.scan false =
      ⟨marks ++ [⟨'\\', place, false, 0, 0⟩], some ⟨.danglingEscape, place⟩⟩ :=
    ScanState.run_of_walk hwhole
  -- there is no bracket at the top level, so no fault of a segment comes first
  have hdrop : (f.scan false).marks.dropWhile (fun m => !isOpening m) = [] := by
    rw [hscan, List.dropWhile_eq_nil_iff]
    intro m hm
    by_contra hopen
    simp only [isOpening, Bool.not_eq_true', Bool.not_eq_false, Bool.and_eq_true,
      beq_iff_eq] at hopen
    rcases List.mem_append.mp hm with hm | hm
    · exact (hmarks m hm).2.2 hopen.1 hopen.2
    · rw [List.mem_singleton.mp hm] at hopen
      exact Bool.false_ne_true hopen.1
  refine ⟨place, ?_⟩
  rw [hscan] at hdrop
  simp only [split, hscan, hdrop, outside]
  rfl

end NodeParts

namespace Compiler

theorem marker?_backslash {node : NodeText} {tail : List Char}
    (h : node.body.text = '\\' :: tail) : marker? node = none := by
  rw [marker?, h]
  split
  · rfl
  · rfl

/-- A path of one node behind the root is compiled as that node. -/
theorem path_child (limit depth : Nat) {f : Fragment} {text : List Char}
    (hf : f.text = '$' :: '.' :: text) (htext : Closed false (· ≠ '.') text)
    (hfull : Text.trim text ≠ []) :
    ∃ node : NodeText, node.key = (false, Text.trim text) ∧
      path limit depth false f =
        (step limit depth node).map fun s => .mk .root [] [s] f.toString := by
  have hne : text ≠ [] := by
    rintro rfl
    exact hfull rfl
  have htrim : Text.trim ['$'] = ['$'] := by decide
  have hjoin : f.text = ['$'] ++ NodeText.join [(false, text)] := by
    rw [hf]
    simp [NodeText.join]
  have hmarker : Closed false (· ≠ '.') ['$'] := (Flat.char (by decide) (by decide)).closed
  obtain ⟨nodes, hnodes, hkeys⟩ := NodeText.split_join hjoin hmarker
    (fun p hp => List.mem_singleton.mp hp ▸ ⟨htext, fun _ => hne⟩)
    ⟨fun hnil => absurd (htrim ▸ hnil) (List.cons_ne_nil _ _),
      fun hnil => absurd hnil hfull, trivial⟩
  obtain ⟨first, rest, rfl, hfirst, hrest⟩ := List.map_eq_cons_iff.mp hkeys
  obtain ⟨node, later, rfl, hnode, hlater⟩ := List.map_eq_cons_iff.mp hrest
  obtain rfl := List.map_eq_nil_iff.mp hlater
  have hinner : (first.body.drop 1).text = [] ++ [].flatMap NodeParts.bracketed := by
    have hbody : first.body.text = ['$'] := (Prod.mk.inj hfirst).2.trans htrim
    rw [Fragment.drop, hbody]
    rfl
  obtain ⟨parts, hparts, hname, hbodies⟩ :=
    NodeParts.split_bracketed hinner Flat.nil (fun _ ht => absurd ht List.not_mem_nil)
  have hnone := List.map_eq_nil_iff.mp hbodies
  have horigin : originOf? false f.text = some .root := by rw [hf]; rfl
  refine ⟨node, hnode, ?_⟩
  rw [path_eq, horigin]
  simp only [hnodes, hparts, hname, hnone, bind, Except.bind]
  cases hstep : step limit depth node with
  | error fault => simp [hstep, Text.trimEnd, Except.map, bind, Except.bind, pure, Except.pure]
  | ok s => simp [hstep, Text.trimEnd, Except.map, bind, Except.bind, pure, Except.pure]

variable {node : NodeText} {front : List Char} {c : Char} {indexes : List Int64}

/-- The text of a name with every character escaped and of indexes behind it is trimmed,
unless white space is its last character. -/
theorem trim_escapedChars (hlast : Text.isBlank c = false ∨ indexes ≠ []) :
    let text := KeyTest.escapedChars (front ++ [c]) ++
      (Selector.indexBodies indexes).flatMap NodeParts.bracketed
    Text.trim text = text := by
  intro text
  apply Text.Trimmed.trim_eq
  refine ⟨fun d hd => ?_, fun d hd => ?_⟩
  · obtain ⟨tail, htail⟩ := KeyTest.exists_backslash front
      (c :: (Selector.indexBodies indexes).flatMap NodeParts.bracketed)
    rw [← KeyTest.escapedChars_concat] at htail
    obtain rfl : '\\' = d := Option.some.inj ((congrArg List.head? htail).symm.trans hd)
    decide
  · rcases List.eq_nil_or_concat indexes with rfl | ⟨others, i, rfl⟩
    · obtain rfl : c = d := by
        simpa [text, KeyTest.escapedChars, Selector.indexBodies] using hd
      exact hlast.resolve_right fun hne => hne rfl
    · have htext : text.getLast? = some ']' := by
        simp [text, Selector.indexBodies, NodeParts.bracketed, List.flatMap_append,
          List.getLast?_append, List.getLast?_cons]
      obtain rfl : ']' = d := Option.some.inj (htext.symm.trans hd)
      decide

/-- A name with every character escaped is read as a step, unless white space is the last
character of the node. -/
theorem step_escapedChars (limit depth : Nat)
    (hnode : node.key = (false, Text.trim (KeyTest.escapedChars (front ++ [c]) ++
      (Selector.indexBodies indexes).flatMap NodeParts.bracketed)))
    (hlast : Text.isBlank c = false ∨ indexes ≠ []) :
    step limit depth node = .ok (.mk
      (.child (.name (String.ofList (if Text.isBlank c then front else front ++ [c]))))
      (Selector.indexSegments indexes)) := by
  obtain ⟨hdeep, hbody⟩ : node.deep = false ∧ node.body.text = _ := Prod.mk.inj hnode
  rw [trim_escapedChars hlast] at hbody
  obtain ⟨parts, hparts, hname, hbodies⟩ := NodeParts.split_bracketed hbody
    (KeyTest.flat_escapedChars _) fun _ ht => Selector.closed_of_mem_indexBodies ht
  have hkey := KeyTest.keyTest?_trimEnd_escapedChars front c
  rw [← hname] at hkey
  have hmarker : marker? node = none := by
    obtain ⟨tail, htail⟩ := KeyTest.exists_backslash front (c :: _)
    exact marker?_backslash (hbody.trans ((KeyTest.escapedChars_concat _ _ _).trans htail))
  refine step_eq_ok.mpr ⟨parts, _, hmarker, hparts, Or.inr (Or.inl ?_),
    Selector.mapM_indexBodies hbodies, ?_⟩
  · rw [hkey]
    rfl
  · rw [hkey, hdeep]
    rfl

/-- A name that ends in escaped white space is no step if nothing stands behind it. -/
theorem step_escapedChars_blank (limit depth : Nat)
    (hnode : node.key = (false, Text.trim (KeyTest.escapedChars (front ++ [c]))))
    (hc : Text.isBlank c = true) :
    ∃ position, step limit depth node = .error ⟨.danglingEscape, position⟩ := by
  obtain ⟨-, hbody⟩ : node.deep = false ∧ node.body.text = _ := Prod.mk.inj hnode
  have hstart : Text.trimStart (KeyTest.escapedChars (front ++ [c])) =
      KeyTest.escapedChars (front ++ [c]) := by
    apply Text.trimStart_eq_self
    intro d hd
    obtain ⟨tail, htail⟩ := KeyTest.exists_backslash front [c]
    rw [← KeyTest.escapedChars_concat, List.append_nil] at htail
    obtain rfl : '\\' = d := Option.some.inj ((congrArg List.head? htail).symm.trans hd)
    decide
  rw [Text.trim, hstart, KeyTest.trimEnd_escapedChars_blank hc] at hbody
  obtain ⟨position, hsplit⟩ := NodeParts.split_dangling hbody (KeyTest.flat_escapedChars front)
  obtain ⟨tail, htail⟩ := KeyTest.exists_backslash front []
  refine ⟨position, ?_⟩
  rw [step_eq, marker?_backslash (hbody.trans htail)]
  simp only [hsplit]
  rfl

end Compiler

/-! ## The path to a key -/

namespace Path

/-- The text of a path to a name with every character escaped, and to indexes behind it. -/
def escapedText (key : String) (indexes : List Int64) : String :=
  String.ofList ('$' :: '.' :: (KeyTest.escapedChars key.toList ++
    (Selector.indexBodies indexes).flatMap NodeParts.bracketed))

/-- The path to a key of the root, and to indexes behind it. -/
def toKey (key : String) (indexes : List Int64) (source : String) : Path :=
  .mk .root [] [.mk (.child (.name key)) (Selector.indexSegments indexes)] source

/-- The last character of the key is white space. -/
def EndsBlank (key : String) : Prop :=
  ∃ c, key.toList.getLast? = some c ∧ Text.isBlank c = true

/-- The text is compiled as its one node is. -/
theorem compile_escapedText_eq (options : Options) {key : String} {front : List Char} {c : Char}
    (hkey : key.toList = front ++ [c]) (indexes : List Int64) :
    ∃ node : NodeText, node.key = (false, Text.trim (KeyTest.escapedChars (front ++ [c]) ++
        (Selector.indexBodies indexes).flatMap NodeParts.bracketed)) ∧
      compile options (escapedText key indexes) =
        ((Compiler.step options.maxDepth 0 node).map fun s =>
          .mk .root [] [s] (escapedText key indexes)).mapError fun fault =>
            ⟨fault.cause, fault.position, escapedText key indexes⟩ := by
  have hclosed : Closed false (· ≠ '.') (KeyTest.escapedChars (front ++ [c]) ++
      (Selector.indexBodies indexes).flatMap NodeParts.bracketed) := by
    apply (KeyTest.flat_escapedChars _).closed.append
    apply Closed.flatMap
    intro t ht
    exact (Selector.closed_of_mem_indexBodies ht).bracketed (by decide)
  have hfull : Text.trim (KeyTest.escapedChars (front ++ [c]) ++
      (Selector.indexBodies indexes).flatMap NodeParts.bracketed) ≠ [] := by
    obtain ⟨tail, htail⟩ := KeyTest.exists_backslash front (c :: _)
    rw [KeyTest.escapedChars_concat, htail, Text.trim, Text.trimStart_cons (by decide),
      Text.trimEnd_cons, if_neg (by simp [Text.isBlank])]
    exact List.cons_ne_nil _ _
  have htext : (escapedText key indexes).toList = '$' :: '.' ::
      (KeyTest.escapedChars (front ++ [c]) ++
        (Selector.indexBodies indexes).flatMap NodeParts.bracketed) := by
    rw [escapedText, String.toList_ofList, hkey]
  obtain ⟨node, hnode, hpath⟩ := Compiler.path_child options.maxDepth 0
    (f := ⟨(escapedText key indexes).toList, 0⟩) htext hclosed hfull
  refine ⟨node, hnode, ?_⟩
  have hsource : Fragment.toString ⟨(escapedText key indexes).toList, 0⟩ =
      escapedText key indexes := String.ofList_toList
  rw [compile, hpath, hsource]

/-- **A name with every character escaped is read back exactly if it does not end in white
space.**  If it does, its last character is trimmed and the backslash before it is left: in
front of a segment it stands for nothing, so the shorter name is read, and at the end of the
text it is an error. -/
theorem compile_escapedText (options : Options) {key : String} (hkey : key ≠ "")
    (indexes : List Int64) :
    (compile options (escapedText key indexes) =
        .ok (toKey key indexes (escapedText key indexes)) ↔ ¬ EndsBlank key) ∧
      (EndsBlank key → indexes ≠ [] → compile options (escapedText key indexes) =
        .ok (toKey (String.ofList key.toList.dropLast) indexes (escapedText key indexes))) ∧
      (EndsBlank key → indexes = [] → ∃ position, compile options (escapedText key indexes) =
        .error ⟨.danglingEscape, position, escapedText key indexes⟩) := by
  obtain ⟨front, c, hchars⟩ : ∃ front c, key.toList = front ++ [c] := by
    rcases List.eq_nil_or_concat key.toList with hnil | ⟨front, c, hchars⟩
    · exact absurd (String.toList_eq_nil_iff.mp hnil) hkey
    · exact ⟨front, c, by rw [hchars, List.concat_eq_append]⟩
  have hends : EndsBlank key ↔ Text.isBlank c = true := by
    simp [EndsBlank, hchars]
  have hdrop : key.toList.dropLast = front := by simp [hchars]
  have hsame : String.ofList (front ++ [c]) = key := by rw [← hchars, String.ofList_toList]
  obtain ⟨node, hnode, hcompile⟩ := compile_escapedText_eq options hchars indexes
  rw [hcompile, hends, hdrop]
  by_cases hc : Text.isBlank c = true
  · by_cases hindexes : indexes = []
    · subst hindexes
      have hname : node.key = (false, Text.trim (KeyTest.escapedChars (front ++ [c]))) := by
        simpa [Selector.indexBodies] using hnode
      obtain ⟨position, hstep⟩ :=
        Compiler.step_escapedChars_blank options.maxDepth 0 hname hc
      simp [hstep, hc, Except.map, Except.mapError]
    · have hstep := Compiler.step_escapedChars options.maxDepth 0 hnode (Or.inr hindexes)
      have hshort : String.ofList front ≠ key := by
        intro hfront
        have hlist := congrArg String.toList (hsame.trans hfront.symm)
        simp at hlist
      simp [hstep, hc, hindexes, toKey, hshort, Except.map, Except.mapError]
  · have hstep := Compiler.step_escapedChars options.maxDepth 0 hnode
      (Or.inl (by simpa using hc))
    simp [hstep, hc, hsame, toKey, Except.map, Except.mapError]

/-- A name of special characters is read back, white space in front included. -/
theorem compile_escapedText_special :
    escapedText " *.['" [0, -1] = "$.\\ \\*\\.\\[\\'[0][-1]" ∧
      compile {} (escapedText " *.['" [0, -1]) =
        .ok (toKey " *.['" [0, -1] (escapedText " *.['" [0, -1])) := by
  refine ⟨by decide, (compile_escapedText {} (by decide) [0, -1]).1.mpr ?_⟩
  rintro ⟨c, hlast, hblank⟩
  obtain rfl : '\'' = c := Option.some.inj hlast
  simp [Text.isBlank] at hblank

/-- A name that ends in white space is not read back. -/
theorem compile_escapedText_trailing :
    escapedText "a " [0] = "$.\\a\\ [0]" ∧
      ∀ source, compile {} (escapedText "a " [0]) ≠ .ok (toKey "a " [0] source) := by
  refine ⟨by decide, fun source h => ?_⟩
  have heval : ((compile {} (escapedText "a " [0])).toOption.any fun p =>
      p.steps.map Step.head = [.child (.name "a")]) = true := by
    decide +kernel
  rw [h] at heval
  simp [Except.toOption, toKey, steps, Step.head] at heval

end Path
end PathQuery
