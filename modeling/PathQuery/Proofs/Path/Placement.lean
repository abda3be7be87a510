import PathQuery.Path.Operators
import PathQuery.Proofs.Path.Splitting

/-! # Scanning the same text in another place

On the same text the scanner does the same wherever it starts: inside brackets and
parentheses it opens and closes the same ones on top of those, and offsets only differ by
where the text stands (`ScanState.Placed.walk`).  So the same text is cut into the same pieces
in every place, and has the same operators.
-/

namespace PathQuery

/-! ## The scanner -/

/-- One mark stands for the same character as the other, inside so many more brackets and
parentheses.  Parentheses are compared only with `grouping`. -/
structure Mark.Placed (grouping : Bool) (brackets parens : Nat) (m m' : Mark) : Prop where
  char_eq : m'.char = m.char
  plain_eq : m'.plain = m.plain
  brackets_eq : m'.brackets = m.brackets + brackets
  parens_eq : grouping = true → m'.parens = m.parens + parens

namespace ScanState

/-- As many are open in `stack'` as in `stack`, and before them those of `below`. -/
def Stacked (below stack stack' : List Nat) : Prop :=
  ∃ inner, stack' = inner ++ below ∧ inner.length = stack.length

variable {below stack stack' : List Nat}

theorem Stacked.push (h : Stacked below stack stack') (a b : Nat) :
    Stacked below (a :: stack) (b :: stack') := by
  obtain ⟨inner, rfl, hlength⟩ := h
  exact ⟨b :: inner, rfl, congrArg (· + 1) hlength⟩

theorem Stacked.pop {a : Nat} (h : Stacked below (a :: stack) stack') :
    ∃ b rest, stack' = b :: rest ∧ Stacked below stack rest := by
  obtain ⟨inner, rfl, hlength⟩ := h
  obtain ⟨b, inner, rfl⟩ := List.exists_cons_of_length_eq_add_one hlength
  exact ⟨b, inner ++ below, rfl, inner, rfl, Nat.succ.inj hlength⟩

theorem Stacked.length_eq (h : Stacked below stack stack') :
    stack'.length = stack.length + below.length := by
  obtain ⟨inner, rfl, hlength⟩ := h
  rw [List.length_append, hlength]

theorem Stacked.eq_below (h : Stacked below [] stack') : stack' = below := by
  obtain ⟨inner, rfl, hlength⟩ := h
  rw [List.length_eq_zero_iff.mp hlength, List.nil_append]

/-- The scanner has come to `s'` on a text that takes it to `s` from outside everything, but
started inside the given brackets and parentheses. -/
structure Placed (grouping : Bool) (brackets parens : List Nat) (s s' : ScanState) : Prop where
  quote_eq : s'.quote.map Prod.fst = s.quote.map Prod.fst
  escape_eq : s'.escape.isSome = s.escape.isSome
  brackets_eq : Stacked brackets s.brackets s'.brackets
  parens_eq : Stacked parens (if grouping then s.parens else []) s'.parens

variable {grouping grouping' : Bool} {brackets parens : List Nat} {s s' t : ScanState}
  {offset : Nat} {c : Char} {plain : Bool} {text : List Char} {marks : List Mark}

theorem placed_within : Placed grouping brackets parens .initial (within brackets parens) where
  quote_eq := rfl
  escape_eq := rfl
  brackets_eq := ⟨[], rfl, rfl⟩
  parens_eq := ⟨[], rfl, by cases grouping <;> rfl⟩

/-- Back outside everything, the scanner is where it started. -/
theorem Placed.eq_within (h : Placed grouping brackets parens .initial s') :
    s' = within brackets parens := by
  obtain ⟨quote, escape, brackets', parens'⟩ := s'
  obtain ⟨hquote, hescape, hbrackets, hparens⟩ := h
  obtain rfl : quote = none := by simpa [initial] using hquote
  obtain rfl : escape = none := by simpa [initial] using hescape
  obtain rfl : brackets' = brackets := hbrackets.eq_below
  obtain rfl : parens' = parens := by
    cases grouping <;> exact hparens.eq_below
  rfl

/-- The scanner goes over a plain character as it does on the same text elsewhere. -/
theorem Placed.stepPlain (h : Placed grouping' brackets parens s s')
    (hgrouping : grouping' = true → grouping = true)
    (hstep : s.stepPlain grouping offset c = .ok t) (offset' : Nat) :
    ∃ t', s'.stepPlain grouping' offset' c = .ok t' ∧ Placed grouping' brackets parens t t' := by
  obtain ⟨hquote, hescape, hbrackets, hparens⟩ := h
  unfold ScanState.stepPlain at hstep ⊢
  by_cases hopen : c = '['
  · rw [if_pos hopen] at hstep ⊢
    obtain rfl := Except.ok.inj hstep
    exact ⟨_, rfl, hquote, hescape, hbrackets.push _ _, hparens⟩
  rw [if_neg hopen] at hstep ⊢
  by_cases hclose : c = ']'
  · rw [if_pos hclose] at hstep ⊢
    cases hs : s.brackets with
    | nil => simp [hs] at hstep
    | cons start outer =>
      rw [hs] at hstep hbrackets
      obtain rfl := Except.ok.inj hstep
      obtain ⟨start', outer', hs', houter⟩ := hbrackets.pop
      rw [hs']
      exact ⟨_, rfl, hquote, hescape, houter, hparens⟩
  rw [if_neg hclose] at hstep ⊢
  by_cases hgroup : c = '(' ∧ grouping = true
  · rw [if_pos hgroup] at hstep
    obtain rfl := Except.ok.inj hstep
    cases grouping' with
    | true =>
      rw [if_pos ⟨hgroup.1, rfl⟩]
      exact ⟨_, rfl, hquote, hescape, hbrackets, hparens.push _ _⟩
    | false =>
      rw [if_neg (by simp), if_neg (by simp)]
      exact ⟨_, rfl, hquote, hescape, hbrackets, hparens⟩
  have hgroup' : ¬(c = '(' ∧ grouping' = true) := fun hc => hgroup ⟨hc.1, hgrouping hc.2⟩
  rw [if_neg hgroup] at hstep
  rw [if_neg hgroup']
  by_cases hend : c = ')' ∧ grouping = true
  · rw [if_pos hend] at hstep
    cases hs : s.parens with
    | nil => simp [hs] at hstep
    | cons start outer =>
      rw [hs] at hstep hparens
      obtain rfl := Except.ok.inj hstep
      cases grouping' with
      | true =>
        rw [if_pos ⟨hend.1, rfl⟩]
        obtain ⟨start', outer', hs', houter⟩ := Stacked.pop hparens
        rw [hs']
        exact ⟨_, rfl, hquote, hescape, hbrackets, houter⟩
      | false =>
        rw [if_neg (by simp)]
        exact ⟨_, rfl, hquote, hescape, hbrackets, hparens⟩
  have hend' : ¬(c = ')' ∧ grouping' = true) := fun hc => hend ⟨hc.1, hgrouping hc.2⟩
  rw [if_neg hend] at hstep
  rw [if_neg hend']
  obtain rfl := Except.ok.inj hstep
  exact ⟨_, rfl, hquote, hescape, hbrackets, hparens⟩

/-- The scanner goes over a character as it does on the same text elsewhere. -/
theorem Placed.step (h : Placed grouping' brackets parens s s')
    (hgrouping : grouping' = true → grouping = true)
    (hstep : s.step grouping offset c = .ok (t, plain)) (offset' : Nat) :
    ∃ t', s'.step grouping' offset' c = .ok (t', plain) ∧
      Placed grouping' brackets parens t t' := by
  have hescape := h.escape_eq
  have hquote := h.quote_eq
  unfold ScanState.step at hstep ⊢
  cases hs : s.escape with
  | some place =>
    obtain ⟨place', hs'⟩ : ∃ place', s'.escape = some place' := by
      rw [hs] at hescape
      exact Option.isSome_iff_exists.mp hescape
    simp only [hs, hs', Except.ok.injEq, Prod.mk.injEq] at hstep ⊢
    obtain ⟨rfl, rfl⟩ := hstep
    exact ⟨_, ⟨rfl, rfl⟩, hquote, rfl, h.brackets_eq, h.parens_eq⟩
  | none =>
    have hs' : s'.escape = none := by
      rw [hs] at hescape
      simpa using hescape
    simp only [hs, hs'] at hstep ⊢
    by_cases hbackslash : c = '\\'
    · rw [if_pos hbackslash] at hstep ⊢
      simp only [Except.ok.injEq, Prod.mk.injEq] at hstep
      obtain ⟨rfl, rfl⟩ := hstep
      exact ⟨_, rfl, hquote, rfl, h.brackets_eq, h.parens_eq⟩
    rw [if_neg hbackslash] at hstep ⊢
    cases hq : s.quote with
    | some opening =>
      obtain ⟨opening', hq', hsame⟩ : ∃ opening', s'.quote = some opening' ∧
          opening'.1 = opening.1 := by
        rw [hq] at hquote
        simpa using hquote
      simp only [hq, hq', Except.ok.injEq, Prod.mk.injEq] at hstep ⊢
      obtain ⟨rfl, rfl⟩ := hstep
      refine ⟨_, ⟨rfl, rfl⟩, ?_⟩
      rw [hsame]
      split
      · exact ⟨rfl, rfl, h.brackets_eq, h.parens_eq⟩
      · exact h
    | none =>
      have hq' : s'.quote = none := by
        rw [hq] at hquote
        simpa using hquote
      simp only [hq, hq'] at hstep ⊢
      by_cases hopen : c = '\'' ∨ c = '"'
      · rw [if_pos hopen] at hstep ⊢
        simp only [Except.ok.injEq, Prod.mk.injEq] at hstep
        obtain ⟨rfl, rfl⟩ := hstep
        exact ⟨_, rfl, rfl, rfl, h.brackets_eq, h.parens_eq⟩
      · rw [if_neg hopen] at hstep ⊢
        obtain ⟨after, hafter, heq⟩ := map_eq_ok.mp hstep
        simp only [Prod.mk.injEq] at heq
        obtain ⟨rfl, rfl⟩ := heq
        obtain ⟨after', hafter', hplaced⟩ := h.stepPlain hgrouping hafter offset'
        exact ⟨after', by rw [hafter']; rfl, hplaced⟩

/-- **The scanner goes over a text as it does elsewhere.** -/
theorem Placed.walk (h : Placed grouping' brackets parens s s')
    (hgrouping : grouping' = true → grouping = true)
    (hwalk : s.walk grouping offset text = some (marks, t)) (offset' : Nat) :
    ∃ marks' t', s'.walk grouping' offset' text = some (marks', t') ∧
      List.Forall₂ (Mark.Placed grouping' brackets.length parens.length) marks marks' ∧
      Placed grouping' brackets parens t t' := by
  induction text generalizing s s' offset offset' marks with
  | nil =>
    obtain ⟨rfl, rfl⟩ : [] = marks ∧ s = t := by simpa [ScanState.walk] using hwalk
    exact ⟨[], s', rfl, .nil, h⟩
  | cons c rest ih =>
    obtain ⟨after, plain, tail, hstep, htail, rfl⟩ := exists_of_walk_cons hwalk
    obtain ⟨after', hstep', hplaced⟩ := h.step hgrouping hstep offset'
    obtain ⟨tail', t', htail', hmarks, hlast⟩ := ih hplaced htail (offset' + c.utf8Size)
    refine ⟨_, t', walk_cons hstep' htail', .cons ⟨rfl, rfl, ?_, ?_⟩ hmarks, hlast⟩
    · exact hplaced.brackets_eq.length_eq
    · intro hgroup
      have hparens := hplaced.parens_eq.length_eq
      rwa [if_pos hgroup] at hparens

/-- **A text that is balanced on its own is balanced in every place.** -/
theorem closed_of_walk (hgrouping : grouping' = true → grouping = true)
    (hwalk : ScanState.initial.walk grouping offset text = some (marks, .initial)) :
    Closed grouping' (fun _ => True) text := by
  intro brackets parens offset'
  obtain ⟨marks', t', hwalk', hmarks, hplaced⟩ :=
    (@placed_within grouping' brackets parens).walk hgrouping hwalk offset'
  obtain rfl := hplaced.eq_within
  refine ⟨marks', hwalk', fun m' hm' => ?_⟩
  obtain ⟨m, -, hm⟩ := exists_left_of_forall₂ hmarks hm'
  refine ⟨hm.brackets_eq ▸ Nat.le_add_left _ _, ?_, fun _ _ _ => trivial⟩
  cases grouping' with
  | true => exact hm.parens_eq rfl ▸ Nat.le_add_left _ _
  | false => exact Nat.le_of_eq (parens_of_walk hwalk' m' hm').symm

/-- If every character is marked, the text is walked over. -/
theorem walk_of_length (h : text.length ≤ (Scan.run grouping s offset text).marks.length) :
    ∃ marks t, s.walk grouping offset text = some (marks, t) := by
  induction text generalizing s offset with
  | nil => exact ⟨[], s, rfl⟩
  | cons c rest ih =>
    rw [Scan.run] at h
    split at h
    · simp at h
    · rename_i after plain hstep
      obtain ⟨marks, t, hwalk⟩ := ih (Nat.le_of_succ_le_succ h)
      exact ⟨_, t, walk_cons hstep hwalk⟩

end ScanState

/-- A mark of the same text in another place. -/
abbrev Mark.Alike (grouping : Bool) : Mark → Mark → Prop :=
  Mark.Placed grouping 0 0

namespace Fragment

variable {f g : Fragment} {grouping : Bool}

/-- **The same text is scanned in the same way wherever it stands.** -/
theorem scan_relocated (htext : g.text = f.text) (h : (f.scan grouping).check = .ok ()) :
    ∃ marks marks', f.scan grouping = ⟨marks, none⟩ ∧ g.scan grouping = ⟨marks', none⟩ ∧
      List.Forall₂ (Mark.Alike grouping) marks marks' := by
  obtain ⟨marks, hwalk, hscan⟩ := walk_of_check h
  obtain ⟨marks', t', hwalk', hmarks, hplaced⟩ :=
    (@ScanState.placed_within grouping [] []).walk id hwalk g.offset
  obtain rfl := hplaced.eq_within
  rw [← htext] at hwalk'
  exact ⟨marks, marks', hscan, Fragment.scan_of_walk hwalk', hmarks⟩

end Fragment

/-! ## Pieces -/

namespace NodeText

theorem isDot_alike {grouping : Bool} {m m' : Mark} (h : Mark.Alike grouping m m') :
    isDot m' = isDot m := by
  simp [isDot, h.char_eq, h.plain_eq, h.brackets_eq]

/-- The nodes that are cut from alike marks say the same. -/
theorem cut_alike {grouping deep : Bool} {start : Nat} {chars : List Char}
    {marks marks' : List Mark} (h : List.Forall₂ (Mark.Alike grouping) marks marks')
    (start' : Nat) :
    (cut deep start' chars marks').map key = (cut deep start chars marks).map key := by
  fun_induction cut deep start chars marks generalizing start' marks' with
  | case1 deep start chars =>
    cases h
    rfl
  | case2 deep start chars m hdot =>
    obtain ⟨m', _, hm, hnil, rfl⟩ := List.forall₂_cons_left_iff.mp h
    cases hnil
    rw [cut, if_pos ((isDot_alike hm).trans hdot)]
    rfl
  | case3 deep start chars m hdot next after hnext ih =>
    obtain ⟨m', _, hm, hrest, rfl⟩ := List.forall₂_cons_left_iff.mp h
    obtain ⟨next', after', hn, hafter, rfl⟩ := List.forall₂_cons_left_iff.mp hrest
    rw [cut_dots ((isDot_alike hm).trans hdot) (hn.char_eq.trans hnext), List.map_cons,
      ih hafter]
    rfl
  | case4 deep start chars m hdot next after hnext ih =>
    obtain ⟨m', _, hm, hrest, rfl⟩ := List.forall₂_cons_left_iff.mp h
    obtain ⟨next', after', hn, hafter, rfl⟩ := List.forall₂_cons_left_iff.mp hrest
    have hnext' : next'.char ≠ '.' := by rwa [hn.char_eq]
    rw [cut_dot ((isDot_alike hm).trans hdot) hnext', List.map_cons, ih hrest]
    rfl
  | case5 deep start chars m rest hdot ih =>
    obtain ⟨m', rest', hm, hrest, rfl⟩ := List.forall₂_cons_left_iff.mp h
    have hdot' : isDot m' = false := by simpa [isDot_alike hm] using hdot
    rw [cut_cons_of_not_dot hdot', hm.char_eq]
    exact ih hrest start'

theorem checkNonempty_key {nodes nodes' : List NodeText} (h : nodes'.map key = nodes.map key)
    (hok : checkNonempty nodes = .ok ()) : checkNonempty nodes' = .ok () := by
  induction nodes generalizing nodes' with
  | nil =>
    obtain rfl := List.map_eq_nil_iff.mp h
    rfl
  | cons node rest ih =>
    obtain ⟨node', rest', rfl, hnode, hrest⟩ := List.map_eq_cons_iff.mp h
    obtain ⟨hdeep, htext⟩ : node'.deep = node.deep ∧ node'.body.text = node.body.text :=
      Prod.mk.inj hnode
    have hempty : rest'.isEmpty = rest.isEmpty := by
      have hlength := congrArg List.length hrest
      cases rest <;> cases rest' <;> simp at hlength ⊢
    rw [checkNonempty] at hok ⊢
    rw [hdeep, htext, hempty]
    split at hok
    · simp at hok
    · rename_i hfull
      rw [if_neg hfull]
      exact ih hrest hok

/-- **The same text is cut into the same nodes wherever it stands.** -/
theorem split_relocated {f g : Fragment} {nodes : List NodeText} (htext : g.text = f.text)
    (h : split f = .ok nodes) :
    ∃ nodes', split g = .ok nodes' ∧ nodes'.map key = nodes.map key := by
  obtain ⟨⟨⟩, hcheck, h⟩ := bind_eq_ok.mp h
  obtain ⟨⟨⟩, hfull, h⟩ := bind_eq_ok.mp h
  obtain rfl := Except.ok.inj h
  obtain ⟨marks, marks', hscan, hscan', hmarks⟩ := Fragment.scan_relocated htext hcheck
  rw [hscan] at hfull
  have hkeys := @cut_alike false false f.offset [] _ _ hmarks g.offset
  refine ⟨cut false g.offset [] marks', ?_, by rw [hkeys, hscan]⟩
  simp [split, hscan', Scan.check, checkNonempty_key hkeys hfull, bind, Except.bind, pure,
    Except.pure]

end NodeText

namespace NodeParts

mutual

theorem outside_alike {marks marks' : List Mark} {bodies : List Fragment}
    (h : List.Forall₂ (Mark.Alike false) marks marks')
    (hok : outside marks = .ok bodies) : ∃ bodies', outside marks' = .ok bodies' ∧
      bodies'.map Fragment.text = bodies.map Fragment.text := by
  match marks, h with
  | [], .nil => exact ⟨bodies, hok, rfl⟩
  | m :: rest, .cons hm hrest =>
    rw [outside] at hok ⊢
    rw [hm.plain_eq, hm.char_eq, hm.brackets_eq, Nat.add_zero]
    split at hok
    · rename_i hopen
      rw [if_pos hopen]
      exact inside_alike hrest hok _
    · rename_i hopen
      rw [if_neg hopen]
      split at hok
      · simp at hok
      · rename_i hblank
        rw [if_neg hblank]
        exact outside_alike hrest hok

theorem inside_alike {marks marks' : List Mark} {bodies : List Fragment} {start : Nat}
    {chars : List Char} (h : List.Forall₂ (Mark.Alike false) marks marks')
    (hok : inside start chars marks = .ok bodies) (start' : Nat) :
    ∃ bodies', inside start' chars marks' = .ok bodies' ∧
      bodies'.map Fragment.text = bodies.map Fragment.text := by
  match marks, h with
  | [], .nil => exact ⟨bodies, hok, rfl⟩
  | m :: rest, .cons hm hrest =>
    rw [inside] at hok ⊢
    rw [hm.plain_eq, hm.char_eq, hm.brackets_eq, Nat.add_zero]
    split at hok
    · rename_i hclose
      rw [if_pos hclose]
      obtain ⟨later, hlater, rfl⟩ := map_eq_ok.mp hok
      obtain ⟨later', hlater', htexts⟩ := outside_alike hrest hlater
      rw [hlater']
      exact ⟨_, rfl, by rw [List.map_cons, List.map_cons, htexts]⟩
    · rename_i hclose
      rw [if_neg hclose]
      exact inside_alike hrest hok start'

end

theorem isOpening_alike {grouping : Bool} {m m' : Mark} (h : Mark.Alike grouping m m') :
    isOpening m' = isOpening m := by
  simp [isOpening, h.char_eq, h.plain_eq]

/-- The marks of the name and those of the segments, in two places. -/
theorem span_alike {marks marks' : List Mark} (h : List.Forall₂ (Mark.Alike false) marks marks') :
    (marks'.takeWhile fun m => !isOpening m).map Mark.char =
        (marks.takeWhile fun m => !isOpening m).map Mark.char ∧
      List.Forall₂ (Mark.Alike false) (marks.dropWhile fun m => !isOpening m)
        (marks'.dropWhile fun m => !isOpening m) := by
  induction h with
  | nil => exact ⟨rfl, .nil⟩
  | @cons m m' rest rest' hm hrest ih =>
    have hsame := isOpening_alike hm
    cases hopen : isOpening m with
    | true => simpa [hopen, hsame] using ⟨hm, hrest⟩
    | false => simpa [hopen, hsame, hm.char_eq] using ih

/-- **The same text is cut into the same name and segments wherever it stands.** -/
theorem split_relocated {f g : Fragment} {parts : NodeParts} (htext : g.text = f.text)
    (h : split f = .ok parts) : ∃ parts', split g = .ok parts' ∧
      parts'.name.text = parts.name.text ∧
      parts'.bodies.map Fragment.text = parts.bodies.map Fragment.text := by
  obtain ⟨bodies, houtside, h⟩ := bind_eq_ok.mp h
  obtain ⟨⟨⟩, hcheck, h⟩ := bind_eq_ok.mp h
  obtain rfl := Except.ok.inj h
  obtain ⟨marks, marks', hscan, hscan', hmarks⟩ := Fragment.scan_relocated htext hcheck
  obtain ⟨hname, hsegments⟩ := span_alike hmarks
  rw [hscan] at houtside
  obtain ⟨bodies', houtside', htexts⟩ := outside_alike hsegments houtside
  have hsplit : split g = .ok ⟨⟨Text.trimEnd ((marks'.takeWhile fun m => !isOpening m).map
      Mark.char), g.offset⟩, bodies'⟩ := by
    simp only [split, hscan', houtside', Scan.check, bind, Except.bind, pure, Except.pure]
  exact ⟨_, hsplit, by simp only [hscan, hname], htexts⟩

end NodeParts

namespace Fragment

variable {separator : Char} {f g : Fragment}

theorem isTop_alike {m m' : Mark} (h : Mark.Alike true m m') : m'.isTop = m.isTop := by
  simp [Mark.isTop, h.plain_eq, h.brackets_eq, h.parens_eq]

theorem cutTop_alike {marks marks' : List Mark} (h : List.Forall₂ (Mark.Alike true) marks marks')
    (start start' : Nat) (chars : List Char) :
    (cutTop separator start' chars marks').map Fragment.text =
      (cutTop separator start chars marks).map Fragment.text := by
  induction h generalizing start start' chars with
  | nil => rfl
  | cons hm hrest ih =>
    rw [cutTop, cutTop, isTop_alike hm, hm.char_eq]
    split
    · rw [List.map_cons, List.map_cons, ih]
    · exact ih _ _ _

/-- **The same text is cut into the same parts wherever it stands.** -/
theorem splitTop_relocated {parts : List Fragment} (htext : g.text = f.text)
    (h : f.splitTop separator = .ok parts) : ∃ parts', g.splitTop separator = .ok parts' ∧
      parts'.map Fragment.text = parts.map Fragment.text := by
  obtain ⟨⟨⟩, hcheck, h⟩ := bind_eq_ok.mp h
  obtain rfl := Except.ok.inj h
  obtain ⟨marks, marks', hscan, hscan', hmarks⟩ := Fragment.scan_relocated htext hcheck
  refine ⟨cutTop separator g.offset [] marks', ?_, ?_⟩
  · simp only [splitTop, hscan', Scan.check, bind, Except.bind, pure, Except.pure]
  · rw [hscan]
    exact cutTop_alike hmarks _ _ _

theorem isClosing_alike {m m' : Mark} (h : Mark.Alike true m m') : isClosing m' = isClosing m := by
  simp [isClosing, h.char_eq, h.plain_eq, h.parens_eq]

theorem findIdx?_alike {marks marks' : List Mark}
    (h : List.Forall₂ (Mark.Alike true) marks marks') :
    marks'.findIdx? isClosing = marks.findIdx? isClosing := by
  induction h with
  | nil => rfl
  | cons hm _ ih => rw [List.findIdx?_cons, List.findIdx?_cons, isClosing_alike hm, ih]

/-- The scanner comes to the end of a group that takes up the whole text. -/
theorem walk_of_closingParen {close : Nat} (h : f.closingParen = .ok close)
    (hend : (f.drop (close + 1)).text = []) :
    ∃ marks t, ScanState.initial.walk true f.offset f.text = some (marks, t) ∧
      marks.findIdx? isClosing = some close := by
  have hfound : (f.scan true).marks.findIdx? isClosing = some close := by
    unfold closingParen at h
    simp only at h
    split at h
    · rename_i i hi
      rw [hi, Except.ok.inj h]
    · simp at h
  have hmarked : f.text.length ≤ (f.scan true).marks.length := by
    obtain ⟨hlt, -⟩ := List.findIdx?_eq_some_iff_getElem.mp hfound
    have hdrop : f.text.length ≤ close + 1 := List.drop_eq_nil_iff.mp hend
    omega
  obtain ⟨marks, t, hwalk⟩ := ScanState.walk_of_length hmarked
  rw [scan, ScanState.run_of_walk hwalk] at hfound
  exact ⟨marks, t, hwalk, hfound⟩

/-- A group that takes up the whole text ends in a parenthesis. -/
theorem last_of_closingParen {close : Nat} (h : f.closingParen = .ok close)
    (hend : (f.drop (close + 1)).text = []) : f.text.getLast? = some ')' := by
  obtain ⟨marks, t, hwalk, hfound⟩ := walk_of_closingParen h hend
  obtain ⟨hlt, hclosing, -⟩ := List.findIdx?_eq_some_iff_getElem.mp hfound
  simp only [isClosing, Bool.and_eq_true, beq_iff_eq] at hclosing
  have hlength : f.text.length ≤ close + 1 := List.drop_eq_nil_iff.mp hend
  rw [← ScanState.map_char_of_walk hwalk, List.length_map] at hlength
  have hlast : close = marks.length - 1 := by omega
  rw [← ScanState.map_char_of_walk hwalk, List.getLast?_map, List.getLast?_eq_getElem?, ← hlast,
    List.getElem?_eq_getElem hlt, Option.map_some, hclosing.1.2]

/-- The end of a group that takes up the whole text. -/
theorem closingParen_relocated {close : Nat} (htext : g.text = f.text)
    (h : f.closingParen = .ok close) (hend : (f.drop (close + 1)).text = []) :
    g.closingParen = .ok close := by
  obtain ⟨marks, t, hwalk, hfound⟩ := walk_of_closingParen h hend
  obtain ⟨marks', t', hwalk', hmarks, -⟩ :=
    (@ScanState.placed_within true [] []).walk id hwalk g.offset
  rw [← htext] at hwalk'
  have hfound' : (g.scan true).marks.findIdx? isClosing = some close := by
    have hscan' : (g.scan true).marks = marks' := congrArg Scan.marks (ScanState.run_of_walk hwalk')
    rw [hscan', findIdx?_alike hmarks, hfound]
  unfold closingParen
  simp only [hfound']

end Fragment

/-! ## Operators -/

namespace Occurrence

/-- What an occurrence says, without its offset. -/
def place (o : Occurrence) : Operator × Nat :=
  (o.op, o.index)

variable {marks marks' : List Mark} {found found' : List Occurrence}

theorem head_alike (h : List.Forall₂ (Mark.Alike true) marks marks') :
    marks'.head?.map Mark.char = marks.head?.map Mark.char := by
  cases h with
  | nil => rfl
  | cons hm _ => exact congrArg some hm.char_eq

/-- The same operators are found among alike marks. -/
theorem scan_alike {context : Context} {index : Nat}
    (h : List.Forall₂ (Mark.Alike true) marks marks') (hok : scan context index marks = .ok found) :
    ∃ found', scan context index marks' = .ok found' ∧ found'.map place = found.map place := by
  fun_induction scan context index marks generalizing marks' found with
  | case1 context index =>
    cases h
    exact ⟨found, hok, rfl⟩
  | case2 context index m rest hblank ih =>
    obtain ⟨m', rest', hm, hrest, rfl⟩ := List.forall₂_cons_left_iff.mp h
    rw [scan, hm.plain_eq, hm.char_eq, if_pos hblank]
    exact ih hrest hok
  | case3 context index m rest hblank htop ih =>
    obtain ⟨m', rest', hm, hrest, rfl⟩ := List.forall₂_cons_left_iff.mp h
    rw [scan, hm.plain_eq, hm.char_eq, Fragment.isTop_alike hm, if_neg hblank, if_pos htop]
    exact ih hrest hok
  | case4 => simp at hok
  | case5 context index m rest hblank htop hop ih =>
    obtain ⟨m', rest', hm, hrest, rfl⟩ := List.forall₂_cons_left_iff.mp h
    rw [scan, hm.plain_eq, hm.char_eq, Fragment.isTop_alike hm, head_alike hrest, hop,
      if_neg hblank, if_neg htop]
    exact ih hrest hok
  | case6 context index m rest hblank htop op hop hwidth ih =>
    obtain ⟨m', rest', hm, hrest, rfl⟩ := List.forall₂_cons_left_iff.mp h
    obtain ⟨later, hlater, rfl⟩ := map_eq_ok.mp hok
    obtain ⟨later', hlater', hplaces⟩ := ih hrest hlater
    rw [scan, hm.plain_eq, hm.char_eq, Fragment.isTop_alike hm, head_alike hrest, hop,
      if_neg hblank, if_neg htop]
    simp only [hwidth, if_true, hlater']
    exact ⟨_, rfl, congrArg (List.cons _) hplaces⟩
  | case7 context index m hblank htop op hwidth hop =>
    obtain ⟨m', rest', hm, hrest, rfl⟩ := List.forall₂_cons_left_iff.mp h
    cases hrest
    obtain rfl := Except.ok.inj hok
    rw [scan, hm.plain_eq, hm.char_eq, Fragment.isTop_alike hm, hop, if_neg hblank, if_neg htop]
    simp only [hwidth, if_false]
    exact ⟨_, rfl, rfl⟩
  | case8 context index m hblank htop op hwidth next after hop ih =>
    obtain ⟨m', rest', hm, hrest, rfl⟩ := List.forall₂_cons_left_iff.mp h
    obtain ⟨later, hlater, rfl⟩ := map_eq_ok.mp hok
    have hhead := head_alike hrest
    obtain ⟨next', after', hn, hafter, rfl⟩ := List.forall₂_cons_left_iff.mp hrest
    obtain ⟨later', hlater', hplaces⟩ := ih hafter hlater
    rw [scan, hm.plain_eq, hm.char_eq, Fragment.isTop_alike hm, hhead, hop, if_neg hblank,
      if_neg htop]
    simp only [hwidth, if_false, hlater']
    exact ⟨_, rfl, congrArg (List.cons _) hplaces⟩

theorem loosest_place (h : found'.map place = found.map place) :
    (loosest found').map place = (loosest found).map place := by
  have htiers : ∀ list : List Occurrence, list.map (fun o => o.op.tier) =
      (list.map place).map fun p => p.1.tier := fun list => by
    rw [List.map_map]
    rfl
  have hfilter : ∀ (list : List Occurrence) (tier : Nat),
      (list.filter fun o => o.op.tier == tier).map place =
        (list.map place).filter fun p => p.1.tier == tier := fun list tier => by
    rw [List.filter_map]
    rfl
  unfold loosest
  rw [htiers, htiers, h]
  split
  · rfl
  · rw [hfilter, hfilter, h]

end Occurrence

/-- **The same text has the same operators wherever it stands.** -/
theorem Fragment.operators_relocated {f g : Fragment} {found : List Occurrence}
    (htext : g.text = f.text) (h : f.operators = .ok found) : ∃ found', g.operators = .ok found' ∧
      found'.map Occurrence.place = found.map Occurrence.place := by
  obtain ⟨all, hall, h⟩ := bind_eq_ok.mp h
  obtain ⟨⟨⟩, hcheck, h⟩ := bind_eq_ok.mp h
  obtain rfl := Except.ok.inj h
  obtain ⟨marks, marks', hscan, hscan', hmarks⟩ := Fragment.scan_relocated htext hcheck
  rw [hscan] at hall
  obtain ⟨found', hfound', hplaces⟩ := Occurrence.scan_alike hmarks hall
  refine ⟨found', ?_, hplaces⟩
  simp only [operators, hscan', hfound', Scan.check, bind, Except.bind, pure, Except.pure]

/-- A fragment whose operators are found is balanced in every place. -/
theorem Fragment.closed_of_operators {f : Fragment} {found : List Occurrence} {grouping : Bool}
    (h : f.operators = .ok found) : Closed grouping (fun _ => True) f.text := by
  obtain ⟨all, -, hrest⟩ := bind_eq_ok.mp h
  obtain ⟨⟨⟩, hcheck, -⟩ := bind_eq_ok.mp hrest
  obtain ⟨marks, hwalk, -⟩ := walk_of_check hcheck
  exact ScanState.closed_of_walk (fun _ => rfl) hwalk

end PathQuery
