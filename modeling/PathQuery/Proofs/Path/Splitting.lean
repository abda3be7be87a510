import PathQuery.Path.Split
import PathQuery.Proofs.Path.Nesting
import PathQuery.Proofs.Text.Trimming

/-! # Cutting a text into the pieces it was joined from

Closed pieces that are joined by separators, brackets or parentheses are found again:
nodes behind their dots (`NodeText.split_join`), a name and the bodies of its segments
(`NodeParts.split_bracketed`), the parts of a union or a slice
(`Fragment.splitTop_join`), and the end of a group (`Fragment.closingParen_grouped`).
-/

namespace PathQuery

/-! ## Nodes -/

namespace NodeText

/-- The text of nodes in a row, each behind one dot, or behind two if it is deep. -/
def join : List (Bool × List Char) → List Char
  | [] => []
  | (deep, text) :: rest => '.' :: ((if deep then '.' :: text else text) ++ join rest)

/-- What a node says, without its place. -/
def key (node : NodeText) : Bool × List Char :=
  (node.deep, node.body.text)

/-- Only a deep node at the end is empty. -/
def Filled : List (Bool × List Char) → Prop
  | [] => True
  | (deep, text) :: rest => (text = [] → deep = true ∧ rest = []) ∧ Filled rest

theorem key_ofReversed (deep : Bool) (start : Nat) (chars : List Char) :
    (ofReversed deep start chars).key = (deep, Text.trim chars.reverse) := rfl

theorem ordinary_dot : Ordinary false '.' := by decide

theorem cut_cons_of_not_dot {m : Mark} (hm : isDot m = false) (deep : Bool) (start : Nat)
    (chars : List Char) (rest : List Mark) :
    cut deep start chars (m :: rest) = cut deep start (m.char :: chars) rest := by
  rw [cut.eq_def]
  simp [hm]

theorem cut_dots {m next : Mark} (hm : isDot m = true) (hnext : next.char = '.') (deep : Bool)
    (start : Nat) (chars : List Char) (rest : List Mark) :
    cut deep start chars (m :: next :: rest) =
      ofReversed deep start chars :: cut true (m.offset + 2) [] rest := by
  rw [cut.eq_def]
  simp [hm, hnext]

theorem cut_dot {m next : Mark} (hm : isDot m = true) (hnext : next.char ≠ '.') (deep : Bool)
    (start : Nat) (chars : List Char) (rest : List Mark) :
    cut deep start chars (m :: next :: rest) =
      ofReversed deep start chars :: cut false (m.offset + 1) [] (next :: rest) := by
  rw [cut.eq_def]
  simp [hm, hnext]

/-- Marks without a dot go to the current node. -/
theorem cut_append {marks : List Mark} (h : ∀ m ∈ marks, isDot m = false) (deep : Bool)
    (start : Nat) (chars : List Char) (rest : List Mark) :
    cut deep start chars (marks ++ rest) =
      cut deep start ((marks.map Mark.char).reverse ++ chars) rest := by
  induction marks generalizing chars with
  | nil => rfl
  | cons m tail ih =>
    rw [List.cons_append, cut_cons_of_not_dot (h m (List.mem_cons_self ..)),
      ih fun m' hm' => h m' (List.mem_cons_of_mem _ hm')]
    simp

/-- A closed text without a dot has no mark that ends a node. -/
theorem exists_marks {text : List Char} (h : Closed false (· ≠ '.') text) (offset : Nat) :
    ∃ marks, ScanState.initial.walk false offset text = some (marks, .initial) ∧
      ∀ m ∈ marks, isDot m = false := by
  obtain ⟨marks, hwalk, hmarks⟩ := h.exists_marks offset
  refine ⟨marks, hwalk, fun m hm => ?_⟩
  have hparens : m.parens = 0 := ScanState.parens_of_walk hwalk m hm
  cases hdot : isDot m with
  | false => rfl
  | true =>
    simp only [isDot, Bool.and_eq_true, beq_iff_eq] at hdot
    have htop : m.isTop = true := by simp [Mark.isTop, hdot.1.1, hdot.2, hparens]
    exact absurd hdot.1.2 (hmarks m hm htop)

/-- The marks of joined nodes are cut into these nodes. -/
theorem exists_marks_join {pieces : List (Bool × List Char)}
    (h : ∀ p ∈ pieces, Closed false (· ≠ '.') p.2 ∧ (p.1 = false → p.2 ≠ [])) (offset : Nat) :
    ∃ marks, ScanState.initial.walk false offset (join pieces) = some (marks, .initial) ∧
      ∀ deep start chars, (cut deep start chars marks).map key =
        (deep, Text.trim chars.reverse) :: pieces.map fun p => (p.1, Text.trim p.2) := by
  induction pieces generalizing offset with
  | nil => exact ⟨[], rfl, fun _ _ _ => rfl⟩
  | cons p rest ih =>
    obtain ⟨deep, text⟩ := p
    obtain ⟨hclosed, hne⟩ := h _ (List.mem_cons_self ..)
    have hrest := ih fun p hp => h p (List.mem_cons_of_mem _ hp)
    have hdot : ∀ o, ScanState.initial.step false o '.' = .ok (.initial, true) :=
      fun _ => ScanState.step_ordinary ordinary_dot
    cases deep with
    | true =>
      obtain ⟨marks, hwalk, hmarks⟩ := exists_marks hclosed (offset + 1 + 1)
      obtain ⟨later, hlater, hcut⟩ := hrest (offset + 1 + 1 + Text.byteSize text)
      refine ⟨_, ScanState.walk_cons (hdot _) (ScanState.walk_cons (hdot _)
        (ScanState.walk_append hwalk hlater)), fun deep start chars => ?_⟩
      have hchars := ScanState.map_char_of_walk hwalk
      rw [cut_dots rfl rfl, List.map_cons, cut_append hmarks, hcut, hchars]
      simp [key_ofReversed]
    | false =>
      obtain ⟨marks, hwalk, hmarks⟩ := exists_marks hclosed (offset + 1)
      obtain ⟨later, hlater, hcut⟩ := hrest (offset + 1 + Text.byteSize text)
      refine ⟨_, ScanState.walk_cons (hdot _) (ScanState.walk_append hwalk hlater),
        fun deep start chars => ?_⟩
      have hchars := ScanState.map_char_of_walk hwalk
      -- the first character of the node is no dot, so there is one dot before it
      obtain ⟨c, tail, rfl⟩ := List.exists_cons_of_ne_nil (hne rfl)
      obtain ⟨m, others, rfl⟩ : ∃ m others, marks = m :: others :=
        List.exists_cons_of_ne_nil (by rintro rfl; simp at hchars)
      have hm : m.char ≠ '.' := by
        rintro hm
        obtain rfl : '.' = c := by simpa [hm] using (List.cons.inj hchars).1
        exact hclosed.of_head ordinary_dot rfl
      rw [List.cons_append, cut_dot rfl hm, List.map_cons, ← List.cons_append,
        cut_append hmarks, hcut, hchars]
      simp [key_ofReversed]

theorem checkNonempty_of_filled {nodes : List NodeText} (h : Filled (nodes.map key)) :
    checkNonempty nodes = .ok () := by
  induction nodes with
  | nil => rfl
  | cons node rest ih =>
    obtain ⟨hnode, hrest⟩ := h
    rw [checkNonempty, if_neg, ih hrest]
    simp only [Bool.and_eq_true, List.isEmpty_iff, Bool.not_eq_true', Bool.and_eq_false_imp]
    rintro ⟨hempty, hnot⟩
    obtain ⟨hdeep, hlast⟩ := hnode hempty
    have hnone : rest = [] := List.map_eq_nil_iff.mp hlast
    simp [hnone] at hnot
    exact absurd hdeep (by simpa [key] using hnot)

/-- **Joined nodes are cut into these nodes.** -/
theorem split_join {f : Fragment} {first : List Char} {pieces : List (Bool × List Char)}
    (hf : f.text = first ++ join pieces) (hfirst : Closed false (· ≠ '.') first)
    (hpieces : ∀ p ∈ pieces, Closed false (· ≠ '.') p.2 ∧ (p.1 = false → p.2 ≠ []))
    (hfilled : Filled ((false, Text.trim first) :: pieces.map fun p => (p.1, Text.trim p.2))) :
    ∃ nodes, split f = .ok nodes ∧
      nodes.map key = (false, Text.trim first) :: pieces.map fun p => (p.1, Text.trim p.2) := by
  obtain ⟨marks, hwalk, hmarks⟩ := exists_marks hfirst f.offset
  obtain ⟨later, hlater, hcut⟩ := exists_marks_join hpieces (f.offset + Text.byteSize first)
  have hscan : f.scan false = ⟨marks ++ later, none⟩ :=
    Fragment.scan_of_walk (hf ▸ ScanState.walk_append hwalk hlater)
  have hkeys : (cut false f.offset [] (marks ++ later)).map key =
      (false, Text.trim first) :: pieces.map fun p => (p.1, Text.trim p.2) := by
    rw [cut_append hmarks, hcut, ScanState.map_char_of_walk hwalk]
    simp
  refine ⟨_, ?_, hkeys⟩
  have hcheck := checkNonempty_of_filled (hkeys ▸ hfilled)
  simp [split, hscan, Scan.check, hcheck, bind, Except.bind, pure, Except.pure]

end NodeText

/-! ## Names and segments -/

namespace NodeParts

/-- The text of a segment. -/
def bracketed (body : List Char) : List Char :=
  '[' :: (body ++ [']'])

/-- Marks inside brackets go to the body of the segment. -/
theorem inside_append {marks : List Mark} (h : ∀ m ∈ marks, 0 < m.brackets) (start : Nat)
    (chars : List Char) (rest : List Mark) :
    inside start chars (marks ++ rest) =
      inside start ((marks.map Mark.char).reverse ++ chars) rest := by
  induction marks generalizing chars with
  | nil => rfl
  | cons m tail ih =>
    have hlevel : (m.brackets == 0) = false :=
      beq_eq_false_iff_ne.mpr (Nat.ne_of_gt (h m (List.mem_cons_self ..)))
    rw [List.cons_append, inside]
    simp only [hlevel, Bool.and_false, Bool.false_eq_true, if_false]
    rw [ih fun m' hm' => h m' (List.mem_cons_of_mem _ hm')]
    simp

/-- The marks of segments in a row give the bodies of these segments. -/
theorem exists_marks_bracketed {bodies : List (List Char)}
    (h : ∀ t ∈ bodies, Closed false (fun _ => True) t) (offset : Nat) :
    ∃ marks, ScanState.initial.walk false offset (bodies.flatMap bracketed) =
        some (marks, .initial) ∧
      (∃ found, outside marks = .ok found ∧ found.map Fragment.text = bodies) ∧
      ∀ m, marks.head? = some m → isOpening m = true := by
  induction bodies generalizing offset with
  | nil => exact ⟨[], rfl, ⟨[], rfl, rfl⟩, nofun⟩
  | cons t rest ih =>
    obtain ⟨inner, hwalk, hchars, hinner⟩ :=
      (h t (List.mem_cons_self ..)).walk_bracketed [] [] offset
    obtain ⟨later, hlater, ⟨found, hfound, htexts⟩, -⟩ :=
      ih (fun t ht => h t (List.mem_cons_of_mem _ ht)) (offset + Text.byteSize (bracketed t))
    refine ⟨_, ScanState.walk_append hwalk hlater, ⟨⟨t, offset + 1⟩ :: found, ?_, ?_⟩, ?_⟩
    -- the bracket that closes the segment is the first one back at level zero
    · have hdeep : ∀ m ∈ inner, 0 < m.brackets := fun m hm => (hinner m hm).1
      have hopen : ∀ marks, outside (⟨'[', offset, true, 1, 0⟩ :: marks) =
          inside (offset + 1) [] marks := fun marks => by simp [outside]
      rw [List.cons_append, List.append_assoc]
      refine (hopen _).trans ?_
      rw [inside_append hdeep]
      simp [inside, hfound, hchars, Except.map]
    · rw [List.map_cons, htexts]
    · rintro m ⟨⟩
      rfl

/-- **A name and its segments are cut apart.** -/
theorem split_bracketed {f : Fragment} {name : List Char} {bodies : List (List Char)}
    (hf : f.text = name ++ bodies.flatMap bracketed) (hname : Flat false (· ≠ '[') name)
    (hbodies : ∀ t ∈ bodies, Closed false (fun _ => True) t) :
    ∃ parts, split f = .ok parts ∧ parts.name.text = Text.trimEnd name ∧
      parts.bodies.map Fragment.text = bodies := by
  obtain ⟨marks, hwalk, hmarks⟩ := hname [] [] f.offset
  obtain ⟨later, hlater, ⟨found, hfound, htexts⟩, hhead⟩ :=
    exists_marks_bracketed hbodies (f.offset + Text.byteSize name)
  have hscan : f.scan false = ⟨marks ++ later, none⟩ :=
    Fragment.scan_of_walk (hf ▸ ScanState.walk_append hwalk hlater)
  -- the name has no bracket at the top level, so it ends where the first segment starts
  have hclosed : ∀ m ∈ marks, (!isOpening m) = true := by
    intro m hm
    by_contra hopen
    simp only [isOpening, Bool.not_eq_true', Bool.not_eq_false, Bool.and_eq_true,
      beq_iff_eq] at hopen
    exact (hmarks m hm).2.2 hopen.1 hopen.2
  have htake : (marks ++ later).takeWhile (fun m => !isOpening m) = marks := by
    rw [List.takeWhile_append_of_pos hclosed]
    cases later with
    | nil => simp
    | cons m tail => simp [hhead m rfl]
  have hdrop : (marks ++ later).dropWhile (fun m => !isOpening m) = later := by
    rw [List.dropWhile_append_of_pos hclosed]
    cases later with
    | nil => rfl
    | cons m tail => simp [hhead m rfl]
  refine ⟨⟨⟨Text.trimEnd name, f.offset⟩, found⟩, ?_, rfl, htexts⟩
  simp [split, hscan, htake, hdrop, hfound, ScanState.map_char_of_walk hwalk, Scan.check, bind,
    Except.bind, pure, Except.pure]

end NodeParts

/-! ## Parts of a segment, and groups -/

namespace Fragment

variable {separator : Char}

/-- Marks without a separator go to the current part. -/
theorem cutTop_append {marks : List Mark} (h : ∀ m ∈ marks, m.isTop = true → m.char ≠ separator)
    (start : Nat) (chars : List Char) (rest : List Mark) :
    cutTop separator start chars (marks ++ rest) =
      cutTop separator start ((marks.map Mark.char).reverse ++ chars) rest := by
  induction marks generalizing chars with
  | nil => rfl
  | cons m tail ih =>
    have hm : ¬(m.isTop && m.char == separator) = true := by
      rw [Bool.and_eq_true, beq_iff_eq]
      exact fun hm => h m (List.mem_cons_self ..) hm.1 hm.2
    rw [List.cons_append, cutTop, if_neg hm, ih fun m' hm' => h m' (List.mem_cons_of_mem _ hm')]
    simp

/-- The marks of parts behind separators are cut into these parts. -/
theorem exists_marks_separated (hsep : Ordinary true separator) {parts : List (List Char)}
    (h : ∀ t ∈ parts, Closed true (· ≠ separator) t) (offset : Nat) :
    ∃ marks, ScanState.initial.walk true offset (parts.flatMap (separator :: ·)) =
        some (marks, .initial) ∧
      ∀ start chars, (cutTop separator start chars marks).map Fragment.text =
        chars.reverse :: parts := by
  induction parts generalizing offset with
  | nil => exact ⟨[], rfl, fun _ _ => rfl⟩
  | cons t rest ih =>
    obtain ⟨marks, hwalk, hmarks⟩ :=
      (h t (List.mem_cons_self ..)).exists_marks (offset + separator.utf8Size)
    obtain ⟨later, hlater, hcut⟩ := ih (fun t ht => h t (List.mem_cons_of_mem _ ht))
      (offset + separator.utf8Size + Text.byteSize t)
    have hstep : ScanState.initial.step true offset separator = .ok (.initial, true) :=
      ScanState.step_ordinary hsep
    refine ⟨_, ScanState.walk_cons hstep (ScanState.walk_append hwalk hlater),
      fun start chars => ?_⟩
    have htop : Mark.isTop ⟨separator, offset, true, 0, 0⟩ = true := rfl
    rw [cutTop]
    simp only [ScanState.initial, List.length_nil, htop, BEq.rfl, Bool.and_self, if_true,
      List.map_cons]
    rw [cutTop_append hmarks, hcut, ScanState.map_char_of_walk hwalk]
    simp

/-- **Parts joined by a separator are cut apart.** -/
theorem splitTop_join {f : Fragment} {first : List Char} {rest : List (List Char)}
    (hsep : Ordinary true separator) (hf : f.text = first ++ rest.flatMap (separator :: ·))
    (hparts : ∀ t ∈ first :: rest, Closed true (· ≠ separator) t) :
    ∃ parts, f.splitTop separator = .ok parts ∧ parts.map Fragment.text = first :: rest := by
  obtain ⟨marks, hwalk, hmarks⟩ := (hparts first (List.mem_cons_self ..)).exists_marks f.offset
  obtain ⟨later, hlater, hcut⟩ := exists_marks_separated hsep
    (fun t ht => hparts t (List.mem_cons_of_mem _ ht)) (f.offset + Text.byteSize first)
  have hscan : f.scan true = ⟨marks ++ later, none⟩ :=
    Fragment.scan_of_walk (hf ▸ ScanState.walk_append hwalk hlater)
  refine ⟨cutTop separator f.offset [] (marks ++ later), ?_, ?_⟩
  · simp [splitTop, hscan, Scan.check, bind, Except.bind, pure, Except.pure]
  · rw [cutTop_append hmarks, hcut, ScanState.map_char_of_walk hwalk]
    simp

/-- **A closed text in parentheses is closed by the last of them.** -/
theorem closingParen_grouped {f : Fragment} {text : List Char} {P : Char → Prop}
    (hf : f.text = '(' :: (text ++ [')'])) (h : Closed true P text) :
    f.closingParen = .ok (text.length + 1) := by
  obtain ⟨inner, hwalk, hchars, hinner⟩ := h.walk_grouped [] [] f.offset
  have hscan := Fragment.scan_of_walk (hf ▸ hwalk)
  have hnone : ∀ m ∈ inner, isClosing m = false := by
    intro m hm
    have hlevel : (m.parens == 0) = false :=
      beq_eq_false_iff_ne.mpr (Nat.ne_of_gt (hinner m hm).2)
    simp [isClosing, hlevel]
  have hlength : inner.length = text.length := by rw [← hchars, List.length_map]
  have hfind : inner.findIdx? isClosing = none := by simpa using hnone
  have hfirst : isClosing ⟨'(', f.offset, true, 0, 1⟩ = false := rfl
  have hlast : isClosing ⟨')', f.offset + 1 + Text.byteSize text, true, 0, 0⟩ = true := rfl
  simp [closingParen, hscan, List.findIdx?_cons, hfirst, List.findIdx?_append, hfind, hlast,
    hlength]

end Fragment
end PathQuery
