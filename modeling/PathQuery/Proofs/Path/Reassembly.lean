import PathQuery.Proofs.Path.Balance
import PathQuery.Proofs.Path.BareName
import PathQuery.Proofs.Path.OperatorScan
import PathQuery.Proofs.Path.SlicedOperators
import PathQuery.Proofs.Path.SlicedPieces

/-! # Putting a text together again

What the splitters cut a text into makes up the text again: nodes with the dots between them
(`NodeText.makeUp_of_split`), a name and its segments (`NodeParts.makeUp_of_split`), the parts of
a union or a slice (`Fragment.joined_of_splitTop`), the operands of an operator
(`Occurrence.divides_of_operators`).  Only white space at the ends of a piece is left out, and
every piece is balanced, so that the next stage can scan it on its own.

Each splitter walks over the marks of a scan and gathers the marks of the current piece.  The
lemmas on its loop say so: the marks are those gathered so far, `front`, and those that are left.
-/

namespace PathQuery

open ScanState (initial within)

/-! ## Nodes -/

namespace NodeText

/-- The node without the white space around it.  Escaped white space is left out too: such a node
ends in an open escape, and the next stage refuses it. -/
def trimmed (node : NodeText) : NodeText :=
  ⟨node.deep, node.body.trim⟩

/-- The nodes make up the fragment: they are its pieces between the dots, each without the white
space around it.  A piece is balanced and has no dot outside brackets. -/
def MakeUp (f : Fragment) (nodes : List NodeText) : Prop :=
  ∃ first rest, nodes = (first :: rest).map trimmed ∧ first.deep = false ∧
    f.text = first.body.text ++ join (rest.map key) ∧
    ∀ piece ∈ first :: rest, piece.body.IsPiece false isDot

variable {f : Fragment} {deep : Bool} {start : Nat} {text chars : List Char} {m : Mark}
  {marks front back : List Mark}

/-- A dot ends a piece, and another one may begin behind it. -/
theorem isPiece_of_dot (hwalk : initial.walk false start text = some (front ++ m :: back, initial))
    (hfront : ∀ m ∈ front, isDot m = false) (hdot : isDot m = true) :
    (Fragment.mk (front.map Mark.char) start).IsPiece false isDot ∧
      initial.walk false (m.offset + 1) (back.map Mark.char) = some (back, initial) ∧
      text = front.map Mark.char ++ '.' :: back.map Mark.char := by
  have hchar : m.char = '.' := char_of_isDot hdot
  have hparens : m.parens = 0 := ScanState.parens_of_walk hwalk m (by simp)
  have htop : m.isTop = true := by
    simp only [isDot, Bool.and_eq_true] at hdot
    simp [Mark.isTop, hdot.1.1, hparens, beq_iff_eq.mp hdot.2]
  obtain ⟨t, hpiece, ht, hback⟩ := ScanState.exists_of_walk_top hwalk htop
  obtain rfl := ht (by simp [hchar]) (by simp [hchar])
  refine ⟨.of_walk hpiece hfront, by rwa [hchar] at hback, ?_⟩
  rw [← ScanState.map_char_of_walk hwalk, List.map_append, List.map_cons, hchar]

theorem ofReversed_eq (hchars : chars = (front.map Mark.char).reverse) :
    ofReversed deep start chars = trimmed ⟨deep, front.map Mark.char, start⟩ := by
  rw [ofReversed, hchars, List.reverse_reverse]
  rfl

/-- The loop cuts what it has gathered and what is left into pieces. -/
theorem exists_of_cut (front : List Mark)
    (hwalk : initial.walk false start text = some (front ++ marks, initial))
    (hfront : ∀ m ∈ front, isDot m = false) (hchars : chars = (front.map Mark.char).reverse) :
    ∃ first rest, cut deep start chars marks = (first :: rest).map trimmed ∧ first.deep = deep ∧
      text = first.body.text ++ join (rest.map key) ∧
      ∀ piece ∈ first :: rest, piece.body.IsPiece false isDot := by
  fun_induction cut deep start chars marks generalizing front text with
  | case1 deep start chars =>
    rw [List.append_nil] at hwalk
    have htext := ScanState.map_char_of_walk hwalk
    refine ⟨⟨deep, front.map Mark.char, start⟩, [], by rw [ofReversed_eq hchars]; rfl, rfl, ?_, ?_⟩
    · rw [← htext]
      simp [join]
    · rw [List.forall_mem_singleton]
      exact .of_walk (htext ▸ hwalk) hfront
  | case2 deep start chars m hdot =>
    obtain ⟨hfirst, hlast, htext⟩ := isPiece_of_dot hwalk hfront hdot
    refine ⟨⟨deep, front.map Mark.char, start⟩, [⟨false, [], m.offset + 1⟩],
      by rw [ofReversed_eq hchars]; rfl, rfl, htext, ?_⟩
    simpa using ⟨hfirst, .of_walk hlast (by simp)⟩
  | case3 deep start chars m hdot next after hnext ih =>
    obtain ⟨hfirst, hlater, htext⟩ := isPiece_of_dot hwalk hfront hdot
    rw [List.map_cons, hnext] at hlater
    obtain ⟨-, hafter⟩ := ScanState.walk_of_ordinary ordinary_dot hlater
    obtain ⟨piece, rest, hcut, hdeep, hrest, hpieces⟩ := ih [] hafter (by simp) rfl
    refine ⟨⟨deep, front.map Mark.char, start⟩, piece :: rest,
      by rw [ofReversed_eq hchars, hcut]; rfl, rfl, ?_,
      List.forall_mem_cons.mpr ⟨hfirst, hpieces⟩⟩
    rw [htext, List.map_cons, hnext, hrest, List.map_cons, key, hdeep, join]
    rfl
  | case4 deep start chars m hdot next after hnext ih =>
    obtain ⟨hfirst, hlater, htext⟩ := isPiece_of_dot hwalk hfront hdot
    obtain ⟨piece, rest, hcut, hdeep, hrest, hpieces⟩ := ih [] hlater (by simp) rfl
    refine ⟨⟨deep, front.map Mark.char, start⟩, piece :: rest,
      by rw [ofReversed_eq hchars, hcut]; rfl, rfl, ?_,
      List.forall_mem_cons.mpr ⟨hfirst, hpieces⟩⟩
    rw [htext, hrest, List.map_cons, key, hdeep, join]
    rfl
  | case5 deep start chars m marks hdot ih =>
    refine ih (front ++ [m]) (by rwa [List.append_assoc]) ?_ (by simp [hchars])
    rw [List.forall_mem_append, List.forall_mem_singleton]
    exact ⟨hfront, by simpa using hdot⟩

/-- **Nodes with the dots between them make up the text.** -/
theorem makeUp_of_split {nodes : List NodeText} (h : split f = .ok nodes) : MakeUp f nodes := by
  obtain ⟨⟨⟩, hcheck, h⟩ := bind_eq_ok.mp h
  obtain ⟨⟨⟩, -, h⟩ := bind_eq_ok.mp h
  obtain rfl := Except.ok.inj h
  obtain ⟨marks, hwalk, hscan⟩ := Fragment.walk_of_check hcheck
  rw [hscan]
  exact exists_of_cut [] hwalk (by simp) rfl

end NodeText

/-! ## Names and segments -/

namespace NodeParts

/-- The text consists of the bodies in brackets, one after the other, and of white space between
and around these segments. -/
inductive Spaced : List Char → List Fragment → Prop
  | nil : Spaced [] []
  | blank {c : Char} {text : List Char} {bodies : List Fragment} :
      Text.isBlank c = true → Spaced text bodies → Spaced (c :: text) bodies
  | segment (body : Fragment) {text : List Char} {bodies : List Fragment} :
      Spaced text bodies → Spaced ('[' :: (body.text ++ ']' :: text)) (body :: bodies)

/-- Without bodies, the text is white space. -/
theorem Spaced.trimEnd_append {text : List Char} (h : Spaced text []) (name : List Char) :
    Text.trimEnd (name ++ text) = Text.trimEnd name := by
  generalize hbodies : ([] : List Fragment) = bodies at h
  induction h generalizing name with
  | nil => rw [List.append_nil]
  | blank hc _ ih => rw [List.append_cons, ih _ hbodies, Text.trimEnd_append_blank hc]
  | segment => cases hbodies

/-- The name and the bodies make up the fragment: the name, without the white space behind it, and
then the bodies in brackets.  The name is balanced and has no bracket, and a body is balanced. -/
def MakeUp (f : Fragment) (parts : NodeParts) : Prop :=
  ∃ name segments, f.text = name ++ segments ∧ parts.name = ⟨Text.trimEnd name, f.offset⟩ ∧
    Spaced segments parts.bodies ∧ (Fragment.mk name f.offset).IsPiece false isOpening ∧
    ∀ body ∈ parts.bodies, body.Balanced false

mutual

/-- What is left outside brackets is white space and segments. -/
theorem spaced_of_outside {offset : Nat} {text : List Char} {marks : List Mark}
    {bodies : List Fragment}
    (hwalk : initial.walk false offset text = some (marks, initial))
    (h : outside marks = .ok bodies) :
    Spaced text bodies ∧ ∀ body ∈ bodies, body.Balanced false := by
  match marks with
  | [] =>
    obtain rfl : [] = bodies := Except.ok.inj h
    obtain rfl : [] = text := ScanState.map_char_of_walk hwalk
    exact ⟨.nil, by simp⟩
  | m :: marks =>
    obtain ⟨t, hstep, hoffset, hbrackets, -, htail⟩ := ScanState.exists_of_walk_mark hwalk
    obtain rfl := ScanState.map_char_of_walk hwalk
    rw [outside] at h
    split at h
    · rename_i hopen
      simp only [Bool.and_eq_true, beq_iff_eq] at hopen
      rw [hopen.1.2] at hstep htail
      obtain ⟨rfl, -⟩ := Prod.mk.inj (Except.ok.inj (hstep.symm.trans ScanState.step_opening))
      rw [List.map_cons, hopen.1.2]
      exact spaced_of_inside [] (hoffset ▸ htail) (by simp) h rfl
    · rename_i hopen
      split at h
      · cases h
      · rename_i hblank
        -- no bracket is opened here, and none is open, so the character is white space
        have hnone : t.brackets = [] := by
          rcases ScanState.step_brackets hstep with ⟨hplain, hc, honce⟩ | ⟨-, -, start, hclose⟩ |
            ⟨-, -, hsame⟩
          · simp [hplain, hc, hbrackets, honce, ScanState.initial] at hopen
          · cases hclose
          · exact hsame
        have hc : Text.isBlank m.char = true := by simpa [hbrackets, hnone] using hblank
        have hsame : initial.step false offset m.char = .ok (initial, true) :=
          ScanState.step_ordinary (KeyTest.ordinary_of_isBlank hc)
        obtain ⟨rfl, -⟩ := Prod.mk.inj (Except.ok.inj (hstep.symm.trans hsame))
        obtain ⟨hspaced, hbodies⟩ := spaced_of_outside htail h
        exact ⟨.blank hc hspaced, hbodies⟩

/-- What is left inside a bracket is the rest of its body, and then white space and segments. -/
theorem spaced_of_inside {opening start : Nat} {text chars : List Char} (front : List Mark)
    {marks : List Mark} {bodies : List Fragment}
    (hwalk : (within [opening] []).walk false start text = some (front ++ marks, initial))
    (hlevel : ∀ m ∈ front, 0 < m.brackets) (h : inside start chars marks = .ok bodies)
    (hchars : chars = (front.map Mark.char).reverse) :
    Spaced ('[' :: text) bodies ∧ ∀ body ∈ bodies, body.Balanced false := by
  obtain ⟨t, hfront, hback⟩ := ScanState.exists_of_walk_marks hwalk
  have hopen := ScanState.brackets_ne_nil_of_walk hfront hlevel
  match marks with
  | [] =>
    obtain ⟨-, rfl⟩ : True ∧ t = initial := by simpa [ScanState.walk] using hback
    exact absurd rfl hopen
  | m :: marks =>
    obtain ⟨after, hstep, -, hbrackets, -, htail⟩ := ScanState.exists_of_walk_mark hback
    rw [inside] at h
    split at h
    · rename_i hclose
      simp only [Bool.and_eq_true, beq_iff_eq] at hclose
      obtain ⟨⟨hplain, hc⟩, hnone⟩ := hclose
      obtain ⟨later, hlater, rfl⟩ := map_eq_ok.mp h
      rw [hplain, hc] at hstep
      have hafter : after.brackets = [] := List.length_eq_zero_iff.mp (hbrackets.symm.trans hnone)
      have hbody := ScanState.walk_body hfront hlevel hstep hafter
      obtain rfl : after = initial := by
        have hparens : after.parens = [] :=
          (ScanState.step_parens hstep).trans (ScanState.walk_parens hfront)
        rw [(ScanState.within_of_plain hstep).2, hafter, hparens]
        rfl
      obtain ⟨hspaced, hbodies⟩ := spaced_of_outside htail hlater
      have htext : text = chars.reverse ++ ']' :: marks.map Mark.char := by
        rw [← ScanState.map_char_of_walk hwalk, hchars, List.reverse_reverse, List.map_append,
          List.map_cons, hc]
      rw [htext]
      refine ⟨.segment ⟨chars.reverse, start⟩ hspaced, List.forall_mem_cons.mpr
        ⟨Fragment.balanced_iff_walk.mpr ?_, hbodies⟩⟩
      rwa [hchars, List.reverse_reverse]
    · rename_i hclose
      refine spaced_of_inside (front ++ [m]) (by rwa [List.append_assoc]) ?_ h
        (by simp [hchars])
      rw [List.forall_mem_append, List.forall_mem_singleton]
      refine ⟨hlevel, hbrackets ▸ List.length_pos_iff.mpr fun hnone => ?_⟩
      rcases ScanState.step_brackets hstep with ⟨-, -, honce⟩ | ⟨hplain, hc, -⟩ | ⟨-, -, hsame⟩
      · simp [hnone] at honce
      · simp [hplain, hc, hbrackets, hnone] at hclose
      · exact hopen (hsame ▸ hnone)

end

/-- Where no bracket is opened, none is open. -/
theorem brackets_of_name {s t : ScanState} {offset : Nat} {text : List Char} {marks : List Mark}
    (h : s.walk false offset text = some (marks, t)) (hs : s.brackets = [])
    (hname : ∀ m ∈ marks, isOpening m = false) : t.brackets = [] := by
  induction text generalizing s offset marks with
  | nil =>
    obtain ⟨-, rfl⟩ : [] = marks ∧ s = t := by simpa [ScanState.walk] using h
    exact hs
  | cons c rest ih =>
    obtain ⟨after, plain, tail, hstep, htail, rfl⟩ := ScanState.exists_of_walk_cons h
    rw [List.forall_mem_cons] at hname
    refine ih htail ?_ hname.2
    rcases ScanState.step_brackets hstep with ⟨hplain, hc, -⟩ | ⟨-, -, start, hclose⟩ |
      ⟨-, -, hsame⟩
    · simp [isOpening, hplain, hc] at hname
    · simp [hs] at hclose
    · exact hsame.trans hs

/-- **A name and its segments make up the text.** -/
theorem makeUp_of_split {f : Fragment} {parts : NodeParts} (h : split f = .ok parts) :
    MakeUp f parts := by
  obtain ⟨bodies, houtside, h⟩ := bind_eq_ok.mp h
  obtain ⟨⟨⟩, hcheck, h⟩ := bind_eq_ok.mp h
  obtain rfl := Except.ok.inj h
  obtain ⟨marks, hwalk, hscan⟩ := Fragment.walk_of_check hcheck
  rw [hscan] at houtside ⊢
  have hsplit := List.takeWhile_append_dropWhile (p := fun m => !isOpening m) (l := marks)
  have hname : ∀ m ∈ marks.takeWhile fun m => !isOpening m, isOpening m = false := fun m hm => by
    simpa using List.all_eq_true.mp List.all_takeWhile m hm
  have hhead := List.head?_dropWhile_not (fun m => !isOpening m) marks
  dsimp only at houtside ⊢
  generalize (marks.takeWhile fun m => !isOpening m) = front at *
  generalize (marks.dropWhile fun m => !isOpening m) = back at *
  subst hsplit
  obtain ⟨t, hfront, hback⟩ := ScanState.exists_of_walk_marks hwalk
  -- the name ends at the end of the text or in front of a plain bracket, with nothing open
  obtain rfl : t = initial := by
    cases back with
    | nil => simpa [ScanState.walk] using hback
    | cons m tail =>
      obtain ⟨after, hstep, -⟩ := ScanState.exists_of_walk_mark hback
      have hopen : m.plain = true := by
        simp [isOpening] at hhead
        exact hhead.1
      rw [hopen] at hstep
      have hparens : t.parens = [] := ScanState.walk_parens hfront
      rw [(ScanState.within_of_plain hstep).1, brackets_of_name hfront rfl hname, hparens]
      rfl
  obtain ⟨hspaced, hbodies⟩ := spaced_of_outside hback houtside
  refine ⟨front.map Mark.char, back.map Mark.char, ?_, rfl, hspaced, .of_walk hfront hname,
    hbodies⟩
  rw [← ScanState.map_char_of_walk hwalk, List.map_append]

end NodeParts

/-! ## Parts of a segment -/

namespace Fragment

variable {f : Fragment} {separator : Char} {start : Nat} {text chars : List Char}
  {marks front : List Mark} {parts : List Fragment}

/-- A plain separator outside brackets and parentheses. -/
def isSeparator (separator : Char) (m : Mark) : Bool :=
  m.isTop && m.char == separator

theorem cutTop_ne_nil : cutTop separator start chars marks ≠ [] := by
  induction marks generalizing start chars with
  | nil => exact List.cons_ne_nil _ _
  | cons m rest ih =>
    rw [cutTop]
    split
    · exact List.cons_ne_nil _ _
    · exact ih

/-- The loop cuts at separators and leaves everything else. -/
theorem joined_cutTop (separator : Char) (start : Nat) (chars : List Char) (marks : List Mark) :
    [separator].intercalate ((cutTop separator start chars marks).map Fragment.text) =
      chars.reverse ++ marks.map Mark.char := by
  fun_induction cutTop separator start chars marks with
  | case1 start chars => simp
  | case2 start chars m rest hcut ih =>
    simp only [Bool.and_eq_true, beq_iff_eq] at hcut
    obtain ⟨part, later, hlater⟩ := List.exists_cons_of_ne_nil
      (@cutTop_ne_nil separator (m.offset + separator.utf8Size) [] rest)
    rw [hlater, List.map_cons] at ih ⊢
    rw [List.map_cons, List.intercalate_cons_cons, ih, List.map_cons, hcut.2]
    simp
  | case3 start chars m rest hcut ih =>
    rw [ih]
    simp

/-- The loop cuts between balanced parts, if nothing is closed by the separator. -/
theorem isPiece_of_mem_cutTop (hbracket : separator ≠ ']') (hparen : separator ≠ ')')
    (front : List Mark)
    (hwalk : initial.walk true start text = some (front ++ marks, initial))
    (hfront : ∀ m ∈ front, isSeparator separator m = false)
    (hchars : chars = (front.map Mark.char).reverse) :
    ∀ part ∈ cutTop separator start chars marks, part.IsPiece true (isSeparator separator) := by
  fun_induction cutTop separator start chars marks generalizing front text with
  | case1 start chars =>
    rw [List.append_nil] at hwalk
    rw [List.forall_mem_singleton, hchars, List.reverse_reverse]
    exact .of_walk (ScanState.map_char_of_walk hwalk ▸ hwalk) hfront
  | case2 start chars m rest hcut ih =>
    rw [Bool.and_eq_true, beq_iff_eq] at hcut
    obtain ⟨t, hpart, ht, hrest⟩ := ScanState.exists_of_walk_top hwalk hcut.1
    obtain rfl := ht (hcut.2 ▸ hbracket) (hcut.2 ▸ hparen)
    rw [hcut.2] at hrest
    rw [List.forall_mem_cons, hchars, List.reverse_reverse]
    exact ⟨.of_walk hpart hfront, ih [] hrest (by simp) rfl⟩
  | case3 start chars m rest hcut ih =>
    refine ih (front ++ [m]) (by rwa [List.append_assoc]) ?_ (by simp [hchars])
    rw [List.forall_mem_append, List.forall_mem_singleton]
    exact ⟨hfront, by simpa [isSeparator] using hcut⟩

/-- **Parts joined by the separator are the text.** -/
theorem joined_of_splitTop (h : f.splitTop separator = .ok parts) :
    [separator].intercalate (parts.map Fragment.text) = f.text := by
  obtain ⟨⟨⟩, hcheck, h⟩ := bind_eq_ok.mp h
  obtain rfl := Except.ok.inj h
  obtain ⟨marks, hwalk, hscan⟩ := walk_of_check hcheck
  rw [hscan, joined_cutTop, ScanState.map_char_of_walk hwalk]
  rfl

/-- **Parts are balanced and have no separator.** -/
theorem isPiece_of_splitTop (hbracket : separator ≠ ']') (hparen : separator ≠ ')')
    (h : f.splitTop separator = .ok parts) :
    ∀ part ∈ parts, part.IsPiece true (isSeparator separator) := by
  obtain ⟨⟨⟩, hcheck, h⟩ := bind_eq_ok.mp h
  obtain rfl := Except.ok.inj h
  obtain ⟨marks, hwalk, hscan⟩ := walk_of_check hcheck
  rw [hscan]
  exact isPiece_of_mem_cutTop hbracket hparen [] hwalk (by simp) rfl

end Fragment

/-! ## Operands -/

namespace Occurrence

variable {f : Fragment} {context : Context} {index : Nat} {marks : List Mark}
  {found : List Occurrence} {o : Occurrence}

/-- An operator that is found begins at a plain character outside everything. -/
theorem exists_mark_of_mem_scan (h : scan context index marks = .ok found) (ho : o ∈ found) :
    ∃ front m back, marks = front ++ m :: back ∧ o.index = index + front.length ∧
      m.isTop = true ∧ o.op.symbol.toList.head? = some m.char := by
  have hhead : ∀ {context : Context} {c : Char} {next : Option Char} {op : Operator},
      context.operatorAt c next = .ok (some op) → op.symbol.toList.head? = some c := fun hop => by
    rcases symbol_of_operatorAt hop with hsymbol | ⟨d, -, hsymbol⟩ <;> rw [hsymbol] <;> rfl
  fun_induction scan context index marks generalizing found with
  | case1 =>
    obtain rfl := Except.ok.inj h
    cases ho
  | case2 context index m rest hblank ih =>
    obtain ⟨front, n, back, rfl, hindex, hn⟩ := ih h ho
    exact ⟨m :: front, n, back, rfl, by rw [hindex, List.length_cons]; omega, hn⟩
  | case3 context index m rest hblank htop ih =>
    obtain ⟨front, n, back, rfl, hindex, hn⟩ := ih h ho
    exact ⟨m :: front, n, back, rfl, by rw [hindex, List.length_cons]; omega, hn⟩
  | case4 => cases h
  | case5 context index m rest hblank htop hop ih =>
    obtain ⟨front, n, back, rfl, hindex, hn⟩ := ih h ho
    exact ⟨m :: front, n, back, rfl, by rw [hindex, List.length_cons]; omega, hn⟩
  | case6 context index m rest hblank htop op hop hwidth ih =>
    obtain ⟨later, hlater, rfl⟩ := map_eq_ok.mp h
    rcases List.mem_cons.mp ho with rfl | ho
    · exact ⟨[], m, rest, rfl, rfl, by simpa using htop, hhead hop⟩
    · obtain ⟨front, n, back, rfl, hindex, hn⟩ := ih hlater ho
      exact ⟨m :: front, n, back, rfl, by rw [hindex, List.length_cons]; omega, hn⟩
  | case7 context index m hblank htop op hwidth hop =>
    obtain rfl := Except.ok.inj h
    obtain rfl := List.mem_singleton.mp ho
    exact ⟨[], m, [], rfl, rfl, by simpa using htop, hhead hop⟩
  | case8 context index m hblank htop op hwidth next after hop ih =>
    obtain ⟨later, hlater, rfl⟩ := map_eq_ok.mp h
    rcases List.mem_cons.mp ho with rfl | ho
    · exact ⟨[], m, next :: after, rfl, rfl, by simpa using htop, hhead hop⟩
    · obtain ⟨front, n, back, rfl, hindex, hn⟩ := ih hlater ho
      exact ⟨m :: next :: front, n, back, rfl,
        by rw [hindex, List.length_cons, List.length_cons]; omega, hn⟩

/-- The operator divides the fragment into two balanced operands. -/
structure Divides (o : Occurrence) (f : Fragment) : Prop where
  joined : (o.left f).text ++ (o.op.symbol.toList ++ (o.right f).text) = f.text
  left : (o.left f).Balanced true
  right : (o.right f).Balanced true

/-- **An operator that is found stands between balanced operands.** -/
theorem divides_of_operators (h : f.operators = .ok found) (ho : o ∈ found) : o.Divides f := by
  obtain ⟨source, hsource⟩ := f.exists_within
  obtain ⟨before, after, htext, hindex, -⟩ :=
    (Fragment.operatorsBytes_safe hsource).good _ h o ho
  obtain ⟨all, hall, h⟩ := bind_eq_ok.mp h
  obtain ⟨⟨⟩, hcheck, h⟩ := bind_eq_ok.mp h
  obtain rfl := Except.ok.inj h
  obtain ⟨marks, hwalk, hscan⟩ := Fragment.walk_of_check hcheck
  rw [hscan] at hall
  obtain ⟨front, m, back, rfl, hfront, htop, hhead⟩ := exists_mark_of_mem_scan hall ho
  obtain ⟨t, hleft, ht, -⟩ := ScanState.exists_of_walk_top hwalk htop
  have hm : Ordinary true m.char := ordinary_symbol o.op _ (List.mem_of_head? hhead)
  obtain rfl := ht hm.not_closing (hm.not_paren rfl).2
  obtain rfl : before = front.map Mark.char := by
    have hchars := ScanState.map_char_of_walk hwalk
    rw [htext, List.map_append, List.append_assoc] at hchars
    refine (List.append_inj hchars ?_).1.symm
    rw [List.length_map, ← hindex, hfront, Nat.zero_add]
  -- behind the operand before it, the scanner goes over the symbol, and nothing is open then either
  obtain ⟨symbol, later, hsymbol, hright⟩ : ∃ symbol later,
      initial.walk true f.offset (front.map Mark.char ++ o.op.symbol.toList) =
        some (symbol, initial) ∧
      initial.walk true (f.offset + Text.byteSize (front.map Mark.char ++ o.op.symbol.toList))
        after = some (later, initial) := by
    have hboth := ScanState.walk_append hleft (walk_topMarks (ordinary_symbol o.op) _)
    rw [htext] at hwalk
    obtain ⟨marks, t, later, hwalk, hlater, -⟩ := ScanState.exists_of_walk_append hwalk
    obtain ⟨rfl, rfl⟩ := Prod.mk.inj (Option.some.inj (hboth.symm.trans hwalk))
    exact ⟨_, later, hwalk, hlater⟩
  have htake : o.left f = ⟨front.map Mark.char, f.offset⟩ := by
    rw [left, Fragment.take, htext, hindex, List.append_assoc, List.take_left]
  have hdrop : o.right f = ⟨after, f.offset +
      Text.byteSize (front.map Mark.char ++ o.op.symbol.toList)⟩ := by
    have hlength : o.index + o.width = (front.map Mark.char ++ o.op.symbol.toList).length := by
      rw [List.length_append, hindex, width, String.length_toList]
    rw [right, Fragment.drop, htext, hlength, List.drop_left, List.take_left]
  constructor
  · rw [htake, hdrop, htext, List.append_assoc]
  · rw [htake]
    exact Fragment.balanced_iff_walk.mpr ⟨front, hleft⟩
  · rw [hdrop]
    exact Fragment.balanced_iff_walk.mpr ⟨later, hright⟩

end Occurrence

/-! ## All cuts -/

namespace Fragment

/-- **Cutting loses nothing, and cuts between balanced pieces only.**  Nodes and their dots are the
text of a path, a name and bodies in brackets that of a node, up to white space at the ends of the
pieces; parts and separators are the text of a segment; and an operator stands between balanced
operands.  Parts are not balanced if a closing bracket or parenthesis is taken for a separator,
which no stage does. -/
theorem splitting_lossless (f : Fragment) :
    (∀ nodes, NodeText.split f = .ok nodes → NodeText.MakeUp f nodes) ∧
    (∀ parts, NodeParts.split f = .ok parts → NodeParts.MakeUp f parts) ∧
    (∀ separator parts, f.splitTop separator = .ok parts →
      [separator].intercalate (parts.map text) = f.text ∧
      (separator ≠ ']' → separator ≠ ')' →
        ∀ part ∈ parts, part.IsPiece true (isSeparator separator))) ∧
    ∀ found, f.operators = .ok found → ∀ o ∈ found, o.Divides f :=
  ⟨fun _ => NodeText.makeUp_of_split, fun _ => NodeParts.makeUp_of_split,
    fun _ _ h => ⟨joined_of_splitTop h, fun hbracket hparen =>
      isPiece_of_splitTop hbracket hparen h⟩,
    fun _ h _ => Occurrence.divides_of_operators h⟩

/-- Dots, brackets, commas and operators in quotes, behind a backslash or in brackets are no places
to cut. -/
theorem splitting_lossless_quoted :
    let path : Fragment := ⟨" $ . a\\.b['.'][?@.c] .. ".toList, 0⟩
    let nodes : List NodeText :=
      [⟨false, "$".toList, 1⟩, ⟨false, "a\\.b['.'][?@.c]".toList, 5⟩, ⟨true, [], 24⟩]
    let node : Fragment := ⟨"a\\[  ['],['] [[0]] ".toList, 4⟩
    let parts : NodeParts := ⟨⟨"a\\[".toList, 4⟩, [⟨"'],['".toList, 10⟩, ⟨"[0]".toList, 18⟩]⟩
    let body : Fragment := ⟨"'a,b' ,[1,2],(3,4)".toList, 2⟩
    let members : List Fragment :=
      [⟨"'a,b' ".toList, 2⟩, ⟨"[1,2]".toList, 9⟩, ⟨"(3,4)".toList, 15⟩]
    let condition : Fragment := ⟨"@['<='] <= (1 == 1)".toList, 3⟩
    let operator : Occurrence := ⟨.comparison .le, 8, 11⟩
    (NodeText.split path = .ok nodes ∧ NodeText.MakeUp path nodes) ∧
    (NodeParts.split node = .ok parts ∧ NodeParts.MakeUp node parts) ∧
    (body.splitTop ',' = .ok members ∧ [','].intercalate (members.map text) = body.text ∧
      ∀ part ∈ members, part.IsPiece true (isSeparator ',')) ∧
    condition.operators = .ok [operator] ∧ operator.Divides condition := by
  intro path nodes node parts body members condition operator
  have hpath : NodeText.split path = .ok nodes := by decide +kernel
  have hnode : NodeParts.split node = .ok parts := by decide +kernel
  have hbody : body.splitTop ',' = .ok members := by decide +kernel
  have hcondition : condition.operators = .ok [operator] := by decide +kernel
  obtain ⟨hjoined, hpieces⟩ := (splitting_lossless body).2.2.1 ',' members hbody
  exact ⟨⟨hpath, (splitting_lossless path).1 nodes hpath⟩,
    ⟨hnode, (splitting_lossless node).2.1 parts hnode⟩,
    ⟨hbody, hjoined, hpieces (by decide) (by decide)⟩, hcondition,
    (splitting_lossless condition).2.2.2 _ hcondition operator (List.mem_singleton_self _)⟩

/-! A closing bracket that is taken for a separator is cut from what it closes. -/

example : splitTop ⟨"[a]".toList, 0⟩ ']' = .ok [⟨"[a".toList, 0⟩, ⟨[], 3⟩] := by decide +kernel

end Fragment
end PathQuery
