import PathQuery.Path.Scan

/-! # Cutting a path into pieces

A path is cut into nodes at its plain dots outside brackets, a node into a bare
name and the bodies of its bracketed segments, and the body of a segment into
parts at plain separators outside brackets and parentheses.  Every piece keeps
its place in the text.
-/

namespace PathQuery

/-- The text of a node, trimmed, and whether two dots stand before it. -/
structure NodeText where
  deep : Bool
  body : Fragment
deriving DecidableEq, Repr

namespace NodeText

/-- The node that consists of some characters, the last one first. -/
def ofReversed (deep : Bool) (start : Nat) (chars : List Char) : NodeText :=
  ⟨deep, Fragment.trim ⟨chars.reverse, start⟩⟩

/-- A plain dot outside brackets. -/
def isDot (m : Mark) : Bool :=
  m.plain && m.char == '.' && m.brackets == 0

/-- Cuts at each dot.  Another dot directly behind it belongs to it, and makes the
next node a deep one.  `chars` holds the current node so far, the last character
first. -/
def cut (deep : Bool) (start : Nat) (chars : List Char) : List Mark → List NodeText
  | [] => [ofReversed deep start chars]
  | m :: rest =>
    if isDot m then
      match rest with
      | [] => [ofReversed deep start chars, ofReversed false (m.offset + 1) []]
      | next :: after =>
        if next.char = '.' then
          ofReversed deep start chars :: cut true (m.offset + 2) [] after
        else ofReversed deep start chars :: cut false (m.offset + 1) [] (next :: after)
    else cut deep start (m.char :: chars) rest

/-- Only a deep node at the end of a path may be empty. -/
def checkNonempty : List NodeText → Except Fault Unit
  | [] => .ok ()
  | node :: rest =>
    if node.body.text.isEmpty && !(node.deep && rest.isEmpty) then
      .error ⟨.emptyNode, node.body.offset⟩
    else checkNonempty rest

/-- The nodes of a path. -/
def split (f : Fragment) : Except Fault (List NodeText) := do
  let scan := f.scan false
  scan.check
  let nodes := cut false f.offset [] scan.marks
  checkNonempty nodes
  return nodes

theorem length_ofReversed_le (deep : Bool) (start : Nat) (chars : List Char) :
    (ofReversed deep start chars).body.text.length ≤ chars.length := by
  simpa [ofReversed] using Fragment.length_trim_le ⟨chars.reverse, start⟩

theorem length_of_mem_cut {deep : Bool} {start : Nat} {chars : List Char} {marks : List Mark}
    {node : NodeText} (h : node ∈ cut deep start chars marks) :
    node.body.text.length ≤ chars.length + marks.length := by
  fun_induction cut deep start chars marks with
  | case1 deep start chars =>
    rw [List.mem_singleton.mp h]
    exact length_ofReversed_le _ _ _
  | case2 deep start chars m hdot =>
    rcases List.mem_cons.mp h with rfl | h
    · exact Nat.le_trans (length_ofReversed_le _ _ _) (Nat.le_add_right _ _)
    · rw [List.mem_singleton.mp h]
      exact Nat.le_trans (length_ofReversed_le _ _ _) (Nat.zero_le _)
  | case3 deep start chars m hdot next after hnext ih =>
    rcases List.mem_cons.mp h with rfl | h
    · exact Nat.le_trans (length_ofReversed_le _ _ _) (Nat.le_add_right _ _)
    · have := ih h
      simp only [List.length_cons, List.length_nil] at this ⊢
      omega
  | case4 deep start chars m hdot next after hnext ih =>
    rcases List.mem_cons.mp h with rfl | h
    · exact Nat.le_trans (length_ofReversed_le _ _ _) (Nat.le_add_right _ _)
    · have := ih h
      simp only [List.length_cons, List.length_nil] at this ⊢
      omega
  | case5 deep start chars m rest hdot ih =>
    have := ih h
    simp only [List.length_cons] at this ⊢
    omega

theorem length_of_split {f : Fragment} {nodes : List NodeText} (h : split f = .ok nodes)
    {node : NodeText} (hn : node ∈ nodes) : node.body.text.length ≤ f.text.length := by
  have hmem : nodes = cut false f.offset [] (f.scan false).marks := by
    simp only [split, bind, Except.bind, pure, Except.pure] at h
    split at h
    · simp at h
    · split at h
      · simp at h
      · simpa using h.symm
  have := length_of_mem_cut (hmem ▸ hn)
  have := f.length_marks_scan_le false
  simp only [List.length_nil] at *
  omega

end NodeText

/-- A bare name and the bodies of the segments behind it. -/
structure NodeParts where
  name : Fragment
  bodies : List Fragment
deriving DecidableEq, Repr

namespace NodeParts

mutual

/-- The bodies of segments in text that starts outside brackets, where nothing but
white space may stand between two segments. -/
def outside : List Mark → Except Fault (List Fragment)
  | [] => .ok []
  | m :: rest =>
    if m.plain && m.char == '[' && m.brackets == 1 then inside (m.offset + 1) [] rest
    else if m.brackets == 0 && !Text.isBlank m.char then
      .error ⟨.betweenSegments m.char, m.offset⟩
    else outside rest

/-- The bodies of segments in text that starts inside one; `chars` holds its body so
far, the last character first. -/
def inside (start : Nat) (chars : List Char) : List Mark → Except Fault (List Fragment)
  | [] => .ok []
  | m :: rest =>
    if m.plain && m.char == ']' && m.brackets == 0 then
      (outside rest).map (⟨chars.reverse, start⟩ :: ·)
    else inside start (m.char :: chars) rest

end

/-- A plain opening bracket. -/
def isOpening (m : Mark) : Bool :=
  m.plain && m.char == '['

/-- The name and the segments of a node. -/
def split (f : Fragment) : Except Fault NodeParts := do
  let scan := f.scan false
  let name := (scan.marks.takeWhile fun m => !isOpening m).map Mark.char
  let bodies ← outside (scan.marks.dropWhile fun m => !isOpening m)
  scan.check
  return ⟨⟨Text.trimEnd name, f.offset⟩, bodies⟩

mutual

theorem length_of_mem_outside {marks : List Mark} {bodies : List Fragment}
    (h : outside marks = .ok bodies) {b : Fragment} (hb : b ∈ bodies) :
    b.text.length < marks.length := by
  match marks with
  | [] =>
    simp only [outside, Except.ok.injEq] at h
    simp [← h] at hb
  | m :: rest =>
    rw [outside] at h
    split at h
    · have := length_of_mem_inside h hb
      simp only [List.length_nil, List.length_cons] at *
      omega
    · split at h
      · simp at h
      · have := length_of_mem_outside h hb
        simp only [List.length_cons]
        omega

theorem length_of_mem_inside {start : Nat} {chars : List Char} {marks : List Mark}
    {bodies : List Fragment} (h : inside start chars marks = .ok bodies) {b : Fragment}
    (hb : b ∈ bodies) : b.text.length < chars.length + marks.length := by
  match marks with
  | [] =>
    simp only [inside, Except.ok.injEq] at h
    simp [← h] at hb
  | m :: rest =>
    rw [inside] at h
    split at h
    · cases ho : outside rest with
      | error e => simp [ho, Except.map] at h
      | ok later =>
        simp only [ho, Except.map, Except.ok.injEq] at h
        rcases List.mem_cons.mp (h ▸ hb) with rfl | hl
        · simp only [List.length_reverse, List.length_cons]
          omega
        · have := length_of_mem_outside ho hl
          simp only [List.length_cons]
          omega
    · have := length_of_mem_inside h hb
      simp only [List.length_cons] at *
      omega

end

theorem length_of_split {f : Fragment} {parts : NodeParts} (h : split f = .ok parts)
    {b : Fragment} (hb : b ∈ parts.bodies) : b.text.length < f.text.length := by
  simp only [split, bind, Except.bind, pure, Except.pure] at h
  split at h
  · simp at h
  · rename_i bodies ho
    split at h
    · simp at h
    · simp only [Except.ok.injEq] at h
      have h1 := length_of_mem_outside ho (h ▸ hb)
      have h2 : ((f.scan false).marks.dropWhile fun m => !isOpening m).length ≤
          (f.scan false).marks.length := (List.dropWhile_sublist _).length_le
      have h3 := f.length_marks_scan_le false
      omega

end NodeParts

namespace Fragment

/-- Cuts at each plain separator outside brackets and parentheses; `chars` holds the
current part so far, the last character first. -/
def cutTop (separator : Char) (start : Nat) (chars : List Char) : List Mark → List Fragment
  | [] => [⟨chars.reverse, start⟩]
  | m :: rest =>
    if m.isTop && m.char == separator then
      ⟨chars.reverse, start⟩ :: cutTop separator (m.offset + separator.utf8Size) [] rest
    else cutTop separator start (m.char :: chars) rest

/-- The parts of a fragment between separators. -/
def splitTop (f : Fragment) (separator : Char) : Except Fault (List Fragment) := do
  let scan := f.scan true
  scan.check
  return cutTop separator f.offset [] scan.marks

/-- A plain closing parenthesis behind which none is open. -/
def isClosing (m : Mark) : Bool :=
  m.plain && m.char == ')' && m.parens == 0

/-- The number of characters before the parenthesis that closes the one at the front
of the fragment. -/
def closingParen (f : Fragment) : Except Fault Nat :=
  let scan := f.scan true
  match scan.marks.findIdx? isClosing with
  | some i => .ok i
  | none => .error (scan.fault.getD ⟨.openParen, f.offset⟩)

end Fragment
end PathQuery
