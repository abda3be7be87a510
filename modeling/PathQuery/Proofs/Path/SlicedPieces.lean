import PathQuery.Path.Split
import PathQuery.Proofs.Path.MarkPlaces

/-! # Pieces by byte offsets

The splitters find the ends of pieces in the marks of a scan.  Here they cut the pieces out
of the fragment by the offsets of these marks, instead of gathering characters.  None of
these slices is out of range or cuts through a character, the pieces are the same, and a
fault is found at a boundary (`NodeText.splitBytes_safe`, `NodeParts.splitBytes_safe`,
`Fragment.splitTopBytes_safe`, `Fragment.groupBytes_safe`).
-/

namespace PathQuery

/-! ## Nodes -/

namespace NodeText

/-- Cuts at each dot by its offset. -/
def cutBytes (f : Fragment) (deep : Bool) (start : Nat) : List Mark → Option (List NodeText)
  | [] => do
    let piece ← f.slice? start f.stop
    return [⟨deep, piece.trim⟩]
  | m :: rest =>
    if isDot m then do
      let piece ← f.slice? start m.offset
      match rest with
      | [] =>
        let last ← f.slice? (m.offset + 1) f.stop
        return [⟨deep, piece.trim⟩, ⟨false, last.trim⟩]
      | next :: after =>
        if next.char = '.' then
          return ⟨deep, piece.trim⟩ :: (← cutBytes f true (m.offset + 2) after)
        else return ⟨deep, piece.trim⟩ :: (← cutBytes f false (m.offset + 1) (next :: after))
    else cutBytes f deep start rest

/-- The nodes of a path. -/
def splitBytes (f : Fragment) : Slicing (List NodeText) := do
  let nodes ← cutBytes f false f.offset (f.scan false).marks
  Slicing.ofOutcome (f.scan false).check
  Slicing.ofOutcome (checkNonempty nodes)
  return nodes

theorem char_of_isDot {m : Mark} (h : isDot m = true) : m.char = '.' := by
  simp only [isDot, Bool.and_eq_true, beq_iff_eq] at h
  exact h.1.2

variable {f : Fragment} {deep : Bool} {start : Nat} {done chars rest : List Char}
  {marks : List Mark} {source : List Char}

/-- **Every node can be cut out**, and if all characters are marked, the nodes are those that
the characters between the dots make. -/
theorem cutBytes_eq (deep : Bool) (hf : f.Within source) {all : List Char}
    (h : f.Marked all marks rest)
    (hall : all = done ++ chars.reverse) (hstart : start = f.offset + Text.byteSize done) :
    ∃ nodes, cutBytes f deep start marks = some nodes ∧ (∀ n ∈ nodes, n.body.Within source) ∧
      (rest = [] → nodes = cut deep start chars marks) := by
  fun_induction cut deep start chars marks generalizing done all with
  | case1 deep start chars =>
    subst hall hstart
    refine ⟨_, by rw [cutBytes, h.slice?_stop]; rfl, ?_, ?_⟩
    · simpa using (hf.slice? h.slice?_stop).trim
    · rintro rfl
      rw [List.append_nil]
      rfl
  | case2 deep start chars m hdot =>
    have hbehind : m.offset + 1 = f.offset + Text.byteSize (all ++ [m.char]) :=
      char_of_isDot hdot ▸ h.behind_eq
    have hlast : f.slice? (m.offset + 1) f.stop = some ⟨rest, m.offset + 1⟩ := by
      have hrest : f.Marked (all ++ [m.char] ++ []) [] rest := by simpa using h.next
      rw [hbehind]
      exact hrest.slice?_stop
    subst hall hstart
    refine ⟨_, by rw [cutBytes, if_pos hdot, h.slice?_eq]; simp only [hlast]; rfl, ?_, ?_⟩
    · simpa using ⟨(hf.slice? h.slice?_eq).trim, (hf.slice? hlast).trim⟩
    · rintro rfl
      rfl
  | case3 deep start chars m hdot next after hnext ih =>
    have hdots : m.offset + 2 = f.offset + Text.byteSize (all ++ [m.char] ++ [next.char]) := by
      have hfirst := h.behind_eq
      have hsecond := h.next.behind_eq
      rw [h.next.offset_eq, ← hfirst, hnext, char_of_isDot hdot] at hsecond
      rwa [char_of_isDot hdot, hnext]
    obtain ⟨later, hlater, hwithin, hcut⟩ := ih h.next.next (List.append_nil _).symm hdots
    subst hall hstart
    refine ⟨_, by rw [cutBytes, if_pos hdot, h.slice?_eq]; simp only [hnext, if_true, hlater]; rfl,
      List.forall_mem_cons.mpr ⟨(hf.slice? h.slice?_eq).trim, hwithin⟩, fun hrest => ?_⟩
    rw [hcut hrest]
    rfl
  | case4 deep start chars m hdot next after hnext ih =>
    have hbehind : m.offset + 1 = f.offset + Text.byteSize (all ++ [m.char]) :=
      char_of_isDot hdot ▸ h.behind_eq
    obtain ⟨later, hlater, hwithin, hcut⟩ := ih h.next (List.append_nil _).symm hbehind
    subst hall hstart
    refine ⟨_, by rw [cutBytes, if_pos hdot, h.slice?_eq]; simp only [hnext, if_false, hlater]; rfl,
      List.forall_mem_cons.mpr ⟨(hf.slice? h.slice?_eq).trim, hwithin⟩, fun hrest => ?_⟩
    rw [hcut hrest]
    rfl
  | case5 deep start chars m marks hdot ih =>
    obtain ⟨nodes, hnodes, hcut⟩ := ih h.next (by rw [hall]; simp) hstart
    exact ⟨nodes, by rw [cutBytes, if_neg hdot, hnodes], hcut⟩

theorem checkNonempty_safe {nodes : List NodeText} (hnodes : ∀ n ∈ nodes, n.body.Within source) :
    (Slicing.ofOutcome (checkNonempty nodes)).Safe source (checkNonempty nodes)
      fun _ => True := by
  induction nodes with
  | nil => exact .pure trivial
  | cons node later ih =>
    rw [List.forall_mem_cons] at hnodes
    rw [checkNonempty]
    split
    · exact .throw hnodes.1.boundary
    · exact ih hnodes.2

/-- **The nodes of a path can be cut out by the offsets of the dots.** -/
theorem splitBytes_safe (hf : f.Within source) :
    (splitBytes f).Safe source (split f) fun nodes => ∀ n ∈ nodes, n.body.Within source := by
  obtain ⟨rest, hmarked, hend⟩ := f.marked_scan false
  obtain ⟨nodes, hnodes, hwithin, hcut⟩ :=
    cutBytes_eq false hf hmarked (show ([] : List Char) = [] ++ [].reverse from rfl) rfl
  refine .slice hnodes ?_
  refine (Fragment.check_safe hf).bind fun _ hnone => ?_
  obtain rfl := hcut (hend hnone)
  exact (checkNonempty_safe hwithin).bind fun _ _ => .pure hwithin

end NodeText

/-! ## Names and segments -/

namespace NodeParts

mutual

/-- The bodies of segments in text that starts outside brackets. -/
def outsideBytes (f : Fragment) : List Mark → Slicing (List Fragment)
  | [] => return []
  | m :: rest =>
    if m.plain && m.char == '[' && m.brackets == 1 then insideBytes f (m.offset + 1) rest
    else if m.brackets == 0 && !Text.isBlank m.char then
      throw ⟨.betweenSegments m.char, m.offset⟩
    else outsideBytes f rest

/-- The bodies of segments in text that starts inside one, whose body starts at `start`. -/
def insideBytes (f : Fragment) (start : Nat) : List Mark → Slicing (List Fragment)
  | [] => return []
  | m :: rest =>
    if m.plain && m.char == ']' && m.brackets == 0 then do
      let body ← f.slice? start m.offset
      let bodies ← outsideBytes f rest
      return body :: bodies
    else insideBytes f start rest

end

/-- The name and the segments of a node: the name goes up to the first opening bracket. -/
def splitBytes (f : Fragment) : Slicing NodeParts := do
  let scan := f.scan false
  let segments := scan.marks.dropWhile fun m => !isOpening m
  let bodies ← outsideBytes f segments
  Slicing.ofOutcome scan.check
  let name ← f.slice? f.offset ((segments.head?.map Mark.offset).getD f.stop)
  return ⟨⟨Text.trimEnd name.text, f.offset⟩, bodies⟩

variable {f : Fragment} {rest source : List Char}

mutual

theorem outsideBytes_safe (hf : f.Within source) {all : List Char} {marks : List Mark}
    (h : f.Marked all marks rest) : (outsideBytes f marks).Safe source (outside marks)
      fun bodies => ∀ b ∈ bodies, b.Within source := by
  match marks with
  | [] =>
    rw [outsideBytes, outside]
    exact .pure (by simp)
  | m :: marks =>
    rw [outsideBytes, outside]
    by_cases hopen : (m.plain && m.char == '[' && m.brackets == 1) = true
    · have hchar : m.char = '[' := by
        simp only [Bool.and_eq_true, beq_iff_eq] at hopen
        exact hopen.1.2
      rw [if_pos hopen, if_pos hopen]
      exact insideBytes_safe hf h.next (List.append_nil _).symm (hchar ▸ h.behind_eq)
    · rw [if_neg hopen, if_neg hopen]
      split
      · exact .throw (h.boundary hf)
      · exact outsideBytes_safe hf h.next

theorem insideBytes_safe (hf : f.Within source) {all done chars : List Char} {start : Nat}
    {marks : List Mark} (h : f.Marked all marks rest) (hall : all = done ++ chars.reverse)
    (hstart : start = f.offset + Text.byteSize done) :
    (insideBytes f start marks).Safe source (inside start chars marks)
      fun bodies => ∀ b ∈ bodies, b.Within source := by
  match marks with
  | [] =>
    rw [insideBytes, inside]
    exact .pure (by simp)
  | m :: marks =>
    rw [insideBytes, inside]
    by_cases hclose : (m.plain && m.char == ']' && m.brackets == 0) = true
    · rw [if_pos hclose, if_pos hclose]
      subst hall hstart
      refine .slice h.slice?_eq ?_
      refine (outsideBytes_safe hf h.next).map fun bodies hbodies => ?_
      exact List.forall_mem_cons.mpr ⟨hf.slice? h.slice?_eq, hbodies⟩
    · rw [if_neg hclose, if_neg hclose]
      exact insideBytes_safe hf h.next (by rw [hall]; simp) hstart

end

/-- **The name and the segments of a node can be cut out by the offsets of the brackets.** -/
theorem splitBytes_safe (hf : f.Within source) :
    (splitBytes f).Safe source (split f) fun parts =>
      parts.name.offset = f.offset ∧ ∀ b ∈ parts.bodies, b.Within source := by
  obtain ⟨rest, hmarked, hend⟩ := f.marked_scan false
  have hsplit := List.takeWhile_append_dropWhile (p := fun m => !isOpening m)
    (l := (f.scan false).marks)
  rw [← hsplit] at hmarked
  have hsegments := hmarked.append
  refine (outsideBytes_safe hf hsegments).bind fun bodies hbodies => ?_
  refine (Fragment.check_safe hf).bind fun _ hnone => ?_
  obtain rfl := hend hnone
  have hname : f.slice? f.offset (((((f.scan false).marks.dropWhile
      fun m => !isOpening m).head?).map Mark.offset).getD f.stop) =
      some ⟨((f.scan false).marks.takeWhile fun m => !isOpening m).map Mark.char, f.offset⟩ := by
    cases hback : (f.scan false).marks.dropWhile fun m => !isOpening m with
    | nil =>
      rw [hback] at hsegments
      simpa using hsegments.slice?_all
    | cons m tail =>
      rw [hback] at hsegments
      exact hsegments.slice?_front
  refine .slice hname ?_
  exact .pure ⟨rfl, hbodies⟩

end NodeParts

/-! ## Parts of a segment, and groups -/

namespace Fragment

/-- Cuts at each separator by its offset. -/
def cutTopBytes (f : Fragment) (separator : Char) (start : Nat) : List Mark → Option (List Fragment)
  | [] => do
    let part ← f.slice? start f.stop
    return [part]
  | m :: rest =>
    if m.isTop && m.char == separator then do
      let part ← f.slice? start m.offset
      let parts ← cutTopBytes f separator (m.offset + separator.utf8Size) rest
      return part :: parts
    else cutTopBytes f separator start rest

/-- The parts of a fragment between separators. -/
def splitTopBytes (f : Fragment) (separator : Char) : Slicing (List Fragment) := do
  let parts ← f.cutTopBytes separator f.offset (f.scan true).marks
  Slicing.ofOutcome (f.scan true).check
  return parts

/-- What stands between the parenthesis at the front and the one that closes it, and what
stands behind that one. -/
def groupBytes (f : Fragment) : Slicing (Fragment × Fragment) :=
  match (f.scan true).marks.find? isClosing with
  | none => throw ((f.scan true).fault.getD ⟨.openParen, f.offset⟩)
  | some m => do
    let inner ← f.slice? (f.offset + 1) m.offset
    let after ← f.slice? (m.offset + 1) f.stop
    return (inner, after)

variable {f : Fragment} {separator : Char} {start : Nat} {done chars rest : List Char}
  {marks : List Mark} {source : List Char}

theorem cutTopBytes_eq (separator : Char) (hf : f.Within source) {all : List Char}
    (h : f.Marked all marks rest)
    (hall : all = done ++ chars.reverse) (hstart : start = f.offset + Text.byteSize done) :
    ∃ parts, f.cutTopBytes separator start marks = some parts ∧
      (∀ part ∈ parts, part.Within source) ∧
      (rest = [] → parts = cutTop separator start chars marks) := by
  fun_induction cutTop separator start chars marks generalizing done all with
  | case1 start chars =>
    subst hall hstart
    refine ⟨_, by rw [cutTopBytes, h.slice?_stop]; rfl, ?_, ?_⟩
    · simpa using hf.slice? h.slice?_stop
    · rintro rfl
      rw [List.append_nil]
  | case2 start chars m marks hseparator ih =>
    have hchar : m.char = separator := by
      simp only [Bool.and_eq_true, beq_iff_eq] at hseparator
      exact hseparator.2
    obtain ⟨later, hlater, hwithin, hcut⟩ :=
      ih h.next (List.append_nil _).symm (hchar ▸ h.behind_eq)
    subst hall hstart
    refine ⟨_, by rw [cutTopBytes, if_pos hseparator, h.slice?_eq, hlater]; rfl,
      List.forall_mem_cons.mpr ⟨hf.slice? h.slice?_eq, hwithin⟩, fun hrest => ?_⟩
    rw [hcut hrest]
  | case3 start chars m marks hseparator ih =>
    obtain ⟨parts, hparts, hcut⟩ := ih h.next (by rw [hall]; simp) hstart
    exact ⟨parts, by rw [cutTopBytes, if_neg hseparator, hparts], hcut⟩

/-- **The parts between separators can be cut out by the offsets of the separators.** -/
theorem splitTopBytes_safe (hf : f.Within source) :
    (f.splitTopBytes separator).Safe source (f.splitTop separator) fun parts =>
      ∀ part ∈ parts, part.Within source := by
  obtain ⟨rest, hmarked, hend⟩ := f.marked_scan true
  obtain ⟨parts, hparts, hwithin, hcut⟩ :=
    cutTopBytes_eq separator hf hmarked (show ([] : List Char) = [] ++ [].reverse from rfl) rfl
  refine .slice hparts ?_
  refine (check_safe hf).bind fun _ hnone => ?_
  obtain rfl := hcut (hend hnone)
  exact .pure hwithin

/-- The parenthesis that closes a group, and the marks around it. -/
theorem closingParen_eq {m : Mark} (h : (f.scan true).marks.find? isClosing = some m) :
    ∃ front back, (f.scan true).marks = front ++ m :: back ∧ m.char = ')' ∧
      f.closingParen = .ok front.length := by
  obtain ⟨hclosing, front, back, hmarks, hfront⟩ := List.find?_eq_some_iff_append.mp h
  have hnone : front.findIdx? isClosing = none := by
    rw [List.findIdx?_eq_none_iff]
    simpa using hfront
  have hindex : (f.scan true).marks.findIdx? isClosing = some front.length := by
    rw [hmarks, List.findIdx?_append, hnone, List.findIdx?_cons, if_pos hclosing]
    simp
  refine ⟨front, back, hmarks, ?_, ?_⟩
  · simp only [isClosing, Bool.and_eq_true, beq_iff_eq] at hclosing
    exact hclosing.1.2
  · rw [closingParen]
    simp only [hindex]

/-- **What is in a group, and behind it, can be cut out by the offset of the parenthesis that
closes it.** -/
theorem groupBytes_safe (hf : f.Within source) (hopen : f.text.head? = some '(') :
    f.groupBytes.Safe source
      (f.closingParen.map fun close => ((f.take close).drop 1, f.drop (close + 1)))
      fun pieces => pieces.1.Within source ∧ pieces.2.Within source := by
  unfold groupBytes
  split
  · rename_i hnone
    have hindex : (f.scan true).marks.findIdx? isClosing = none := by
      rw [List.findIdx?_eq_none_iff]
      simpa using hnone
    have hclose : f.closingParen =
        .error ((f.scan true).fault.getD ⟨.openParen, f.offset⟩) := by
      rw [closingParen]
      simp only [hindex]
    rw [hclose]
    refine .throw ?_
    cases hfault : (f.scan true).fault with
    | none => exact hf.boundary
    | some e => exact boundary_of_scan hf hfault
  · rename_i m hfound
    obtain ⟨front, back, hmarks, hchar, hclose⟩ := closingParen_eq hfound
    obtain ⟨rest, hmarked, -⟩ := f.marked_scan true
    rw [hmarks] at hmarked
    have hat := hmarked.append
    have htext : f.text = front.map Mark.char ++ ')' :: (back.map Mark.char ++ rest) :=
      hchar ▸ hat.text
    -- the fragment starts with another parenthesis, so there is something in front
    obtain ⟨inner, hfront⟩ : ∃ inner, front.map Mark.char = '(' :: inner := by
      cases hcase : front.map Mark.char with
      | nil => simp [htext, hcase] at hopen
      | cons c inner =>
        rw [htext, hcase] at hopen
        exact ⟨inner, by rw [Option.some.inj hopen]⟩
    have hlength : front.length = ('(' :: inner).length := by rw [← hfront, List.length_map]
    rw [hfront] at hat htext
    have hinner : f.slice? (f.offset + 1) m.offset = some ((f.take front.length).drop 1) := by
      have htake : f.take front.length = ⟨'(' :: inner, f.offset⟩ := by
        rw [Fragment.take, htext, hlength, List.take_left]
      rw [htake]
      have hinside : f.Marked (['('] ++ inner) (m :: back) rest := hat
      exact hinside.slice?_eq
    have hafter : f.slice? (m.offset + 1) f.stop = some (f.drop (front.length + 1)) := by
      have hbehind := hat.behind_eq
      rw [hchar] at hbehind
      have hcount : front.length + 1 = ('(' :: inner ++ [')']).length := by simp [hlength]
      rw [hcount]
      exact hbehind ▸ slice?_drop (htext.trans (List.append_cons _ _ _))
    rw [hclose]
    refine .slice hinner (.slice hafter ?_)
    exact .pure ⟨hf.slice? hinner, hf.slice? hafter⟩

end Fragment

end PathQuery
