import PathQuery.Proofs.Path.OperandRow
import PathQuery.Proofs.Path.RoundTrip
import PathQuery.Proofs.Path.SlicedOperators
import PathQuery.Proofs.Path.WrittenText

/-! # Operator precedence

Every text that writes a legible expression, with whichever parentheses, is read as that
expression (`Filter.reads`).  A bare operand is a row of operators that are tighter than the
operator beside it, so that operator is the only loosest one and the text is split at it.  Where
two operators share the loosest tier the text is refused, at the second of them
(`Compiler.expression_ungrouped`).

A depth for every character of the text is enough: only parentheses and brackets add to the depth,
and each takes a character.
-/

namespace PathQuery

open Occurrence

/-! ## What is read of a text -/

/-- The path is read from the text, which the search for operators passes over. -/
structure Path.Reads (p : Path) (text : List Char) : Prop where
  quiet : Quiet text
  marked : ∃ rest, text = p.origin.marker :: rest
  ends : EndsWith p.endsLikeOperator text
  read : ∀ {limit depth : Nat} {f : Fragment}, f.text = text → depth + text.length ≤ limit →
    ∃ read, Compiler.path limit depth true f = .ok read ∧ p.same read = true

/-- The segment is read from the text between its brackets. -/
structure Segment.Reads (s : Segment) (body : List Char) : Prop where
  closed : ∀ grouping, Closed grouping (fun _ => True) body
  read : ∀ {limit depth : Nat} {f : Fragment}, f.text = body → depth + body.length ≤ limit →
    ∃ read, Compiler.segment limit depth f = .ok read ∧ s.same read = true

/-- The node has the name of the step, and the segments of the step are read from its bodies. -/
structure Step.Reads (s : Step) (n : Node) : Prop where
  head : n.head = s.head
  segments : List.Forall₂ Segment.Reads s.segments n.bodies

/-- The expression is read from the text, which is a row of operators that are no looser than the
tier.  Only a condition may end like an operator. -/
structure Filter.Reads (tier : Nat) (position : Compiler.Position) (e : Filter)
    (text : List Char) : Prop where
  row : IsRow tier text
  starts : StartsSolid text
  ends : ∃ operator, EndsWith operator text ∧ (position = .value → operator = false)
  read : ∀ {limit depth : Nat} {f : Fragment}, f.trim.text = text → depth + text.length ≤ limit →
    ∃ read, Compiler.expression limit depth position f = .ok read ∧ e.same read = true

namespace Filter

variable {tier : Nat} {position : Compiler.Position} {e a b : Filter} {text left right : List Char}

namespace Reads

theorem trimmed (h : e.Reads tier position text) : Text.Trimmed text := by
  obtain ⟨operator, hend, -⟩ := h.ends
  exact h.starts.trimmed hend

theorem mono {looser : Nat} (hle : looser ≤ tier) (h : e.Reads tier position text) :
    e.Reads looser position text :=
  ⟨h.row.mono hle, h.starts, h.ends, h.read⟩

/-! ## Operands -/

/-- **In parentheses, an expression may be the operand of any operator.** -/
theorem grouped (h : e.Reads tier position text) {tier' : Nat} :
    e.Reads tier' position ('(' :: (text ++ [')'])) where
  row := (Quiet.grouped h.row.closed).unbroken.isRow
  starts := ⟨'(', rfl, by decide⟩
  ends := ⟨false, (endsWith_closeParen text).cons '(', fun _ => rfl⟩
  read {limit depth f} hf hroom := by
    obtain ⟨inner, hinner, hgroup⟩ :=
      @Compiler.exists_expression_group limit depth f text hf h.row.closed
    have hlength : ('(' :: (text ++ [')'])).length = text.length + 2 := by simp
    obtain ⟨read, hok, hsame⟩ := @h.read limit (depth + 1) inner (h.trimmed.text_trim hinner)
      (by omega)
    exact ⟨read, (hgroup _ _).mpr ⟨by omega, hok⟩, hsame⟩

/-- An operand of an operator, with parentheses or without. -/
theorem of_enclosed {op : Operator} {Writes : List Char → Prop}
    (h : ∀ text, Writes text → e.Reads e.tier position text)
    (henclosed : Enclosed (op.tier < e.tier) Writes text) :
    e.Reads (op.tier + 1) position text := by
  rcases henclosed with ⟨htighter, hbare⟩ | ⟨inner, hinner, rfl⟩
  · exact (h text hbare).mono htighter
  · exact (h inner hinner).grouped

/-- **Two operands with an operator between them are read as an operation**, if they are rows of
tighter operators. -/
theorem binary (op : Operator) (hpermits : Compiler.Permits position op)
    (ha : a.Reads (op.tier + 1) (Compiler.operandPosition op) left)
    (hb : b.Reads (op.tier + 1) (Compiler.operandPosition op) right) :
    (Compiler.binary op a b).Reads op.tier position (left ++ (op.chars ++ right)) := by
  obtain ⟨operator, hend, hplain⟩ := ha.ends
  have hfound : op.FoundBehind operator := by
    rintro x rfl
    exact hplain rfl
  refine ⟨?_, ha.starts.append _, ?_, fun {limit depth f} hf hroom => ?_⟩
  · exact (ha.row.mono (Nat.le_succ _)).join hend hfound le_rfl (hb.row.mono (Nat.le_succ _))
  · obtain ⟨operator', hend', hplain'⟩ := hb.ends
    refine ⟨operator', (hend'.append _).append _, ?_⟩
    rintro rfl
    -- only arithmetic is a value, and its operands are values too
    obtain ⟨x, rfl⟩ := hpermits
    exact hplain' rfl
  · obtain ⟨x, y, hx, hy, hread⟩ :=
      @Compiler.exists_expression_join _ _ _ _ limit ha.row hend hfound hb.row f hf
    rw [ha.trimmed.trim_eq] at hx
    rw [hb.trimmed.trim_eq] at hy
    rw [List.length_append, List.length_append] at hroom
    obtain ⟨readLeft, hleft, hsameLeft⟩ := @ha.read limit depth x hx (by omega)
    obtain ⟨readRight, hright, hsameRight⟩ := @hb.read limit depth y hy (by omega)
    refine ⟨_, hread.mpr ⟨hpermits, readLeft, readRight, hleft, hright, rfl⟩, ?_⟩
    exact (same_binary _ _ _ _).mpr ⟨readLeft, readRight, rfl, hsameLeft, hsameRight⟩

theorem of_joins (op : Operator) (hpermits : Compiler.Permits position op)
    {WritesLeft WritesRight : List Char → Prop}
    (ha : ∀ text, WritesLeft text → a.Reads a.tier (Compiler.operandPosition op) text)
    (hb : ∀ text, WritesRight text → b.Reads b.tier (Compiler.operandPosition op) text)
    (h : op.Joins a.tier b.tier WritesLeft WritesRight text) :
    (Compiler.binary op a b).Reads op.tier position text := by
  obtain ⟨left, right, hleft, hright, rfl⟩ := h
  exact binary op hpermits (of_enclosed ha hleft) (of_enclosed hb hright)

theorem literal [LawfulDoubleText] (l : Literal) :
    (Filter.literal l).Reads tier position l.chars where
  row := l.unbroken_chars.isRow
  starts := l.startsSolid
  ends := ⟨false, l.endsWith_chars, fun _ => rfl⟩
  read {_ depth f} hf hroom :=
    (ReadsBack.literal l depth f hf).mpr ⟨rfl, Nat.le_of_add_right_le hroom⟩

/-- A path that stands alone. -/
theorem path {p : Path} (h : p.Reads text)
    (hends : position = .value → p.endsLikeOperator = false)
    (hsame : ∀ q, e.same (Compiler.asOperand position q) = p.same q) :
    e.Reads tier position text := by
  obtain ⟨rest, rfl⟩ := h.marked
  obtain ⟨hblank, -⟩ := p.origin.marker_facts
  refine ⟨h.quiet.unbroken.isRow, ⟨_, rfl, hblank⟩, ⟨_, h.ends, hends⟩,
    fun {limit depth f} hf hroom => ?_⟩
  have hhead : f.trim.text.head? = some p.origin.marker := by
    rw [hf]
    rfl
  have hunbroken : Unbroken f.trim.text := hf ▸ h.quiet.unbroken
  obtain ⟨q, hok, heq⟩ := h.read hf hroom
  refine ⟨_, (Compiler.expression_marker hhead hunbroken).mpr ⟨?_, q, hok, rfl⟩, ?_⟩
  · exact Nat.le_of_add_right_le hroom
  · exact (hsame q).trans heq

/-- The sign of a negation in front of a path. -/
theorem absence {p : Path} (h : p.Reads text) :
    (Filter.existence p true).Reads tier .boolean ('!' :: text) := by
  have hends := h.ends
  have hquiet := h.quiet
  obtain ⟨rest, htext⟩ := h.marked
  obtain ⟨-, -, -, hequal, -⟩ := p.origin.marker_facts
  rw [htext] at hquiet
  have hunbroken : Unbroken ('!' :: text) := by
    rw [htext]
    exact (hquiet.negated hequal).unbroken
  refine ⟨hunbroken.isRow, ⟨'!', rfl, by decide⟩, ⟨_, hends.cons '!', nofun⟩,
    fun {limit depth f} hf hroom => ?_⟩
  have hchars : f.trim.text = '!' :: p.origin.marker :: rest := by rw [hf, htext]
  obtain ⟨inner, hinner, hread⟩ :=
    @Compiler.exists_expression_absence limit f rest _ hchars (hf ▸ hunbroken)
  rw [List.length_cons] at hroom
  obtain ⟨q, hok, hsame⟩ := @h.read limit depth inner (hinner.trans htext.symm) (by omega)
  exact ⟨_, hread.mpr ⟨by omega, q, hok, rfl⟩, by simpa [same] using hsame⟩

theorem negation (h : e.Reads tier .boolean text) {tier' : Nat} :
    (Filter.negation e).Reads tier' .boolean ('!' :: '(' :: (text ++ [')'])) where
  row := ((Quiet.grouped h.row.closed).negated (by decide)).unbroken.isRow
  starts := ⟨'!', rfl, by decide⟩
  ends := ⟨false, ((endsWith_closeParen text).cons '(').cons '!', fun _ => rfl⟩
  read {limit depth f} hf hroom := by
    obtain ⟨inner, hinner, hread⟩ :=
      @Compiler.exists_expression_negation limit depth f text hf h.row.closed
    have hlength : ('!' :: '(' :: (text ++ [')'])).length = text.length + 3 := by simp
    obtain ⟨condition, hok, hsame⟩ :=
      @h.read limit (depth + 1) inner (h.trimmed.text_trim hinner) (by omega)
    exact ⟨_, (hread _).mpr ⟨by omega, condition, hok, rfl⟩, by simpa [same] using hsame⟩

end Reads
end Filter

/-! ## Segments -/

namespace Selector

variable [DoubleText] {selectors : List Selector} {text : List Char}

theorem WrittenAs.eq_chars {s : Selector} (hplain : s.IsPlain) (h : s.WrittenAs text) :
    text = s.chars := by
  cases s with
  | filter e => exact absurd hplain id
  | _ => exact h

theorem TailWrittenAs.eq_chars (hplain : ∀ s ∈ selectors, s.IsPlain)
    (h : TailWrittenAs selectors text) : text = tailChars selectors := by
  induction selectors generalizing text with
  | nil => exact h
  | cons s rest ih =>
    rw [List.forall_mem_cons] at hplain
    obtain ⟨first, later, hfirst, hlater, rfl⟩ := h
    rw [hfirst.eq_chars hplain.1, ih hplain.2 hlater]
    rfl

/-- There is no choice in writing plain selectors. -/
theorem ListWrittenAs.eq_chars (hplain : ∀ s ∈ selectors, s.IsPlain)
    (h : ListWrittenAs selectors text) : text = listChars selectors := by
  cases selectors with
  | nil => exact h
  | cons s rest =>
    rw [List.forall_mem_cons] at hplain
    obtain ⟨first, later, hfirst, hlater, rfl⟩ := h
    rw [hfirst.eq_chars hplain.1, hlater.eq_chars hplain.2]
    rfl

end Selector

namespace Segment

variable {body : List Char}

/-- A filter is read if its condition is. -/
theorem Reads.filter {e : Filter} {tier : Nat} {condition : List Char}
    (h : e.Reads tier .boolean condition) :
    (Segment.mk [.filter e]).Reads ('?' :: condition) where
  closed grouping := by
    have hquestion : Ordinary true '?' := by decide
    exact Closed.cons hquestion.of_true trivial h.row.closed
  read {limit depth f} hf hroom := by
    obtain ⟨operator, hend, -⟩ := h.ends
    have hstart : StartsSolid ('?' :: condition) := ⟨'?', rfl, by decide⟩
    have htrim : f.trim.text = '?' :: condition :=
      (hstart.trimmed (hend.cons '?')).text_trim hf
    have hhead : f.trim.text.head? = some '?' := by rw [htrim]; rfl
    have hinner : (f.trim.drop 1).trim.text = condition :=
      h.trimmed.text_trim (by rw [Fragment.drop, htrim]; rfl)
    rw [List.length_cons] at hroom
    obtain ⟨read, hok, hsame⟩ := @h.read limit (depth + 1) _ hinner (by omega)
    refine ⟨_, (Compiler.segment_question hhead).mpr ⟨read, hok, rfl⟩, ?_⟩
    simpa [same, Selector.sameList, Selector.same] using hsame

/-- **A segment is read if its filter is.** -/
theorem Reads.of_writtenAs [LawfulDoubleText] {selectors : List Selector}
    (hwf : (Segment.mk selectors).WellFormed)
    (hfilters : ∀ e, Selector.filter e ∈ selectors → ∀ text, e.WrittenAs text →
      e.Reads e.tier .boolean text)
    (h : Selector.ListWrittenAs selectors body) : (Segment.mk selectors).Reads body := by
  rcases hwf.1.filter_or_plain with ⟨e, rfl⟩ | hplain
  · obtain ⟨_, _, ⟨condition, henclosed, rfl⟩, rfl, rfl⟩ := h
    have hread := hfilters e (List.mem_cons_self ..)
    rw [List.append_nil]
    rcases henclosed with ⟨-, hbare⟩ | ⟨inner, hinner, rfl⟩
    · exact Reads.filter (hread condition hbare)
    · exact @Reads.filter e 0 _ (hread inner hinner).grouped
  · obtain rfl := h.eq_chars hplain
    refine ⟨fun _ => Selector.closed_listChars selectors, fun {limit depth f} hf _ => ?_⟩
    refine ⟨_, Compiler.segment_plain hwf hplain hf, ?_⟩
    rw [same]
    exact Selector.sameList_self hplain

/-- Segments are read one by one. -/
theorem exists_mapM {segments : List Segment} {bodies : List (List Char)}
    (h : List.Forall₂ Reads segments bodies) {limit depth : Nat} {parts : List Fragment}
    (hparts : parts.map Fragment.text = bodies)
    (hroom : ∀ t ∈ bodies, depth + t.length ≤ limit) :
    ∃ read, parts.mapM (Compiler.segment limit depth) = .ok read ∧
      sameList segments read = true := by
  induction h generalizing parts with
  | nil =>
    obtain rfl := List.map_eq_nil_iff.mp hparts
    exact ⟨[], rfl, by simp [sameList]⟩
  | @cons s body rest bodies hs hrest ih =>
    obtain ⟨part, parts, rfl, hpart, hlater⟩ := List.map_eq_cons_iff.mp hparts
    rw [List.forall_mem_cons] at hroom
    refine (exists_mapM_cons (fun read => s.same read = true)
      (fun read => sameList rest read = true) (by simp [sameList])).mpr ⟨?_, ih hlater hroom.2⟩
    exact hs.read hpart hroom.1

end Segment

/-! ## Steps and paths -/

/-- The text between two brackets is shorter than what stands around it. -/
theorem NodeParts.length_le_of_mem {bodies : List (List Char)} {t : List Char} (h : t ∈ bodies) :
    t.length ≤ (bodies.flatMap bracketed).length := by
  obtain ⟨front, back, rfl⟩ := List.append_of_mem h
  simp only [List.flatMap_append, List.flatMap_cons, bracketed, List.length_append,
    List.length_cons]
  omega

/-- A node is shorter than the path that it is cut from. -/
theorem Node.length_le_of_mem {nodes : List Node} {n : Node} (h : n ∈ nodes) :
    (n.bodies.flatMap NodeParts.bracketed).length ≤
      (NodeText.join (nodes.map piece)).length := by
  induction nodes with
  | nil => simp at h
  | cons first rest ih =>
    rw [Node.join_cons, List.length_append, List.length_append]
    rcases List.mem_cons.mp h with rfl | h
    · omega
    · have hlater := ih h
      omega

namespace Step

variable {steps : List Step} {nodes : List Node}

theorem Reads.isClosed {s : Step} {n : Node} (h : s.Reads n) : n.IsClosed := by
  intro t ht
  obtain ⟨segment, -, hsegment⟩ := exists_left_of_forall₂ h.segments ht
  exact hsegment.closed

/-- The node ends like an operator if the step does. -/
theorem Reads.endsLikeOperator_eq {s : Step} {n : Node} (h : s.Reads n) :
    n.endsLikeOperator = s.endsLikeOperator := by
  obtain ⟨head, segments⟩ := s
  obtain ⟨head', bodies⟩ := n
  obtain ⟨hhead, hsegments⟩ := h
  obtain rfl : head' = head := hhead
  have hempty : bodies.isEmpty = segments.isEmpty := by
    cases hsegments <;> rfl
  rw [Node.endsLikeOperator, endsLikeOperator, hempty]

theorem listFilled_of_reads (hwf : ListWellFormed steps) (h : List.Forall₂ Reads steps nodes) :
    Node.ListFilled nodes := by
  refine Node.ListFilled.of_steps hwf (h.imp fun s n hread => ⟨hread.head, fun hnil => ?_⟩)
  have hsegments := hread.segments
  rw [hnil] at hsegments
  exact List.forall₂_nil_right_iff.mp hsegments

theorem getLast?_of_reads (h : List.Forall₂ Reads steps nodes) :
    nodes.getLast?.any Node.endsLikeOperator = steps.getLast?.any endsLikeOperator := by
  induction h with
  | nil => rfl
  | cons hs hrest ih =>
    cases hrest with
    | nil => exact hs.endsLikeOperator_eq
    | cons hnext hlater =>
      rw [List.getLast?_cons_cons, List.getLast?_cons_cons]
      exact ih

/-- Steps are read one by one. -/
theorem exists_mapM (hwf : ListWellFormed steps) (hlegible : allLegible steps = true)
    (h : List.Forall₂ Reads steps nodes) {limit depth : Nat} {parts : List NodeText}
    (hparts : parts.map NodeText.key = nodes.map Node.trimmed)
    (hroom : ∀ n ∈ nodes, depth + (n.bodies.flatMap NodeParts.bracketed).length ≤ limit) :
    ∃ read, parts.mapM (Compiler.step limit depth) = .ok read ∧
      sameList steps read = true := by
  induction h generalizing parts with
  | nil =>
    obtain rfl := List.map_eq_nil_iff.mp hparts
    exact ⟨[], rfl, by simp [sameList]⟩
  | @cons s n rest nodes hs hrest ih =>
    obtain ⟨part, parts, rfl, hpart, hlater⟩ := List.map_eq_cons_iff.mp hparts
    rw [List.forall_mem_cons] at hroom
    have hsays := (listFilled_of_reads hwf (.cons hs hrest)).saysSomething (List.mem_cons_self ..)
    have hclosed := hs.isClosed
    obtain ⟨head, segments⟩ := s
    obtain ⟨head', bodies⟩ := n
    obtain ⟨hhead, hsegments⟩ := hs
    obtain rfl : head' = head := hhead
    simp only [allLegible, Bool.and_eq_true] at hlegible
    obtain ⟨⟨hfaithful, -⟩, hothers⟩ := hlegible
    refine (exists_mapM_cons (fun read => (Step.mk head' segments).same read = true)
      (fun read => sameList rest read = true) (by simp [sameList])).mpr
      ⟨?_, ih hwf.2.2 hothers hlater hroom.2⟩
    refine (Step.read_iff hsays hclosed hpart fun parts htexts => ?_).mpr ⟨hfaithful, trivial⟩
    refine iff_of_true (Segment.exists_mapM hsegments htexts fun t ht => ?_) trivial
    exact (Nat.add_le_add_left (NodeParts.length_le_of_mem ht) depth).trans hroom.1

end Step

/-- **A path is read if its segments and its steps are.** -/
theorem Path.Reads.of_parts {origin : Origin} {segments : List Segment} {steps : List Step}
    {source : String} (hwf : (Path.mk origin segments steps source).WellFormed true)
    (hlegible : Step.allLegible steps = true) {bodies : List (List Char)} {nodes : List Node}
    (hsegments : List.Forall₂ Segment.Reads segments bodies)
    (hsteps : List.Forall₂ Step.Reads steps nodes) :
    (Path.mk origin segments steps source).Reads (origin.marker ::
      (bodies.flatMap NodeParts.bracketed ++ NodeText.join (nodes.map Node.piece))) := by
  obtain ⟨horigin, -, hwfSteps⟩ := hwf
  have hbodies : ∀ t ∈ bodies, ∀ grouping, Closed grouping (fun _ => True) t := by
    intro t ht
    obtain ⟨segment, -, hsegment⟩ := exists_left_of_forall₂ hsegments ht
    exact hsegment.closed
  have hclosed : ∀ n ∈ nodes, n.IsClosed := by
    intro n hn
    obtain ⟨s, -, hs⟩ := exists_left_of_forall₂ hsteps hn
    exact hs.isClosed
  have hfilled := Step.listFilled_of_reads hwfSteps hsteps
  refine ⟨Node.quiet_marked origin (fun t ht => hbodies t ht true) hclosed, ⟨_, rfl⟩, ?_,
    fun {limit depth f} hf hroom => ?_⟩
  · have hend := Node.endsWith_marked origin bodies fun n hn => hfilled.saysSomething hn
    rw [Step.getLast?_of_reads hsteps] at hend
    exact hend
  · simp only [List.length_cons, List.length_append] at hroom
    have hreadSegments := fun (parts : List Fragment) (htexts : parts.map Fragment.text = bodies) =>
      @Segment.exists_mapM _ _ hsegments limit depth parts htexts fun t ht => by
        have hbody := NodeParts.length_le_of_mem ht
        omega
    have hreadSteps := fun (parts : List NodeText)
        (hkeys : parts.map NodeText.key = nodes.map Node.trimmed) =>
      @Step.exists_mapM _ _ hwfSteps hlegible hsteps limit depth parts hkeys fun n hn => by
        have hnode := Node.length_le_of_mem hn
        omega
    exact (Path.read_iff horigin (fun t ht => hbodies t ht false) hfilled hclosed hf
      (fun parts htexts => iff_of_true (hreadSegments parts htexts) trivial)
      fun parts hkeys => iff_of_true (hreadSteps parts hkeys) trivial).mpr ⟨trivial, trivial⟩

/-! ## Every text of an expression -/

section

variable [LawfulDoubleText]

mutual

/-- **A path is read from every text that writes it.** -/
theorem Path.reads {text : List Char} : (p : Path) → p.WellFormed true → p.isLegible = true →
    p.WrittenAs text → p.Reads text
  | .mk _ segments steps _, hwf, hlegible, h => by
    simp only [Path.isLegible, Bool.and_eq_true] at hlegible
    obtain ⟨_, _, hfront, hback, rfl⟩ := h
    obtain ⟨bodies, hsegments, rfl⟩ := Segment.list_reads segments hwf.2.1 hlegible.1 hfront
    obtain ⟨nodes, hsteps, rfl⟩ := Step.list_reads steps hwf.2.2 hlegible.2 hback
    exact Path.Reads.of_parts hwf hlegible.2 hsegments hsteps

theorem Step.list_reads {text : List Char} : (steps : List Step) → Step.ListWellFormed steps →
    Step.allLegible steps = true → Step.ListWrittenAs steps text →
    ∃ nodes, List.Forall₂ Step.Reads steps nodes ∧ text = NodeText.join (nodes.map Node.piece)
  | [], _, _, h => ⟨[], .nil, h⟩
  | .mk head segments :: rest, hwf, hlegible, h => by
    simp only [Step.allLegible, Bool.and_eq_true] at hlegible
    obtain ⟨_, _, hinner, hlater, rfl⟩ := h
    obtain ⟨bodies, hsegments, rfl⟩ := Segment.list_reads segments hwf.1.2 hlegible.1.2 hinner
    obtain ⟨nodes, hsteps, rfl⟩ := Step.list_reads rest hwf.2.2 hlegible.2 hlater
    have htext := Node.join_cons ⟨head, bodies⟩ nodes
    exact ⟨⟨head, bodies⟩ :: nodes, .cons ⟨rfl, hsegments⟩ hsteps, htext.symm⟩

theorem Segment.list_reads {text : List Char} : (segments : List Segment) →
    Segment.ListWellFormed segments → Segment.allLegible segments = true →
    Segment.ListWrittenAs segments text →
    ∃ bodies, List.Forall₂ Segment.Reads segments bodies ∧
      text = bodies.flatMap NodeParts.bracketed
  | [], _, _, h => ⟨[], .nil, h⟩
  | .mk selectors :: rest, hwf, hlegible, h => by
    simp only [Segment.allLegible, Bool.and_eq_true] at hlegible
    obtain ⟨body, _, hbody, hlater, rfl⟩ := h
    have hfilters := Selector.filters_read selectors hwf.1.2 hlegible.1
    obtain ⟨bodies, hsegments, rfl⟩ := Segment.list_reads rest hwf.2 hlegible.2 hlater
    exact ⟨body :: bodies, .cons (Segment.Reads.of_writtenAs hwf.1 hfilters hbody) hsegments, rfl⟩

theorem Selector.filters_read : (selectors : List Selector) →
    Selector.ListWellFormed selectors → Selector.allLegible selectors = true →
    ∀ e, Selector.filter e ∈ selectors → ∀ text, e.WrittenAs text →
      e.Reads e.tier .boolean text
  | [], _, _, _, he, _, _ => absurd he List.not_mem_nil
  | s :: rest, hwf, hlegible, e, he, text, h => by
    obtain ⟨hfirst, hlater⟩ := Selector.allLegible_cons.mp hlegible
    rcases List.mem_cons.mp he with hs | he
    · cases s with
      | filter condition =>
        obtain rfl : condition = e := (Selector.filter.inj hs).symm
        exact Filter.reads condition hwf.1 (hfirst condition rfl) text h
      | _ => simp at hs
    · exact Selector.filters_read rest hwf.2 hlater e he text h

/-- **An expression is read from every text that writes it**, and the text is a row of operators
that are no looser than that of the expression. -/
theorem Filter.reads {position : Compiler.Position} : (e : Filter) → e.WellFormed position →
    e.isLegible = true → ∀ text, e.WrittenAs text → e.Reads e.tier position text
  | .literal l, _, _, _, h => by
    obtain rfl := h
    exact Filter.Reads.literal l
  | .reference p, hwf, hlegible, text, h => by
    obtain ⟨rfl, hp⟩ := hwf
    simp only [Filter.isLegible, Bool.and_eq_true, Bool.not_eq_true'] at hlegible
    refine Filter.Reads.path (Path.reads p hp hlegible.2 h) (fun _ => hlegible.1) fun q => ?_
    rw [Compiler.asOperand, Filter.same]
  | .existence p inverted, hwf, hlegible, text, h => by
    obtain ⟨rfl, hp⟩ := hwf
    obtain ⟨inner, hinner, rfl⟩ := h
    have hread := Path.reads p hp hlegible hinner
    cases inverted with
    | false =>
      exact Filter.Reads.path hread nofun fun q => by simp [Compiler.asOperand, Filter.same]
    | true => exact Filter.Reads.absence hread
  | .negation e, hwf, hlegible, text, h => by
    obtain ⟨rfl, he⟩ := hwf
    obtain ⟨inner, hinner, rfl⟩ := h
    exact (Filter.reads e he hlegible inner hinner).negation
  | .arithmetic op a b, hwf, hlegible, text, h => by
    simp only [Filter.isLegible, Bool.and_eq_true] at hlegible
    -- of the three kinds of operation, arithmetic alone may also stand as a value
    have hpermits : Compiler.Permits position (.arithmetic op) := by
      cases position with
      | boolean => trivial
      | value => exact ⟨op, rfl⟩
    exact Filter.Reads.of_joins (.arithmetic op) hpermits
      (Filter.reads a hwf.1 hlegible.1) (Filter.reads b hwf.2 hlegible.2) h
  | .comparison op a b, hwf, hlegible, text, h => by
    simp only [Filter.isLegible, Bool.and_eq_true] at hlegible
    obtain ⟨rfl, ha, hb⟩ := hwf
    exact Filter.Reads.of_joins (.comparison op) trivial (Filter.reads a ha hlegible.1)
      (Filter.reads b hb hlegible.2) h
  | .logical op a b, hwf, hlegible, text, h => by
    simp only [Filter.isLegible, Bool.and_eq_true] at hlegible
    obtain ⟨rfl, ha, hb⟩ := hwf
    exact Filter.Reads.of_joins (.logical op) trivial (Filter.reads a ha hlegible.1)
      (Filter.reads b hb hlegible.2) h

end

end

/-! ## Operators that share the loosest tier -/

namespace Compiler

variable {limit depth : Nat} {position : Position} {f : Fragment} {found rest : List Occurrence}
  {first next : Occurrence}

/-- **Two operators of the loosest tier are a fault at the second.** -/
theorem expression_ungrouped (hdepth : depth ≤ limit) (hfound : f.trim.operators = .ok found)
    (hloosest : loosest found = first :: next :: rest) :
    expression limit depth position f = .error ⟨.ungrouped first.op next.op, next.offset⟩ := by
  have hmem : first ∈ found := mem_of_loosest (hloosest ▸ List.mem_cons_self ..)
  have hlength := Fragment.index_of_mem_operators hfound hmem
  have hne : ¬f.trim.text.isEmpty = true := by
    rw [List.isEmpty_iff]
    intro hnil
    simp [hnil] at hlength
  rw [expression, if_neg (Nat.not_lt.mpr hdepth)]
  simp only [if_neg hne]
  split
  · rename_i fault hfault
    simp [hfound] at hfault
  · rename_i found' hfound'
    obtain rfl : found = found' := Except.ok.inj (hfound.symm.trans hfound')
    split
    · rename_i hnone
      simp [hloosest] at hnone
    · rename_i first' next' rest' htwo
      obtain ⟨rfl, rfl, rfl⟩ : first = first' ∧ next = next' ∧ rest = rest' := by
        simpa [hloosest] using htwo
      rfl
    · rename_i o hone
      simp [hloosest] at hone

/-- An operator that is found stands in the source at its offset. -/
theorem exists_source_of_operators {o : Occurrence} {source : List Char} (hf : f.Within source)
    (hfound : f.operators = .ok found) (ho : o ∈ found) : ∃ before after,
      source = before ++ (o.op.symbol.toList ++ after) ∧ o.offset = Text.byteSize before := by
  obtain ⟨before, after, htext, -, hoffset⟩ := (Fragment.operatorsBytes_safe hf).good _ hfound o ho
  obtain ⟨front, back, rfl, hfront⟩ := hf
  refine ⟨front ++ before, after ++ back, by simp [htext], ?_⟩
  rw [hoffset, hfront, Text.byteSize_append]

/-- **Operators bind by their tiers.**  A legible condition is read back from every text that
writes it, as long as the limit leaves a level for every character.  A text in which two operators
share the tier that no operator is looser than is no expression, and the fault is at the byte of
the source where the second of them stands. -/
theorem expression_precedence [LawfulDoubleText] :
    (∀ {e : Filter} {text : List Char}, e.WellFormed .boolean → e.isLegible = true →
      e.WrittenAs text → ∀ {limit depth : Nat} {f : Fragment}, f.trim.text = text →
      depth + text.length ≤ limit →
      ∃ read, expression limit depth .boolean f = .ok read ∧ e.same read = true) ∧
    ∀ {limit depth tier : Nat} {position : Position} {f : Fragment} {found rest : List Occurrence}
      {first next : Occurrence}, depth ≤ limit → f.trim.operators = .ok found →
      (∀ o ∈ found, tier ≤ o.op.tier) →
      (found.filter fun o => o.op.tier == tier) = first :: next :: rest →
      expression limit depth position f = .error ⟨.ungrouped first.op next.op, next.offset⟩ ∧
        ∀ source, f.Within source → ∃ before after,
          source = before ++ (next.op.symbol.toList ++ after) ∧
            next.offset = Text.byteSize before := by
  refine ⟨fun hform hlegible hwritten _ _ _ hf hroom =>
    (Filter.reads _ hform hlegible _ hwritten).read hf hroom, ?_⟩
  intro limit depth tier position f found rest first next hdepth hfound hmin hfilter
  have hfirst : first ∈ found ∧ first.op.tier = tier := by
    have hmem : first ∈ found.filter fun o => o.op.tier == tier :=
      hfilter ▸ List.mem_cons_self ..
    simpa using hmem
  have hnext : next ∈ found := by
    have hmem : next ∈ found.filter fun o => o.op.tier == tier :=
      hfilter ▸ List.mem_cons_of_mem _ (List.mem_cons_self ..)
    exact List.mem_of_mem_filter hmem
  obtain ⟨hmem, rfl⟩ := hfirst
  have hloosest : loosest found = first :: next :: rest :=
    (loosest_eq_filter hmem hmin).trans hfilter
  exact ⟨expression_ungrouped hdepth hfound hloosest, fun source hsource =>
    exists_source_of_operators hsource.trim hfound hnext⟩

/-- A condition of four tiers, with a pair of parentheses that it does not need and one that it
does; and a row of two subtractions. -/
theorem expression_precedence_mixed :
    let name (key : String) : Path := .mk .current [] [.mk (.child (.name key)) []] ""
    let number (n : Int64) : Filter := .literal (.number (.ofInt64 n))
    let sum : Filter := .arithmetic .add (number 1)
      (.arithmetic .multiply (.arithmetic .subtract (number 2) (number (-3)))
        (.reference (name "b")))
    let e : Filter := .logical .or (.comparison .gt (.reference (name "a")) sum)
      (.negation (.existence (name "c") false))
    let text := "@.a > (1 + (2 - -3) * @.b) || !(@.c)".toList
    (e.WellFormed .boolean ∧ e.isLegible = true ∧ e.WrittenAs text ∧
      ∃ read, expression 128 1 .boolean ⟨text, 3⟩ = .ok read ∧ e.same read = true) ∧
    expression 128 1 .value ⟨"1 - 2 - 3".toList, 3⟩ =
        .error ⟨.ungrouped (.arithmetic .subtract) (.arithmetic .subtract), 9⟩ ∧
      ∃ before after, "$[?1 - 2 - 3]".toList = before ++ ("-".toList ++ after) ∧
        9 = Text.byteSize before := by
  intro name number sum e text
  have hform : e.WellFormed .boolean := by
    simp [e, sum, number, name, Filter.WellFormed, Path.WellFormed, Segment.ListWellFormed,
      Step.ListWellFormed, Step.WellFormed, Head.Closes, KeyTest.Closes, Text.isBlank]
  have hlegible : e.isLegible = true := by decide +kernel
  have hgroup : (Filter.arithmetic .subtract (number 2) (number (-3))).WrittenAs
      "2 - -3".toList :=
    ⟨"2".toList, "-3".toList, Or.inl ⟨by decide, rfl⟩, Or.inl ⟨by decide, rfl⟩, rfl⟩
  have hproduct : (Filter.arithmetic .multiply (.arithmetic .subtract (number 2) (number (-3)))
      (.reference (name "b"))).WrittenAs "(2 - -3) * @.b".toList :=
    ⟨"(2 - -3)".toList, "@.b".toList, Or.inr ⟨_, hgroup, rfl⟩,
      Or.inl ⟨by decide, Path.writtenAs_chars _⟩, rfl⟩
  have hsum : sum.WrittenAs "1 + (2 - -3) * @.b".toList :=
    ⟨"1".toList, "(2 - -3) * @.b".toList, Or.inl ⟨by decide, rfl⟩,
      Or.inl ⟨by decide, hproduct⟩, rfl⟩
  have hcompare : (Filter.comparison .gt (.reference (name "a")) sum).WrittenAs
      "@.a > (1 + (2 - -3) * @.b)".toList :=
    ⟨"@.a".toList, "(1 + (2 - -3) * @.b)".toList, Or.inl ⟨by decide, Path.writtenAs_chars _⟩,
      Or.inr ⟨_, hsum, rfl⟩, rfl⟩
  have hwritten : e.WrittenAs text :=
    ⟨"@.a > (1 + (2 - -3) * @.b)".toList, "!(@.c)".toList, Or.inl ⟨by decide, hcompare⟩,
      Or.inl ⟨by decide, Filter.writtenAs_chars _⟩, rfl⟩
  have htrim : (Fragment.trim ⟨text, 3⟩).text = text := by decide +kernel
  obtain ⟨hreads, hrefuses⟩ := @expression_precedence .standard
  refine ⟨⟨hform, hlegible, hwritten, hreads hform hlegible hwritten htrim (by decide)⟩, ?_⟩
  have hfound : (Fragment.trim ⟨"1 - 2 - 3".toList, 3⟩).operators =
      .ok [⟨.arithmetic .subtract, 2, 5⟩, ⟨.arithmetic .subtract, 6, 9⟩] := by decide +kernel
  have hmin : ∀ o ∈ [Occurrence.mk (.arithmetic .subtract) 2 5, ⟨.arithmetic .subtract, 6, 9⟩],
      4 ≤ o.op.tier := by decide
  have hdepth : 1 ≤ (128 : Nat) := by decide
  obtain ⟨hfault, hplace⟩ := hrefuses hdepth hfound hmin rfl
  exact ⟨hfault, hplace _ ⟨"$[?".toList, "]".toList, rfl, rfl⟩⟩

end Compiler

end PathQuery
