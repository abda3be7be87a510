import PathQuery.Proofs.Double.StandardLayout
import PathQuery.Proofs.Path.ExpressionText
import PathQuery.Proofs.Path.StepText

/-! # Compiling the canonical text of a path

The canonical text of a compiled path compiles to the same path exactly if the path is
faithful and its canonical text is nested no deeper than the limit
(`Path.compile_canonical_iff`).  Only the form of compiled paths is used for that, so it
holds of every path of this form, also of one that no text was compiled to
(`Path.compile_canonical_of_wellFormed`).  The proof is an induction over the tree; what a
segment, a list of segments and a list of steps need of their parts is said first.
-/

namespace PathQuery

variable {limit : Nat}

/-! ## Segments -/

/-- Read from their canonical texts at some depth, the segments are the same exactly if
they are faithful and no deeper than the limit. -/
def Segment.ListReadsBack [DoubleText] (limit : Nat) (segments : List Segment) : Prop :=
  ∀ (depth : Nat) (bodies : List Fragment), depth ≤ limit →
    bodies.map Fragment.text = segments.map Segment.body →
    ((∃ read, bodies.mapM (Compiler.segment limit depth) = .ok read ∧
        Segment.sameList segments read = true) ↔
      Segment.allFaithful segments = true ∧ depth + Segment.listLevels segments ≤ limit)

/-- So it is for steps. -/
def Step.ListReadsBack [DoubleText] (limit : Nat) (steps : List Step) : Prop :=
  ∀ (depth : Nat) (nodes : List NodeText), depth ≤ limit →
    nodes.map NodeText.key = (steps.map Step.node).map Node.trimmed →
    ((∃ read, nodes.mapM (Compiler.step limit depth) = .ok read ∧
        Step.sameList steps read = true) ↔
      Step.allFaithful steps = true ∧ depth + Step.listLevels steps ≤ limit)

/-- A list is read exactly if its first member and the others are. -/
theorem exists_mapM_cons {α β ε : Type} {g : α → Except ε β} {x : α} {xs : List α}
    (first : β → Prop) (rest : List β → Prop) {all : List β → Prop}
    (hcons : ∀ y ys, all (y :: ys) ↔ first y ∧ rest ys) :
    (∃ ys, (x :: xs).mapM g = .ok ys ∧ all ys) ↔
      (∃ y, g x = .ok y ∧ first y) ∧ ∃ ys, xs.mapM g = .ok ys ∧ rest ys := by
  constructor
  · rintro ⟨ys, hys, hall⟩
    obtain ⟨y, later, hy, hlater, rfl⟩ := List.forall₂_cons_left_iff.mp (mapM_eq_ok.mp hys)
    obtain ⟨hfirst, hrest⟩ := (hcons y later).mp hall
    exact ⟨⟨y, hy, hfirst⟩, ⟨later, mapM_eq_ok.mpr hlater, hrest⟩⟩
  · rintro ⟨⟨y, hy, hfirst⟩, ⟨ys, hys, hrest⟩⟩
    refine ⟨y :: ys, ?_, (hcons y ys).mpr ⟨hfirst, hrest⟩⟩
    rw [List.mapM_cons, hy, hys]
    rfl

/-- A selector that is no filter. -/
def Selector.IsPlain : Selector → Prop
  | .filter _ => False
  | _ => True

theorem Selector.sameList_self {selectors : List Selector} (h : ∀ s ∈ selectors, s.IsPlain) :
    Selector.sameList selectors selectors = true := by
  induction selectors with
  | nil => simp [sameList]
  | cons s rest ih =>
    have hrest := ih fun t ht => h t (List.mem_cons_of_mem _ ht)
    cases s with
    | filter f => exact absurd (h _ (List.mem_cons_self ..)) id
    | _ => simp [sameList, same, hrest]

/-- Plain selectors have no levels, and nothing in them is lost. -/
theorem Selector.plain_facts {selectors : List Selector} (h : ∀ s ∈ selectors, s.IsPlain) :
    Selector.allFaithful selectors = true ∧ Selector.listLevels selectors = 0 := by
  induction selectors with
  | nil => simp [allFaithful, listLevels]
  | cons s rest ih =>
    have hrest := ih fun t ht => h t (List.mem_cons_of_mem _ ht)
    cases s with
    | filter f => exact absurd (h _ (List.mem_cons_self ..)) id
    | _ => simpa [allFaithful, listLevels] using hrest

/-- A segment of plain selectors that is read back whatever the depth. -/
theorem Segment.read_plain_iff {selectors : List Selector} {depth : Nat} {inner : Fragment}
    (hdepth : depth ≤ limit) (hplain : ∀ s ∈ selectors, s.IsPlain)
    (hread : Compiler.segment limit depth inner = .ok (.mk selectors)) :
    (∃ read, Compiler.segment limit depth inner = .ok read ∧
        (Segment.mk selectors).same read = true) ↔
      Selector.allFaithful selectors = true ∧ depth + Selector.listLevels selectors ≤ limit := by
  obtain ⟨hfaithful, hlevels⟩ := Selector.plain_facts hplain
  have hsame : (Segment.mk selectors).same (.mk selectors) = true := by
    rw [Segment.same]
    exact Selector.sameList_self hplain
  rw [hfaithful, hlevels]
  exact iff_of_true ⟨_, hread, hsame⟩ ⟨rfl, hdepth⟩

/-- Selectors that may stand between brackets are a single filter or all plain. -/
theorem Selector.Uniform.filter_or_plain {selectors : List Selector}
    (h : Selector.Uniform selectors) :
    (∃ e, selectors = [.filter e]) ∨ ∀ s ∈ selectors, s.IsPlain := by
  rcases h with hone | ⟨-, hall | hall⟩
  · obtain ⟨s, rfl⟩ := List.length_eq_one_iff.mp hone
    cases s with
    | filter e => exact Or.inl ⟨e, rfl⟩
    | _ => exact Or.inr (by simp [IsPlain])
  · refine Or.inr fun s hs => ?_
    obtain ⟨i, rfl⟩ := hall s hs
    trivial
  · refine Or.inr fun s hs => ?_
    obtain ⟨key, rfl⟩ := hall s hs
    trivial

section

variable [LawfulDoubleText]

/-- A filter is two levels: its own, and the parentheses in it. -/
theorem Segment.read_filter_iff {e : Filter} (h : e.ReadsBack limit .boolean)
    (hwf : e.WellFormed .boolean) {depth : Nat} {inner : Fragment}
    (hinner : inner.text = Segment.body (.mk [.filter e])) :
    (∃ read, Compiler.segment limit depth inner = .ok read ∧
        (Segment.mk [.filter e]).same read = true) ↔
      Selector.allFaithful [.filter e] = true ∧
        depth + Selector.listLevels [.filter e] ≤ limit := by
  have hchars : inner.text = '?' :: '(' :: (e.chars ++ [')']) := by
    rw [hinner]
    simp [Segment.body, Selector.listChars, Selector.chars, Selector.tailChars]
  have htrim : inner.trim.text = '?' :: '(' :: (e.chars ++ [')']) := by
    have hstart : StartsSolid ('?' :: '(' :: (e.chars ++ [')'])) := ⟨'?', rfl, by decide⟩
    have hend : EndsWith false ('?' :: '(' :: (e.chars ++ [')'])) :=
      ((endsWith_closeParen e.chars).cons '(').cons '?'
    exact (hstart.trimmed hend).text_trim hchars
  have hhead : inner.trim.text.head? = some '?' := by rw [htrim]; rfl
  have hgroup : (inner.trim.drop 1).trim.text = '(' :: (e.chars ++ [')']) := by
    have hstart : StartsSolid ('(' :: (e.chars ++ [')'])) := ⟨'(', rfl, by decide⟩
    have hend := (endsWith_closeParen e.chars).cons '('
    exact (hstart.trimmed hend).text_trim (by rw [Fragment.drop, htrim]; rfl)
  obtain ⟨body, hbody, hread⟩ := @Compiler.exists_expression_group limit (depth + 1)
    (inner.trim.drop 1) e.chars hgroup e.closed_chars
  have hbodyTrim := (Filter.trimmed_chars hwf).text_trim hbody
  have hback := h (depth + 1 + 1) body hbodyTrim
  -- one level for the filter and one for its parentheses
  have hlevels : depth + Selector.listLevels [.filter e] = depth + 1 + 1 + e.levels := by
    simp only [Selector.listLevels, Nat.max_zero]
    omega
  simp only [Selector.allFaithful, Bool.and_true, hlevels, Compiler.segment_question hhead]
  constructor
  · rintro ⟨read, ⟨condition, hok, rfl⟩, hsame⟩
    refine hback.mp ⟨condition, ((hread _ _).mp hok).2, ?_⟩
    simpa [Segment.same, Selector.sameList, Selector.same] using hsame
  · rintro ⟨hfaithful, hdeep⟩
    obtain ⟨condition, hok, hsame⟩ := hback.mpr ⟨hfaithful, hdeep⟩
    have hcondition := (hread .boolean condition).mpr ⟨by omega, hok⟩
    refine ⟨_, ⟨condition, hcondition, rfl⟩, ?_⟩
    simpa [Segment.same, Selector.sameList, Selector.same] using hsame

/-- **Plain selectors are read back** at every depth. -/
theorem Compiler.segment_plain {selectors : List Selector}
    (hwf : (Segment.mk selectors).WellFormed) (hplain : ∀ s ∈ selectors, s.IsPlain) {depth : Nat}
    {inner : Fragment} (hinner : inner.text = Segment.body (.mk selectors)) :
    segment limit depth inner = .ok (.mk selectors) := by
  -- selectors in a row are all indexes or all names; any other selector stands alone
  obtain ⟨huniform, hselectors⟩ := hwf
  rcases huniform with hone | ⟨hne, hall | hall⟩
  · obtain ⟨s, rfl⟩ := List.length_eq_one_iff.mp hone
    have hne : [s] ≠ [] := List.cons_ne_nil _ _
    cases s with
    | wildcard =>
      have htrim : inner.trim.text = ['*'] := by
        rw [Fragment.trim, hinner]
        rfl
      exact segment_eq_ok.mpr (Or.inl ⟨htrim, rfl⟩)
    | index i => exact segment_indexes hne (by simp) hinner
    | name key => exact segment_names hne (by simp) hinner
    | slice bounds =>
      have hchars : inner.text = bounds.chars := by
        rw [hinner]
        simp [Segment.body, Selector.listChars, Selector.chars, Selector.tailChars]
      exact segment_slice hselectors.1 hchars
    | filter e => exact absurd (hplain _ (List.mem_cons_self ..)) id
  · exact segment_indexes hne hall hinner
  · exact segment_names hne hall hinner

/-- **A segment is read back if its filter is.** -/
theorem Segment.read_iff {selectors : List Selector} (hwf : (Segment.mk selectors).WellFormed)
    (hfilters : ∀ e, Selector.filter e ∈ selectors → e.ReadsBack limit .boolean)
    {depth : Nat} {inner : Fragment} (hdepth : depth ≤ limit)
    (hinner : inner.text = Segment.body (.mk selectors)) :
    (∃ read, Compiler.segment limit depth inner = .ok read ∧
        (Segment.mk selectors).same read = true) ↔
      Selector.allFaithful selectors = true ∧ depth + Selector.listLevels selectors ≤ limit := by
  rcases hwf.1.filter_or_plain with ⟨e, rfl⟩ | hplain
  · exact Segment.read_filter_iff (hfilters e (List.mem_cons_self ..)) hwf.2.1 hinner
  · exact Segment.read_plain_iff hdepth hplain (Compiler.segment_plain hwf hplain hinner)

/-! ## Lists of segments and of steps -/

theorem Segment.ListReadsBack.nil : Segment.ListReadsBack limit [] := by
  intro depth bodies hdepth hbodies
  obtain rfl : bodies = [] := List.map_eq_nil_iff.mp hbodies
  exact iff_of_true ⟨[], rfl, by simp [sameList]⟩ ⟨rfl, hdepth⟩

theorem Segment.ListReadsBack.cons {selectors : List Selector} {rest : List Segment}
    (hwf : (Segment.mk selectors).WellFormed)
    (hfilters : ∀ e, Selector.filter e ∈ selectors → e.ReadsBack limit .boolean)
    (hrest : Segment.ListReadsBack limit rest) :
    Segment.ListReadsBack limit (.mk selectors :: rest) := by
  intro depth bodies hdepth hbodies
  obtain ⟨body, later, rfl, hbody, hlater⟩ := List.map_eq_cons_iff.mp hbodies
  have hfirst := Segment.read_iff hwf hfilters hdepth hbody
  have hothers := hrest depth later hdepth hlater
  rw [exists_mapM_cons (fun read => (Segment.mk selectors).same read = true)
    (fun read => Segment.sameList rest read = true) (by simp [sameList]), hfirst, hothers]
  simp only [allFaithful, listLevels, Bool.and_eq_true, ← Nat.add_max_add_left, Nat.max_le]
  tauto

theorem Step.ListReadsBack.nil : Step.ListReadsBack limit [] := by
  intro depth nodes hdepth hnodes
  obtain rfl : nodes = [] := List.map_eq_nil_iff.mp hnodes
  exact iff_of_true ⟨[], rfl, by simp [sameList]⟩ ⟨rfl, hdepth⟩

theorem Step.ListReadsBack.cons {head : Head} {segments : List Segment} {rest : List Step}
    (hwf : (Step.mk head segments).WellFormed) (hsegments : Segment.ListReadsBack limit segments)
    (hrest : Step.ListReadsBack limit rest) :
    Step.ListReadsBack limit (.mk head segments :: rest) := by
  intro depth nodes hdepth hnodes
  obtain ⟨node, later, rfl, hnode, hlater⟩ := List.map_eq_cons_iff.mp hnodes
  have hsays := Step.WellFormed.saysSomething hwf
  have hclosed := Step.isClosed_node (.mk head segments)
  have hfirst := Step.read_iff hsays hclosed hnode
    fun bodies hbodies => hsegments depth bodies hdepth hbodies
  have hothers := hrest depth later hdepth hlater
  rw [exists_mapM_cons (fun read => (Step.mk head segments).same read = true)
    (fun read => Step.sameList rest read = true) (by simp [sameList]), hfirst, hothers]
  simp only [allFaithful, listLevels, Bool.and_eq_true, ← Nat.add_max_add_left, Nat.max_le]
  tauto

theorem Path.ReadsBack.mk {nested : Bool} {origin : Origin} {segments : List Segment}
    {steps : List Step} {source : String}
    (hwf : (Path.mk origin segments steps source).WellFormed nested)
    (hsegments : Segment.ListReadsBack limit segments) (hsteps : Step.ListReadsBack limit steps) :
    (Path.mk origin segments steps source).ReadsBack limit nested := by
  intro depth f hdepth hf
  obtain ⟨horigin, -, hwfSteps⟩ := hwf
  have hbodies : ∀ t ∈ segments.map Segment.body, Closed false (fun _ => True) t :=
    fun t ht => Segment.closed_of_mem_bodies ht
  have hfilled : Node.ListFilled (steps.map Step.node) := by
    refine Node.ListFilled.of_steps hwfSteps (List.forall₂_map_right_iff.mpr ?_)
    refine List.forall₂_same.mpr fun s _ => ?_
    obtain ⟨head, inner⟩ := s
    exact ⟨rfl, List.map_eq_nil_iff.mp⟩
  rw [chars_eq] at hf
  rw [Path.read_iff horigin hbodies hfilled (fun n hn => Step.isClosed_of_mem hn) hf
    (fun bodies hbodies => hsegments depth bodies hdepth hbodies)
    fun nodes hnodes => hsteps depth nodes hdepth hnodes]
  simp only [isFaithful, levels, Bool.and_eq_true, ← Nat.add_max_add_left, Nat.max_le]
  tauto

/-! ## Whole paths -/

mutual

/-- **Every well-formed path is read back.** -/
theorem Path.readsBack {nested : Bool} : (p : Path) → p.WellFormed nested →
    p.ReadsBack limit nested
  | .mk _ segments steps _, h =>
    Path.ReadsBack.mk h (Segment.listReadsBack segments h.2.1) (Step.listReadsBack steps h.2.2)

theorem Step.listReadsBack : (steps : List Step) → Step.ListWellFormed steps →
    Step.ListReadsBack limit steps
  | [], _ => Step.ListReadsBack.nil
  | .mk _ segments :: rest, h =>
    Step.ListReadsBack.cons h.1 (Segment.listReadsBack segments h.1.2)
      (Step.listReadsBack rest h.2.2)

theorem Segment.listReadsBack : (segments : List Segment) → Segment.ListWellFormed segments →
    Segment.ListReadsBack limit segments
  | [], _ => Segment.ListReadsBack.nil
  | .mk selectors :: rest, h =>
    Segment.ListReadsBack.cons h.1 (Selector.filters_readBack selectors h.1.2)
      (Segment.listReadsBack rest h.2)

theorem Selector.filters_readBack : (selectors : List Selector) →
    Selector.ListWellFormed selectors →
    ∀ e, Selector.filter e ∈ selectors → e.ReadsBack limit .boolean
  | [], _, _, he => absurd he List.not_mem_nil
  | s :: rest, h, e, he => by
    rcases List.mem_cons.mp he with rfl | he
    · exact Filter.readsBack e h.1
    · exact Selector.filters_readBack rest h.2 e he

/-- **Every well-formed expression is read back.** -/
theorem Filter.readsBack {position : Compiler.Position} : (e : Filter) →
    e.WellFormed position → e.ReadsBack limit position
  | .literal l, _ => Filter.ReadsBack.literal l
  | .reference p, h => by
    obtain ⟨rfl, hp⟩ := h
    exact Filter.ReadsBack.reference (Path.readsBack p hp)
  | .existence p inverted, h => by
    obtain ⟨rfl, hp⟩ := h
    exact Filter.ReadsBack.existence (Path.readsBack p hp) inverted
  | .negation e, h => by
    obtain ⟨rfl, he⟩ := h
    exact Filter.ReadsBack.negation (Filter.readsBack e he) he
  | .arithmetic op a b, h => by
    refine Filter.ReadsBack.binary (.arithmetic op) ?_ (Filter.readsBack a h.1)
      (Filter.readsBack b h.2) h.1 h.2
    cases position with
    | boolean => trivial
    | value => exact ⟨op, rfl⟩
  | .comparison op a b, h => by
    obtain ⟨rfl, ha, hb⟩ := h
    exact Filter.ReadsBack.binary (.comparison op) trivial (Filter.readsBack a ha)
      (Filter.readsBack b hb) ha hb
  | .logical op a b, h => by
    obtain ⟨rfl, ha, hb⟩ := h
    exact Filter.ReadsBack.binary (.logical op) trivial (Filter.readsBack a ha)
      (Filter.readsBack b hb) ha hb

end

end

namespace Path

/-- **The canonical text of a compiled path compiles to the same path** exactly if all its
bare names are trimmed and not empty, no arithmetic operator follows an operand that ends
like an operator, and the parentheses that it has are nested no deeper than the limit. -/
theorem compile_canonical_iff [LawfulDoubleText] {options : Options} {text : String} {p : Path}
    (h : compile options text = .ok p) :
    (∃ q, compile options p.canonical = .ok q ∧ p.same q = true) ↔
      p.isFaithful = true ∧ p.levels ≤ options.maxDepth := by
  have hwf := Compiler.path_wellFormed (compile_eq_ok.mp h)
  have hback := p.readsBack hwf 0 ⟨p.canonical.toList, 0⟩ (Nat.zero_le options.maxDepth)
    String.toList_ofList
  simpa only [compile_eq_ok, Nat.zero_add] using hback

/-- A filter with an arithmetic operator, which the canonical text puts in parentheses. -/
theorem compile_canonical_arithmetic : ∃ p, compile {} "$..a[?@.b + 1 > 2]" = .ok p ∧
    ∃ q, compile {} p.canonical = .ok q ∧ p.same q = true := by
  have heval : ((compile {} "$..a[?@.b + 1 > 2]").toOption.any fun p =>
      p.isFaithful && decide (p.levels ≤ (128 : Nat))) = true := by decide +kernel
  obtain ⟨p, hp, hfacts⟩ := exists_of_any heval
  simp only [Bool.and_eq_true, decide_eq_true_eq] at hfacts
  exact ⟨p, hp, (@compile_canonical_iff .standard _ _ _ hp).mpr hfacts⟩

/-- The canonical text of a name with white space in front has lost its backslash, and
compiles to the name without the white space. -/
theorem compile_canonical_blank : ∃ p, compile {} "$.\\ a" = .ok p ∧
    ¬∃ q, compile {} p.canonical = .ok q ∧ p.same q = true := by
  have heval : ((compile {} "$.\\ a").toOption.any fun p =>
      (compile {} p.canonical).toOption.any fun q => !p.same q) = true := by decide +kernel
  obtain ⟨p, hp, hinner⟩ := exists_of_any heval
  obtain ⟨q, hq, hdifferent⟩ := exists_of_any hinner
  refine ⟨p, hp, ?_⟩
  rintro ⟨q', hq', hsame⟩
  obtain rfl : q = q' := Except.ok.inj (hq.symm.trans hq')
  simp [hsame] at hdifferent

/-- **The compiler inverts the printer on every well-formed path**, whether it came of a
text or not.  If its bare names are trimmed and not empty, and no arithmetic operator
follows a reference that ends like an operator, then its canonical text compiles to the
same path with every limit that is not below the levels of the text, and with no other. -/
theorem compile_canonical_of_wellFormed [LawfulDoubleText] {options : Options} {p : Path}
    (hform : p.WellFormed false) (hfaithful : p.isFaithful = true) :
    (∃ q, compile options p.canonical = .ok q ∧ p.same q = true) ↔
      p.levels ≤ options.maxDepth := by
  have hback := p.readsBack hform 0 ⟨p.canonical.toList, 0⟩ (Nat.zero_le options.maxDepth)
    String.toList_ofList
  simpa only [compile_eq_ok, Nat.zero_add, hfaithful, true_and] using hback

/-- A path that was not compiled: quotes and dots in names, a filter within a reference of
a filter, a sum within a product, and a bare deep scan at the end. -/
theorem compile_canonical_built :
    let inner : Path := .mk .current [.mk [.filter (.literal (.bool true))]] [] ""
    let sum : Filter := .arithmetic .add
      (.reference (.mk .current [] [.mk (.child (.name "n-")) [.mk [.index (-1)]]] ""))
      (.literal (.string "é\"'"))
    let p : Path := .mk .root [.mk [.name "it's", .name "b.c"]]
      [.mk (.descend (some (.name "a.[b")))
        [.mk [.filter (.logical .or (.negation (.existence inner true))
          (.comparison .le (.arithmetic .multiply sum (.literal .null))
            (.reference (.mk .root [.mk [.index 0, .index 7]] [] ""))))]],
        .mk (.descend none) []] ""
    p.WellFormed false ∧ p.isFaithful = true ∧
      ∃ q, compile {} p.canonical = .ok q ∧ p.same q = true := by
  intro inner sum p
  have hform : p.WellFormed false := by
    simp [p, sum, inner, WellFormed, Step.ListWellFormed, Step.WellFormed, Head.Closes,
      Segment.ListWellFormed, Segment.WellFormed, Selector.ListWellFormed, Selector.WellFormed,
      Selector.Uniform, Filter.WellFormed]
  have hfaithful : p.isFaithful = true := by decide +kernel
  have hlevels : p.levels ≤ (128 : Nat) := by decide +kernel
  exact ⟨hform, hfaithful,
    (@compile_canonical_of_wellFormed .standard _ _ hform hfaithful).mpr hlevels⟩

end Path
end PathQuery
