import PathQuery.Path.Scan
import PathQuery.Proofs.Outcome

/-! # Texts that leave the scanner as it was

`walk` is the scanner without the look at the end, so that it can be followed over one
piece of a text after the other (`walk_append`).

A text is `Closed` if the scanner, met outside quotes and escapes, is in the same state
behind it: what the text opens it closes, and it closes nothing else.  A predicate says
which plain characters it may have outside the brackets and parentheses that it opens.
A `Flat` text opens none.  Closed texts are built from flat ones by appending, and by
putting brackets or parentheses around them.
-/

namespace PathQuery
namespace ScanState

/-- The scanner outside quotes and escapes. -/
def within (brackets parens : List Nat) : ScanState := ⟨none, none, brackets, parens⟩

/-- Goes over characters: their marks, and the state behind them. -/
def walk (grouping : Bool) (s : ScanState) (offset : Nat) :
    List Char → Option (List Mark × ScanState)
  | [] => some ([], s)
  | c :: rest =>
    match s.step grouping offset c with
    | .error _ => none
    | .ok (after, plain) =>
      (walk grouping after (offset + c.utf8Size) rest).map fun (marks, last) =>
        (⟨c, offset, plain, after.brackets.length, after.parens.length⟩ :: marks, last)

variable {grouping plain : Bool} {s t u : ScanState} {offset : Nat} {c : Char}
  {text a b : List Char} {marks marks' : List Mark}

theorem walk_cons (hstep : s.step grouping offset c = .ok (t, plain))
    (hwalk : t.walk grouping (offset + c.utf8Size) text = some (marks, u)) :
    s.walk grouping offset (c :: text) =
      some (⟨c, offset, plain, t.brackets.length, t.parens.length⟩ :: marks, u) := by
  simp [walk, hstep, hwalk]

theorem exists_of_walk_cons (h : s.walk grouping offset (c :: text) = some (marks, u)) :
    ∃ t plain tail, s.step grouping offset c = .ok (t, plain) ∧
      t.walk grouping (offset + c.utf8Size) text = some (tail, u) ∧
      marks = ⟨c, offset, plain, t.brackets.length, t.parens.length⟩ :: tail := by
  rw [walk] at h
  split at h
  · simp at h
  · rename_i after plain hstep
    obtain ⟨⟨tail, last⟩, htail, heq⟩ := Option.map_eq_some_iff.mp h
    simp only [Prod.mk.injEq] at heq
    exact ⟨after, plain, tail, hstep, heq.2 ▸ htail, heq.1.symm⟩

theorem walk_append (ha : s.walk grouping offset a = some (marks, t))
    (hb : t.walk grouping (offset + Text.byteSize a) b = some (marks', u)) :
    s.walk grouping offset (a ++ b) = some (marks ++ marks', u) := by
  induction a generalizing s offset marks with
  | nil =>
    obtain ⟨rfl, rfl⟩ : [] = marks ∧ s = t := by simpa [walk] using ha
    simpa using hb
  | cons c rest ih =>
    obtain ⟨after, plain, tail, hstep, htail, rfl⟩ := exists_of_walk_cons ha
    rw [Text.byteSize_cons, ← Nat.add_assoc] at hb
    exact walk_cons hstep (ih htail hb)

/-- The marks carry the characters of the text. -/
theorem map_char_of_walk (h : s.walk grouping offset text = some (marks, t)) :
    marks.map Mark.char = text := by
  induction text generalizing s offset marks with
  | nil =>
    obtain ⟨rfl, -⟩ : [] = marks ∧ s = t := by simpa [walk] using h
    rfl
  | cons c rest ih =>
    obtain ⟨after, plain, tail, -, htail, rfl⟩ := exists_of_walk_cons h
    rw [List.map_cons, ih htail]

theorem length_of_walk (h : s.walk grouping offset text = some (marks, t)) :
    marks.length = text.length := by
  rw [← map_char_of_walk h, List.length_map]

/-- The scanner finds what the walk over the front finds, and goes on from there. -/
theorem run_append (h : s.walk grouping offset a = some (marks, t)) (b : List Char) :
    Scan.run grouping s offset (a ++ b) =
      let tail := Scan.run grouping t (offset + Text.byteSize a) b
      ⟨marks ++ tail.marks, tail.fault⟩ := by
  induction a generalizing s offset marks with
  | nil =>
    obtain ⟨rfl, rfl⟩ : [] = marks ∧ s = t := by simpa [walk] using h
    rfl
  | cons c rest ih =>
    obtain ⟨after, plain, tail, hstep, htail, rfl⟩ := exists_of_walk_cons h
    simp only [List.cons_append, Scan.run, hstep, ih htail, Text.byteSize_cons, Nat.add_assoc]

/-- Behind the whole text, it looks at what is open. -/
theorem run_of_walk (h : s.walk grouping offset text = some (marks, t)) :
    Scan.run grouping s offset text = ⟨marks, t.finish⟩ := by
  have hrun := run_append h []
  simpa [Scan.run] using hrun

/-- A scan without a fault is a walk that leaves nothing open. -/
theorem walk_of_run (h : (Scan.run grouping s offset text).fault = none) :
    ∃ marks t, s.walk grouping offset text = some (marks, t) ∧ t.finish = none := by
  induction text generalizing s offset with
  | nil => exact ⟨[], s, rfl, h⟩
  | cons c rest ih =>
    rw [Scan.run] at h
    split at h
    · simp at h
    · rename_i after plain hstep
      obtain ⟨marks, t, hwalk, hfinish⟩ := ih h
      exact ⟨_, t, walk_cons hstep hwalk, hfinish⟩

/-- Where nothing is left open, the scanner is in its initial state. -/
theorem eq_initial_of_finish (h : s.finish = none) : s = .initial := by
  obtain ⟨quote, escape, brackets, parens⟩ := s
  cases quote with
  | some quote => simp [finish] at h
  | none =>
    cases escape with
    | some offset => simp [finish] at h
    | none =>
      cases hb : brackets.reverse with
      | cons first rest => simp [finish, hb] at h
      | nil =>
        cases hp : parens.reverse with
        | cons first rest => simp [finish, hb, hp] at h
        | nil =>
          obtain rfl := List.reverse_eq_nil_iff.mp hb
          obtain rfl := List.reverse_eq_nil_iff.mp hp
          rfl

/-- What the scanner does with a plain character. -/
theorem stepPlain_cases (h : s.stepPlain grouping offset c = .ok t) :
    (c = '[' ∧ t = { s with brackets := offset :: s.brackets }) ∨
    (c = ']' ∧ ∃ start, s.brackets = start :: t.brackets ∧ t.quote = s.quote ∧
      t.escape = s.escape ∧ t.parens = s.parens) ∨
    (c ≠ '[' ∧ c ≠ ']' ∧ t.quote = s.quote ∧ t.escape = s.escape ∧ t.brackets = s.brackets ∧
      (grouping = false → t.parens = s.parens)) := by
  unfold stepPlain at h
  split at h
  · rename_i hc
    exact Or.inl ⟨hc, (Except.ok.inj h).symm⟩
  · rename_i hopen
    split at h
    · rename_i hc
      split at h
      · simp at h
      · rename_i start outer hbrackets
        obtain rfl := Except.ok.inj h
        exact Or.inr (Or.inl ⟨hc, start, hbrackets, rfl, rfl, rfl⟩)
    · rename_i hclose
      refine Or.inr (Or.inr ⟨hopen, hclose, ?_⟩)
      split at h
      · rename_i hc
        obtain rfl := Except.ok.inj h
        exact ⟨rfl, rfl, rfl, by simp [hc.2]⟩
      · split at h
        · rename_i hc
          split at h
          · simp at h
          · obtain rfl := Except.ok.inj h
            exact ⟨rfl, rfl, rfl, by simp [hc.2]⟩
        · obtain rfl := Except.ok.inj h
          exact ⟨rfl, rfl, rfl, fun _ => rfl⟩

/-- What the scanner does with a character: it drops an escape, begins one, sees to a
quote, or takes the character as a plain one. -/
theorem step_cases (h : s.step grouping offset c = .ok (t, plain)) :
    (plain = false ∧ s.escape.isSome ∧ t = { s with escape := none }) ∨
    (plain = false ∧ s.escape = none ∧ c = '\\' ∧ t = { s with escape := some offset }) ∨
    (plain = false ∧ s.escape = none ∧ c ≠ '\\' ∧ ∃ quote, t = { s with quote := quote }) ∨
    (plain = true ∧ s.escape = none ∧ s.quote = none ∧ c ≠ '\\' ∧
      s.stepPlain grouping offset c = .ok t) := by
  obtain ⟨quote, escape, brackets, parens⟩ := s
  unfold step at h
  split at h
  · simp only [Except.ok.injEq, Prod.mk.injEq] at h
    rename_i hescape
    exact Or.inl ⟨h.2.symm, Option.isSome_of_eq_some hescape, h.1.symm⟩
  · rename_i hescape
    split at h
    · rename_i hc
      simp only [Except.ok.injEq, Prod.mk.injEq] at h
      exact Or.inr (Or.inl ⟨h.2.symm, hescape, hc, h.1.symm⟩)
    · rename_i hc
      split at h
      · rename_i opening start hquote
        simp only [Except.ok.injEq, Prod.mk.injEq] at h
        refine Or.inr (Or.inr (Or.inl ⟨h.2.symm, hescape, hc, ?_⟩))
        rw [← h.1]
        split
        · exact ⟨none, rfl⟩
        · exact ⟨quote, rfl⟩
      · rename_i hquote
        split at h
        · simp only [Except.ok.injEq, Prod.mk.injEq] at h
          exact Or.inr (Or.inr (Or.inl ⟨h.2.symm, hescape, hc, _, h.1.symm⟩))
        · obtain ⟨after, hafter, heq⟩ := map_eq_ok.mp h
          simp only [Prod.mk.injEq] at heq
          exact Or.inr (Or.inr (Or.inr ⟨heq.2.symm, hescape, hquote, hc, heq.1 ▸ hafter⟩))

theorem step_parens (h : s.step false offset c = .ok (t, plain)) : t.parens = s.parens := by
  rcases step_cases h with ⟨-, -, rfl⟩ | ⟨-, -, -, rfl⟩ | ⟨-, -, -, quote, rfl⟩ | ⟨-, -, -, -, h⟩
  · rfl
  · rfl
  · rfl
  · rcases stepPlain_cases h with ⟨-, rfl⟩ | ⟨-, -, -, -, -, hsame⟩ | ⟨-, -, -, -, -, hsame⟩
    · rfl
    · exact hsame
    · exact hsame rfl

/-- A plain bracket opens or closes one, and nothing else does. -/
theorem step_brackets (h : s.step grouping offset c = .ok (t, plain)) :
    (plain = true ∧ c = '[' ∧ t.brackets = offset :: s.brackets) ∨
      (plain = true ∧ c = ']' ∧ ∃ start, s.brackets = start :: t.brackets) ∨
      (¬(plain = true ∧ c = '[') ∧ ¬(plain = true ∧ c = ']') ∧ t.brackets = s.brackets) := by
  rcases step_cases h with ⟨hplain, -, rfl⟩ | ⟨hplain, -, -, rfl⟩ | ⟨hplain, -, -, quote, rfl⟩ |
    ⟨hplain, -, -, -, h⟩
  · exact Or.inr (Or.inr ⟨by simp [hplain], by simp [hplain], rfl⟩)
  · exact Or.inr (Or.inr ⟨by simp [hplain], by simp [hplain], rfl⟩)
  · exact Or.inr (Or.inr ⟨by simp [hplain], by simp [hplain], rfl⟩)
  · rcases stepPlain_cases h with ⟨hc, rfl⟩ | ⟨hc, start, hbrackets, -⟩ |
      ⟨hopen, hclose, -, -, hsame, -⟩
    · exact Or.inl ⟨hplain, hc, rfl⟩
    · exact Or.inr (Or.inl ⟨hplain, hc, start, hbrackets⟩)
    · exact Or.inr (Or.inr ⟨fun hc => hopen hc.2, fun hc => hclose hc.2, hsame⟩)

/-- A backslash escapes the character behind it, and only that. -/
theorem step_escape (hs : s.escape = none) (h : s.step grouping offset c = .ok (t, plain)) :
    t.escape = if c = '\\' then some offset else none := by
  rcases step_cases h with ⟨-, hsome, -⟩ | ⟨-, -, hc, rfl⟩ | ⟨-, -, hc, quote, rfl⟩ |
    ⟨-, -, -, hc, h⟩
  · simp [hs] at hsome
  · rw [if_pos hc]
  · rw [if_neg hc, ← hs]
  · rw [if_neg hc, ← hs]
    rcases stepPlain_cases h with ⟨-, rfl⟩ | ⟨-, -, -, -, hsame, -⟩ | ⟨-, -, -, hsame, -⟩
    · rfl
    · exact hsame
    · exact hsame

theorem step_escaped (hs : s.escape.isSome) (h : s.step grouping offset c = .ok (t, plain)) :
    t.escape = none := by
  rcases step_cases h with ⟨-, -, rfl⟩ | ⟨-, hnone, -⟩ | ⟨-, hnone, -⟩ | ⟨-, hnone, -⟩
  · rfl
  all_goals simp [hnone] at hs

/-- Without `grouping`, no parenthesis is ever opened or closed. -/
theorem parens_of_walk (h : s.walk false offset text = some (marks, t)) :
    ∀ m ∈ marks, m.parens = s.parens.length := by
  induction text generalizing s offset marks with
  | nil =>
    obtain ⟨rfl, -⟩ : [] = marks ∧ s = t := by simpa [walk] using h
    simp
  | cons c rest ih =>
    obtain ⟨after, plain, tail, hstep, htail, rfl⟩ := exists_of_walk_cons h
    have hparens := step_parens hstep
    intro m hm
    rcases List.mem_cons.mp hm with rfl | hm
    · rw [hparens]
    · rw [ih htail m hm, hparens]

end ScanState

/-- A fragment that is walked over from the initial state back to it is scanned without
a fault. -/
theorem Fragment.scan_of_walk {f : Fragment} {grouping : Bool} {marks : List Mark}
    (h : ScanState.initial.walk grouping f.offset f.text = some (marks, .initial)) :
    f.scan grouping = ⟨marks, none⟩ :=
  ScanState.run_of_walk h

/-- A fragment that is scanned without a fault is walked over. -/
theorem Fragment.walk_of_check {f : Fragment} {grouping : Bool}
    (h : (f.scan grouping).check = .ok ()) : ∃ marks,
    ScanState.initial.walk grouping f.offset f.text = some (marks, .initial) ∧
      f.scan grouping = ⟨marks, none⟩ := by
  have hfault : (f.scan grouping).fault = none := by
    unfold Scan.check at h
    split at h
    · simp at h
    · assumption
  obtain ⟨marks, t, hwalk, hfinish⟩ := ScanState.walk_of_run hfault
  obtain rfl := ScanState.eq_initial_of_finish hfinish
  exact ⟨marks, hwalk, Fragment.scan_of_walk hwalk⟩

/-! ## One character -/

/-- A character without a meaning to the scanner; parentheses have one with `grouping`. -/
structure Ordinary (grouping : Bool) (c : Char) : Prop where
  not_backslash : c ≠ '\\'
  not_single : c ≠ '\''
  not_double : c ≠ '"'
  not_opening : c ≠ '['
  not_closing : c ≠ ']'
  not_paren : grouping = true → c ≠ '(' ∧ c ≠ ')'

instance (grouping : Bool) (c : Char) : Decidable (Ordinary grouping c) :=
  decidable_of_iff (c ≠ '\\' ∧ c ≠ '\'' ∧ c ≠ '"' ∧ c ≠ '[' ∧ c ≠ ']' ∧
      (grouping = true → c ≠ '(' ∧ c ≠ ')'))
    ⟨fun ⟨h1, h2, h3, h4, h5, h6⟩ => ⟨h1, h2, h3, h4, h5, h6⟩,
      fun ⟨h1, h2, h3, h4, h5, h6⟩ => ⟨h1, h2, h3, h4, h5, h6⟩⟩

namespace ScanState

variable {grouping : Bool} {brackets parens : List Nat} {offset : Nat} {c : Char}

theorem step_ordinary (h : Ordinary grouping c) :
    (within brackets parens).step grouping offset c = .ok (within brackets parens, true) := by
  have hopen : ¬(c = '(' ∧ grouping = true) := fun hc => (h.not_paren hc.2).1 hc.1
  have hclose : ¬(c = ')' ∧ grouping = true) := fun hc => (h.not_paren hc.2).2 hc.1
  simp [step, within, stepPlain, h.not_backslash, h.not_single, h.not_double, h.not_opening,
    h.not_closing, hopen, hclose, Except.map]

theorem step_opening : (within brackets parens).step grouping offset '[' =
    .ok (within (offset :: brackets) parens, true) := by
  simp [step, within, stepPlain, Except.map]

theorem step_closing {start : Nat} : (within (start :: brackets) parens).step grouping offset ']' =
    .ok (within brackets parens, true) := by
  simp [step, within, stepPlain, Except.map]

theorem step_openParen : (within brackets parens).step true offset '(' =
    .ok (within brackets (offset :: parens), true) := by
  simp [step, within, stepPlain, Except.map]

theorem step_closeParen {start : Nat} : (within brackets (start :: parens)).step true offset ')' =
    .ok (within brackets parens, true) := by
  simp [step, within, stepPlain, Except.map]

end ScanState

/-! ## Flat texts -/

/-- The scanner is never deeper inside the text than around it, and its plain
characters satisfy `P`. -/
def Flat (grouping : Bool) (P : Char → Prop) (text : List Char) : Prop :=
  ∀ (brackets parens : List Nat) (offset : Nat), ∃ marks,
    (ScanState.within brackets parens).walk grouping offset text =
      some (marks, .within brackets parens) ∧
    ∀ m ∈ marks, m.brackets = brackets.length ∧ m.parens = parens.length ∧
      (m.plain = true → P m.char)

/-- The scanner is in the same state behind the text as before it, never further out in
between, and plain characters at the level around the text satisfy `P`. -/
def Closed (grouping : Bool) (P : Char → Prop) (text : List Char) : Prop :=
  ∀ (brackets parens : List Nat) (offset : Nat), ∃ marks,
    (ScanState.within brackets parens).walk grouping offset text =
      some (marks, .within brackets parens) ∧
    ∀ m ∈ marks, brackets.length ≤ m.brackets ∧ parens.length ≤ m.parens ∧
      (m.plain = true → m.brackets = brackets.length → m.parens = parens.length → P m.char)

variable {grouping : Bool} {P Q : Char → Prop} {text a b : List Char} {c : Char}

theorem Flat.nil : Flat grouping P [] := fun _ _ _ => ⟨[], rfl, by simp⟩

theorem Flat.append (ha : Flat grouping P a) (hb : Flat grouping P b) :
    Flat grouping P (a ++ b) := by
  intro brackets parens offset
  obtain ⟨marks, hwalk, hmarks⟩ := ha brackets parens offset
  obtain ⟨marks', hwalk', hmarks'⟩ := hb brackets parens (offset + Text.byteSize a)
  exact ⟨marks ++ marks', ScanState.walk_append hwalk hwalk',
    fun m hm => (List.mem_append.mp hm).elim (hmarks m) (hmarks' m)⟩

theorem Flat.flatMap {α : Type} {f : α → List Char} {list : List α}
    (h : ∀ x ∈ list, Flat grouping P (f x)) : Flat grouping P (list.flatMap f) := by
  induction list with
  | nil => exact Flat.nil
  | cons x rest ih =>
    rw [List.flatMap_cons]
    exact (h x (List.mem_cons_self ..)).append (ih fun y hy => h y (List.mem_cons_of_mem _ hy))

theorem Flat.char (hc : Ordinary grouping c) (hP : P c) : Flat grouping P [c] := by
  intro brackets parens offset
  refine ⟨_, ScanState.walk_cons (ScanState.step_ordinary hc) rfl, ?_⟩
  rintro m hm
  rw [List.mem_singleton.mp hm]
  exact ⟨rfl, rfl, fun _ => hP⟩

theorem Flat.chars (h : ∀ c ∈ text, Ordinary grouping c ∧ P c) : Flat grouping P text := by
  induction text with
  | nil => exact Flat.nil
  | cons c rest ih =>
    have hc := h c (List.mem_cons_self ..)
    exact (Flat.char hc.1 hc.2).append (ih fun d hd => h d (List.mem_cons_of_mem _ hd))

/-- A character behind a backslash means nothing to the scanner. -/
theorem Flat.escaped : Flat grouping P ['\\', c] := by
  intro brackets parens offset
  have hfirst : (ScanState.within brackets parens).step grouping offset '\\' =
      .ok (⟨none, some offset, brackets, parens⟩, false) := rfl
  have hsecond : ScanState.step grouping ⟨none, some offset, brackets, parens⟩
      (offset + '\\'.utf8Size) c = .ok (.within brackets parens, false) := rfl
  refine ⟨_, ScanState.walk_cons hfirst (ScanState.walk_cons hsecond rfl), ?_⟩
  intro m hm
  rcases List.mem_cons.mp hm with rfl | hm
  · exact ⟨rfl, rfl, by simp⟩
  · rw [List.mem_singleton.mp hm]
    exact ⟨rfl, rfl, by simp⟩

/-! ## Closed texts -/

theorem Flat.closed (h : Flat grouping P text) : Closed grouping P text := by
  intro brackets parens offset
  obtain ⟨marks, hwalk, hmarks⟩ := h brackets parens offset
  refine ⟨marks, hwalk, fun m hm => ?_⟩
  obtain ⟨hb, hp, hP⟩ := hmarks m hm
  exact ⟨Nat.le_of_eq hb.symm, Nat.le_of_eq hp.symm, fun hplain _ _ => hP hplain⟩

theorem Closed.append (ha : Closed grouping P a) (hb : Closed grouping P b) :
    Closed grouping P (a ++ b) := by
  intro brackets parens offset
  obtain ⟨marks, hwalk, hmarks⟩ := ha brackets parens offset
  obtain ⟨marks', hwalk', hmarks'⟩ := hb brackets parens (offset + Text.byteSize a)
  exact ⟨marks ++ marks', ScanState.walk_append hwalk hwalk',
    fun m hm => (List.mem_append.mp hm).elim (hmarks m) (hmarks' m)⟩

theorem Closed.cons (hc : Ordinary grouping c) (hP : P c) (h : Closed grouping P text) :
    Closed grouping P (c :: text) :=
  (Flat.char hc hP).closed.append h

theorem Closed.flatMap {α : Type} {f : α → List Char} {list : List α}
    (h : ∀ x ∈ list, Closed grouping P (f x)) : Closed grouping P (list.flatMap f) := by
  induction list with
  | nil => exact Flat.nil.closed
  | cons x rest ih =>
    rw [List.flatMap_cons]
    exact (h x (List.mem_cons_self ..)).append (ih fun y hy => h y (List.mem_cons_of_mem _ hy))

/-- The marks of a closed text that is looked at on its own. -/
theorem Closed.exists_marks (h : Closed grouping P text) (offset : Nat) : ∃ marks,
    ScanState.initial.walk grouping offset text = some (marks, .initial) ∧
      ∀ m ∈ marks, m.isTop = true → P m.char := by
  obtain ⟨marks, hwalk, hmarks⟩ := h [] [] offset
  refine ⟨marks, hwalk, fun m hm htop => ?_⟩
  simp only [Mark.isTop, Bool.and_eq_true, beq_iff_eq] at htop
  exact (hmarks m hm).2.2 htop.1.1 htop.1.2 htop.2

/-- The first character of a closed text, if it means nothing to the scanner. -/
theorem Closed.of_head (h : Closed grouping P (c :: text)) (hc : Ordinary grouping c) : P c := by
  obtain ⟨marks, hwalk, hmarks⟩ := h [] [] 0
  obtain ⟨t, plain, tail, hstep, -, rfl⟩ := ScanState.exists_of_walk_cons hwalk
  rw [ScanState.step_ordinary hc] at hstep
  simp only [Except.ok.injEq, Prod.mk.injEq] at hstep
  obtain ⟨rfl, rfl⟩ := hstep
  exact (hmarks _ (List.mem_cons_self ..)).2.2 rfl rfl rfl

/-- The marks of a closed text in brackets: those of the two brackets, and between them
marks one level deeper. -/
theorem Closed.walk_bracketed (h : Closed grouping Q text) (brackets parens : List Nat)
    (offset : Nat) : ∃ inner,
      (ScanState.within brackets parens).walk grouping offset ('[' :: (text ++ [']'])) =
        some (⟨'[', offset, true, brackets.length + 1, parens.length⟩ :: (inner ++
          [⟨']', offset + 1 + Text.byteSize text, true, brackets.length, parens.length⟩]),
          .within brackets parens) ∧
      inner.map Mark.char = text ∧
      ∀ m ∈ inner, brackets.length < m.brackets ∧ parens.length ≤ m.parens := by
  obtain ⟨inner, hwalk, hinner⟩ := h (offset :: brackets) parens (offset + 1)
  refine ⟨inner, ?_, ScanState.map_char_of_walk hwalk, fun m hm =>
    ⟨(hinner m hm).1, (hinner m hm).2.1⟩⟩
  exact ScanState.walk_cons ScanState.step_opening
    (ScanState.walk_append hwalk (ScanState.walk_cons ScanState.step_closing rfl))

/-- The marks of a closed text in parentheses. -/
theorem Closed.walk_grouped (h : Closed true Q text) (brackets parens : List Nat)
    (offset : Nat) : ∃ inner,
      (ScanState.within brackets parens).walk true offset ('(' :: (text ++ [')'])) =
        some (⟨'(', offset, true, brackets.length, parens.length + 1⟩ :: (inner ++
          [⟨')', offset + 1 + Text.byteSize text, true, brackets.length, parens.length⟩]),
          .within brackets parens) ∧
      inner.map Mark.char = text ∧
      ∀ m ∈ inner, brackets.length ≤ m.brackets ∧ parens.length < m.parens := by
  obtain ⟨inner, hwalk, hinner⟩ := h brackets (offset :: parens) (offset + 1)
  refine ⟨inner, ?_, ScanState.map_char_of_walk hwalk, fun m hm =>
    ⟨(hinner m hm).1, (hinner m hm).2.1⟩⟩
  exact ScanState.walk_cons ScanState.step_openParen
    (ScanState.walk_append hwalk (ScanState.walk_cons ScanState.step_closeParen rfl))

theorem Closed.bracketed (h : Closed grouping Q text) (hP : P ']') :
    Closed grouping P ('[' :: (text ++ [']'])) := by
  intro brackets parens offset
  obtain ⟨inner, hwalk, -, hinner⟩ := h.walk_bracketed brackets parens offset
  refine ⟨_, hwalk, fun m hm => ?_⟩
  rcases List.mem_cons.mp hm with rfl | hm
  · exact ⟨Nat.le_succ _, Nat.le_refl _, fun _ hlevel => absurd hlevel (Nat.succ_ne_self _)⟩
  · rcases List.mem_append.mp hm with hm | hm
    · obtain ⟨hb, hp⟩ := hinner m hm
      exact ⟨Nat.le_of_lt hb, hp, fun _ hlevel => absurd hlevel (Nat.ne_of_gt hb)⟩
    · rw [List.mem_singleton.mp hm]
      exact ⟨Nat.le_refl _, Nat.le_refl _, fun _ _ _ => hP⟩

theorem Closed.grouped (h : Closed true Q text) (hP : P ')') :
    Closed true P ('(' :: (text ++ [')'])) := by
  intro brackets parens offset
  obtain ⟨inner, hwalk, -, hinner⟩ := h.walk_grouped brackets parens offset
  refine ⟨_, hwalk, fun m hm => ?_⟩
  rcases List.mem_cons.mp hm with rfl | hm
  · exact ⟨Nat.le_refl _, Nat.le_succ _, fun _ _ hlevel => absurd hlevel (Nat.succ_ne_self _)⟩
  · rcases List.mem_append.mp hm with hm | hm
    · obtain ⟨hb, hp⟩ := hinner m hm
      exact ⟨hb, Nat.le_of_lt hp, fun _ _ hlevel => absurd hlevel (Nat.ne_of_gt hp)⟩
    · rw [List.mem_singleton.mp hm]
      exact ⟨Nat.le_refl _, Nat.le_refl _, fun _ _ _ => hP⟩

end PathQuery
