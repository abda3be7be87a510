import PathQuery.Proofs.Path.Placement

/-! # Balanced fragments

A fragment is balanced if its own scan comes to the end with nothing open.  At a plain
character outside all brackets and parentheses that closes nothing, a balanced text falls
into two balanced ones (`ScanState.exists_of_walk_top`).  What stands between a bracket and
the one that closes it never goes further out than where it started, and is balanced as
well (`ScanState.walk_body`).
-/

namespace PathQuery

/-- The scan of the fragment on its own comes to the end, and no quote, escape, bracket or
parenthesis is open there. -/
def Fragment.Balanced (f : Fragment) (grouping : Bool) : Prop :=
  (f.scan grouping).fault = none

/-- The fragment is balanced, and its scan has no mark at which it would be cut. -/
structure Fragment.IsPiece (f : Fragment) (grouping : Bool) (cuts : Mark → Bool) : Prop where
  balanced : f.Balanced grouping
  uncut : ∀ m ∈ (f.scan grouping).marks, cuts m = false

namespace Fragment

variable {f : Fragment} {grouping : Bool} {cuts : Mark → Bool} {marks : List Mark}

/-- A balanced fragment is one that leaves the scanner as it was at the start. -/
theorem balanced_iff_walk : f.Balanced grouping ↔
    ∃ marks, ScanState.initial.walk grouping f.offset f.text = some (marks, .initial) := by
  constructor
  · intro h
    obtain ⟨marks, t, hwalk, hfinish⟩ := ScanState.walk_of_run h
    exact ⟨marks, ScanState.eq_initial_of_finish hfinish ▸ hwalk⟩
  · rintro ⟨marks, hwalk⟩
    exact congrArg Scan.fault (scan_of_walk hwalk)

theorem IsPiece.of_walk
    (h : ScanState.initial.walk grouping f.offset f.text = some (marks, .initial))
    (huncut : ∀ m ∈ marks, cuts m = false) : f.IsPiece grouping cuts where
  balanced := balanced_iff_walk.mpr ⟨marks, h⟩
  uncut m hm := huncut m (by rwa [scan_of_walk h] at hm)

end Fragment

namespace ScanState

variable {grouping plain : Bool} {s t u : ScanState} {offset : Nat} {c : Char}
  {text a b : List Char} {m : Mark} {marks front back : List Mark}

/-! ## Walks in two parts -/

/-- A walk over a text is one over its front and then one over its back. -/
theorem exists_of_walk_append (h : s.walk grouping offset (a ++ b) = some (marks, u)) :
    ∃ front t back, s.walk grouping offset a = some (front, t) ∧
      t.walk grouping (offset + Text.byteSize a) b = some (back, u) ∧ marks = front ++ back := by
  induction a generalizing s offset marks with
  | nil => exact ⟨[], s, marks, rfl, by simpa using h, rfl⟩
  | cons c rest ih =>
    obtain ⟨after, plain, tail, hstep, htail, rfl⟩ := exists_of_walk_cons h
    obtain ⟨front, t, back, hfront, hback, rfl⟩ := ih htail
    refine ⟨_, t, back, walk_cons hstep hfront, ?_, rfl⟩
    rwa [Text.byteSize_cons, ← Nat.add_assoc]

/-- The marks of a walk say where it can be taken apart. -/
theorem exists_of_walk_marks (h : s.walk grouping offset text = some (front ++ back, u)) :
    ∃ t, s.walk grouping offset (front.map Mark.char) = some (front, t) ∧
      t.walk grouping (offset + Text.byteSize (front.map Mark.char)) (back.map Mark.char) =
        some (back, u) := by
  rw [← map_char_of_walk h, List.map_append] at h
  obtain ⟨front', t, back', hfront, hback, hmarks⟩ := exists_of_walk_append h
  have hlength : front.length = front'.length := by rw [length_of_walk hfront, List.length_map]
  obtain ⟨rfl, rfl⟩ := List.append_inj hmarks hlength
  exact ⟨t, hfront, hback⟩

/-- The first mark of a walk says what the scanner does with the first character. -/
theorem exists_of_walk_mark (h : s.walk grouping offset text = some (m :: marks, u)) :
    ∃ t, s.step grouping offset m.char = .ok (t, m.plain) ∧ m.offset = offset ∧
      m.brackets = t.brackets.length ∧ m.parens = t.parens.length ∧
      t.walk grouping (offset + m.char.utf8Size) (marks.map Mark.char) = some (marks, u) := by
  rw [← map_char_of_walk h, List.map_cons] at h
  obtain ⟨t, plain, tail, hstep, htail, heq⟩ := exists_of_walk_cons h
  obtain ⟨hm, rfl⟩ := List.cons.inj heq
  exact ⟨t, by rw [hm]; exact hstep, by rw [hm], by rw [hm], by rw [hm], htail⟩

/-! ## Plain characters -/

/-- Before and behind a plain character, the scanner is outside quotes and escapes. -/
theorem within_of_plain (h : s.step grouping offset c = .ok (t, true)) :
    s = within s.brackets s.parens ∧ t = within t.brackets t.parens := by
  obtain ⟨hescape, hquote, hstep⟩ : s.escape = none ∧ s.quote = none ∧
      s.stepPlain grouping offset c = .ok t := by
    rcases step_cases h with ⟨hfalse, -⟩ | ⟨hfalse, -⟩ | ⟨hfalse, -⟩ |
      ⟨-, hescape, hquote, -, hstep⟩
    · cases hfalse
    · cases hfalse
    · cases hfalse
    · exact ⟨hescape, hquote, hstep⟩
  obtain ⟨hquote', hescape'⟩ : t.quote = s.quote ∧ t.escape = s.escape := by
    rcases stepPlain_cases hstep with ⟨-, rfl⟩ | ⟨-, -, -, hq, he, -⟩ | ⟨-, -, hq, he, -⟩
    · exact ⟨rfl, rfl⟩
    · exact ⟨hq, he⟩
    · exact ⟨hq, he⟩
  obtain ⟨quote, escape, brackets, parens⟩ := s
  obtain ⟨quote', escape', brackets', parens'⟩ := t
  obtain ⟨rfl, rfl⟩ : quote = none ∧ escape = none := ⟨hquote, hescape⟩
  obtain ⟨rfl, rfl⟩ : quote' = none ∧ escape' = none := ⟨hquote', hescape'⟩
  exact ⟨rfl, rfl⟩

/-- Only a closing parenthesis closes one. -/
theorem parens_of_step (h : s.step grouping offset c = .ok (t, plain)) (ht : t.parens = [])
    (hc : c ≠ ')') : s.parens = [] := by
  rcases step_cases h with ⟨-, -, rfl⟩ | ⟨-, -, -, rfl⟩ | ⟨-, -, -, quote, rfl⟩ |
    ⟨-, -, -, -, hstep⟩
  · exact ht
  · exact ht
  · exact ht
  · unfold stepPlain at hstep
    split at hstep
    · obtain rfl := Except.ok.inj hstep
      exact ht
    split at hstep
    · split at hstep
      · cases hstep
      · obtain rfl := Except.ok.inj hstep
        exact ht
    split at hstep
    · obtain rfl := Except.ok.inj hstep
      cases ht
    · rw [if_neg fun hclose => hc hclose.1] at hstep
      exact Except.ok.inj hstep ▸ ht

/-- Only a closing bracket closes one. -/
theorem brackets_of_step (h : s.step grouping offset c = .ok (t, plain)) (ht : t.brackets = [])
    (hc : c ≠ ']') : s.brackets = [] := by
  rcases step_brackets h with ⟨-, -, hopen⟩ | ⟨-, hclose, -⟩ | ⟨-, -, hsame⟩
  · simp [ht] at hopen
  · exact absurd hclose hc
  · rw [← hsame, ht]

/-- **Around a plain character outside everything, nothing is open.**  Before a closing bracket
or parenthesis, what it closes still is. -/
theorem exists_of_walk_top (h : s.walk grouping offset text = some (front ++ m :: back, u))
    (htop : m.isTop = true) :
    ∃ t, s.walk grouping offset (front.map Mark.char) = some (front, t) ∧
      (m.char ≠ ']' → m.char ≠ ')' → t = .initial) ∧
      initial.walk grouping (m.offset + m.char.utf8Size) (back.map Mark.char) =
        some (back, u) := by
  obtain ⟨t, hfront, hback⟩ := exists_of_walk_marks h
  obtain ⟨after, hstep, hoffset, hbrackets, hparens, htail⟩ := exists_of_walk_mark hback
  simp only [Mark.isTop, Bool.and_eq_true, beq_iff_eq] at htop
  rw [htop.1.1] at hstep
  have hnone : after.brackets = [] := List.length_eq_zero_iff.mp (hbrackets.symm.trans htop.1.2)
  have hnone' : after.parens = [] := List.length_eq_zero_iff.mp (hparens.symm.trans htop.2)
  obtain ⟨ht, hafter⟩ := within_of_plain hstep
  rw [hnone, hnone'] at hafter
  obtain rfl : after = .initial := hafter
  refine ⟨t, hfront, fun hclose hclose' => ?_, ?_⟩
  · rw [ht, brackets_of_step hstep hnone hclose, parens_of_step hstep hnone' hclose']
    rfl
  · rwa [hoffset]

/-- A character without a meaning at the front of a walk. -/
theorem walk_of_ordinary (hc : Ordinary grouping c)
    (h : initial.walk grouping offset (c :: text) = some (m :: marks, u)) :
    m = ⟨c, offset, true, 0, 0⟩ ∧
      initial.walk grouping (offset + c.utf8Size) text = some (marks, u) := by
  obtain ⟨after, plain, tail, hstep, htail, heq⟩ := exists_of_walk_cons h
  have hsame : initial.step grouping offset c = .ok (initial, true) := step_ordinary hc
  obtain ⟨rfl, rfl⟩ := Prod.mk.inj (Except.ok.inj (hstep.symm.trans hsame))
  obtain ⟨rfl, rfl⟩ := List.cons.inj heq
  exact ⟨rfl, htail⟩

/-! ## What stands between two brackets -/

/-- The scanner finds a fault in a closing bracket or parenthesis that closes nothing. -/
theorem step_eq_error {e : Fault} (h : s.step grouping offset c = .error e) :
    s.escape = none ∧ s.quote = none ∧
      (c = ']' ∧ s.brackets = [] ∨ c = ')' ∧ grouping = true ∧ s.parens = []) := by
  unfold step at h
  split at h
  · cases h
  rename_i hescape
  split at h
  · cases h
  split at h
  · cases h
  rename_i hquote
  split at h
  · cases h
  refine ⟨hescape, hquote, ?_⟩
  have hplain := map_eq_error.mp h
  unfold stepPlain at hplain
  split at hplain
  · cases hplain
  split at hplain
  · split at hplain
    · exact Or.inl ⟨by assumption, by assumption⟩
    · cases hplain
  split at hplain
  · cases hplain
  split at hplain
  · rename_i hclose
    split at hplain
    · exact Or.inr ⟨hclose.1, hclose.2, by assumption⟩
    · cases hplain
  · cases hplain

variable {brackets parens : List Nat} {s' t' : ScanState}

/-- Where the scanner does not go further out than where it started, it does the same outside
everything. -/
theorem Placed.lower_step (h : Placed grouping brackets parens s s')
    (hstep : s'.step grouping offset c = .ok (t', plain))
    (hbrackets : brackets.length ≤ t'.brackets.length)
    (hparens : parens.length ≤ t'.parens.length) (offset' : Nat) :
    ∃ t, s.step grouping offset' c = .ok (t, plain) ∧ Placed grouping brackets parens t t' := by
  cases hs : s.step grouping offset' c with
  | ok result =>
    obtain ⟨t, plain'⟩ := result
    obtain ⟨t'', hstep', hplaced⟩ := h.step id hs offset
    obtain ⟨rfl, rfl⟩ := Prod.mk.inj (Except.ok.inj (hstep.symm.trans hstep'))
    exact ⟨t, rfl, hplaced⟩
  | error e =>
    -- outside everything the character closes nothing, so inside it closes what is around
    obtain ⟨hescape, hquote, hclose⟩ := step_eq_error hs
    obtain ⟨quote', escape', brackets', parens'⟩ := s'
    obtain rfl : quote' = none := by simpa [hquote] using h.quote_eq
    obtain rfl : escape' = none := by simpa [hescape] using h.escape_eq
    rcases hclose with ⟨rfl, hnone⟩ | ⟨rfl, rfl, hnone⟩
    · obtain rfl : brackets' = brackets := (hnone ▸ h.brackets_eq).eq_below
      cases brackets' with
      | nil => simp [ScanState.step, ScanState.stepPlain, Except.map] at hstep
      | cons start outer =>
        obtain ⟨rfl, -⟩ := Prod.mk.inj (Except.ok.inj (hstep.symm.trans step_closing))
        exact absurd hbrackets (Nat.not_succ_le_self _)
    · obtain rfl : parens' = parens := (hnone ▸ h.parens_eq).eq_below
      cases parens' with
      | nil => simp [ScanState.step, ScanState.stepPlain, Except.map] at hstep
      | cons start outer =>
        obtain ⟨rfl, -⟩ := Prod.mk.inj (Except.ok.inj (hstep.symm.trans step_closeParen))
        exact absurd hparens (Nat.not_succ_le_self _)

/-- **A text that never goes further out than where it started can be walked over outside
everything.** -/
theorem Placed.lower (h : Placed grouping brackets parens s s')
    (hwalk : s'.walk grouping offset text = some (marks, t'))
    (hlevel : ∀ m ∈ marks, brackets.length ≤ m.brackets ∧ parens.length ≤ m.parens)
    (offset' : Nat) : ∃ marks' t, s.walk grouping offset' text = some (marks', t) ∧
      Placed grouping brackets parens t t' := by
  induction text generalizing s s' offset offset' marks with
  | nil =>
    obtain ⟨-, rfl⟩ : [] = marks ∧ s' = t' := by simpa [ScanState.walk] using hwalk
    exact ⟨[], s, rfl, h⟩
  | cons c rest ih =>
    obtain ⟨after', plain, tail, hstep, htail, rfl⟩ := exists_of_walk_cons hwalk
    rw [List.forall_mem_cons] at hlevel
    obtain ⟨after, hstep', hafter⟩ := h.lower_step hstep hlevel.1.1 hlevel.1.2 offset'
    obtain ⟨marks', t, hwalk', hlast⟩ := ih hafter htail hlevel.2 (offset' + c.utf8Size)
    exact ⟨_, t, walk_cons hstep' hwalk', hlast⟩

/-- Without `grouping`, as many parentheses are open behind a text as before it: those. -/
theorem walk_parens (h : s.walk false offset text = some (marks, t)) : t.parens = s.parens := by
  induction text generalizing s offset marks with
  | nil =>
    obtain ⟨-, rfl⟩ : [] = marks ∧ s = t := by simpa [walk] using h
    rfl
  | cons c rest ih =>
    obtain ⟨after, plain, tail, hstep, htail, -⟩ := exists_of_walk_cons h
    rw [ih htail, step_parens hstep]

/-- The bracket stays open as long as the scanner is inside it. -/
theorem brackets_ne_nil_of_walk {start : Nat}
    (h : (within [start] []).walk false offset text = some (marks, t))
    (hlevel : ∀ m ∈ marks, 0 < m.brackets) : t.brackets ≠ [] := by
  obtain ⟨-, inner, -, hplaced⟩ := placed_within.lower h
    (fun m hm => ⟨hlevel m hm, Nat.zero_le _⟩) offset
  have hlength := hplaced.brackets_eq.length_eq
  rintro hnil
  simp [hnil] at hlength

/-- **What stands between a bracket and the one that closes it is balanced.** -/
theorem walk_body {start close : Nat}
    (hbody : (within [start] []).walk false offset text = some (marks, t))
    (hlevel : ∀ m ∈ marks, 0 < m.brackets)
    (hclose : t.step false close ']' = .ok (u, true)) (hu : u.brackets = []) :
    ∃ marks', initial.walk false offset text = some (marks', .initial) := by
  obtain ⟨marks', inner, hwalk, hplaced⟩ := placed_within.lower hbody
    (fun m hm => ⟨hlevel m hm, Nat.zero_le _⟩) offset
  obtain ⟨opening, hopen⟩ : ∃ opening, t.brackets = [opening] := by
    rcases step_brackets hclose with ⟨-, hc, -⟩ | ⟨-, -, opening, hopen⟩ | ⟨-, hnot, -⟩
    · cases hc
    · exact ⟨opening, hu ▸ hopen⟩
    · exact absurd ⟨rfl, rfl⟩ hnot
  have hlength := hplaced.brackets_eq.length_eq
  have hquote := hplaced.quote_eq
  have hescape := hplaced.escape_eq
  have hparens : inner.parens = [] := walk_parens hwalk
  rw [hopen] at hlength
  rw [(within_of_plain hclose).1] at hquote hescape
  obtain ⟨quote, escape, brackets, parens⟩ := inner
  obtain rfl : quote = none := by simpa [within] using hquote.symm
  obtain rfl : escape = none := by simpa [within] using hescape.symm
  obtain rfl : brackets = [] := List.length_eq_zero_iff.mp (Nat.succ.inj hlength).symm
  obtain rfl : parens = [] := hparens
  exact ⟨marks', hwalk⟩

end ScanState

end PathQuery
