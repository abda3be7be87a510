import PathQuery.Proofs.Path.Inversion
import PathQuery.Proofs.Path.PrintedEnds
import PathQuery.Proofs.Path.QuotedNames

/-! # Reading back constants, and selectors other than filters

The compiler reads a constant, an index, a quoted name and a slice back from their
canonical texts, and so it does a segment of them (`Compiler.segment_indexes`,
`Compiler.segment_names`, `Compiler.segment_slice`).
-/

namespace PathQuery

/-! ## Integers -/

theorem digit_or_minus_of_mem_integerChars {n : Int} {c : Char} (h : c ∈ Text.integerChars n) :
    c.isDigit = true ∨ c = '-' := by
  unfold Text.integerChars at h
  split at h
  · rcases List.mem_cons.mp h with rfl | h
    · exact Or.inr rfl
    · exact Or.inl (Text.isDigit_of_mem_toDigits h)
  · exact Or.inl (Text.isDigit_of_mem_toDigits h)

theorem integerChars_ne_nil (n : Int) : Text.integerChars n ≠ [] := by
  unfold Text.integerChars
  split
  · exact List.cons_ne_nil _ _
  · exact Nat.toDigits_ne_nil

theorem not_isBlank_integerChars {n : Int} {c : Char} (h : c ∈ Text.integerChars n) :
    Text.isBlank c = false := by
  rcases digit_or_minus_of_mem_integerChars h with hc | rfl
  · exact isBlank_of_isDigit hc
  · decide

theorem trimmed_integerChars (n : Int) : Text.Trimmed (Text.integerChars n) :=
  Text.trimmed_of_forall fun _ => not_isBlank_integerChars

theorem readInteger?_integerChars (n : Int) :
    Text.readInteger? (Text.integerChars n) = some n := by
  unfold Text.integerChars
  split
  · rename_i hneg
    have hvalue : -(n.natAbs : Int) = n := by omega
    rw [Text.readInteger?, Text.readNat?_toDigits]
    exact congrArg some hvalue
  · rename_i hpos
    unfold Text.readInteger?
    split
    · rename_i digits heq
      have hminus : '-' ∈ Nat.toDigits 10 n.natAbs := heq ▸ List.mem_cons_self ..
      exact absurd (Text.isDigit_of_mem_toDigits hminus) (by decide)
    · rename_i digits heq
      have hplus : '+' ∈ Nat.toDigits 10 n.natAbs := heq ▸ List.mem_cons_self ..
      exact absurd (Text.isDigit_of_mem_toDigits hplus) (by decide)
    · have hvalue : (n.natAbs : Int) = n := by omega
      rw [Text.readNat?_toDigits]
      exact congrArg some hvalue

/-- An integer of 64 bits is read back from its text. -/
theorem readInt64?_integerChars (n : Int64) :
    Text.readInt64? (Text.integerChars n.toInt) = some n := by
  have hlow : Int64.minValue.toInt ≤ n.toInt := Int64.le_toInt n
  have hhigh : n.toInt ≤ Int64.maxValue.toInt := Int.lt_add_one_iff.mp (Int64.toInt_lt n)
  rw [Text.readInt64?, readInteger?_integerChars, Option.bind_eq_bind, Option.bind_some,
    if_pos ⟨hlow, hhigh⟩, Int64.ofInt_toInt]

theorem isIndexText_integerChars (n : Int) :
    Compiler.isIndexText (Text.integerChars n) = true := by
  have hread := @Numeral.readMinus_chars _ (Number.proper_integerNumeral n)
  rw [Number.chars_integerNumeral] at hread
  have hall : ∀ c ∈ Nat.toDigits 10 n.natAbs, Text.isDecimalDigit c = true :=
    fun c hc => Text.isDecimalDigit_of_isDigit (Text.isDigit_of_mem_toDigits hc)
  unfold Compiler.isIndexText
  simp [hread, Number.integerNumeral, Numeral.unsignedChars, Numeral.fractionChars,
    Numeral.exponentChars, Nat.toDigits_ne_nil]
  exact hall

/-! ## Constants -/

/-- The text has the form of a number, in ASCII digits, and this is the number that it writes. -/
def Number.WrittenAs (x : Number) (text : List Char) : Prop :=
  ∃ n : Numeral, n.Spells text ∧ n.isAscii = true ∧ Number.ofNumeral? n = some x

namespace Compiler

variable {f part inner : Fragment} {limit depth : Nat}

/-- **The constants that are numbers** are the texts that write one. -/
theorem literal_number_iff {x : Number} :
    literal f = .ok (.number x) ↔ x.WrittenAs f.text := by
  constructor
  · intro h
    rcases literal_cases h with ⟨s, -, hl⟩ | ⟨-, hl⟩ | ⟨-, hl⟩ | ⟨-, hl⟩ | ⟨n, y, hread, hy, hl⟩
    · cases hl
    · cases hl
    · cases hl
    · cases hl
    · obtain rfl := Literal.number.inj hl
      obtain ⟨hascii, hvalue⟩ := number_eq_ok.mp hy
      exact ⟨n, Numeral.spells_of_ofText? hread, hascii, hvalue⟩
  · rintro ⟨n, hspells, hascii, hvalue⟩
    obtain ⟨c, hhead, hc⟩ := hspells.head hascii
    have hword : ∀ d ∈ ['\'', '"', 't', 'f', 'n'], f.text.head? ≠ some d := by
      intro d hd h
      obtain rfl : d = c := Option.some.inj (h.symm.trans hhead)
      rcases hc with rfl | hc
      · exact absurd hd (by decide)
      · simp only [List.mem_cons, List.not_mem_nil, or_false] at hd
        rcases hd with rfl | rfl | rfl | rfl | rfl <;> exact absurd hc (by decide)
    have hnot : ∀ d rest, d ∈ ['\'', '"', 't', 'f', 'n'] → f.text ≠ d :: rest := fun d rest hd h =>
      hword d hd (by rw [h]; rfl)
    have htrue : f.text ≠ "true".toList := hnot 't' _ (by decide)
    have hfalse : f.text ≠ "false".toList := hnot 'f' _ (by decide)
    have hnull : f.text ≠ "null".toList := hnot 'n' _ (by decide)
    have hquote : ¬(f.text.head? = some '\'' ∨ f.text.head? = some '"') := by
      rintro (hq | hq)
      · exact hword _ (by decide) hq
      · exact hword _ (by decide) hq
    have hnumber : number n f = .ok x := number_eq_ok.mpr ⟨hascii, hvalue⟩
    rw [literal, if_neg hquote, if_neg htrue, if_neg hfalse, if_neg hnull,
      hspells.ofText?_eq hascii]
    simp [hnumber, Except.map]

/-- **A constant is read back from its text.** -/
theorem literal_chars [LawfulDoubleText] {l : Literal} (h : f.text = l.chars) :
    literal f = .ok l := by
  cases l with
  | null => simp [literal, h, Literal.chars]
  | bool b => cases b <;> simp [literal, h, Literal.chars]
  | string s =>
    have hdecode : Quoted.decode f = .ok s := Quoted.decode_encode h
    simp [literal, h, Literal.chars, Quoted.encode, hdecode, Except.map]
  | number n =>
    rw [literal_number_iff, h]
    exact n.isSpelled_chars

/-! ## Parts of a segment -/

theorem index_chars {i : Int64} (h : part.text = Text.integerChars i.toInt) :
    index part = .ok (.index i) := by
  have htrim := (trimmed_integerChars i.toInt).text_trim h
  rw [index, htrim, readInt64?_integerChars]

theorem bound_chars {which : SliceBound} {b : Option Int64}
    (h : part.text = Slice.boundChars b) : bound which part = .ok b := by
  cases b with
  | none =>
    have hempty : part.trim.text = [] := by
      rw [Fragment.trim, h]
      rfl
    rw [bound, hempty]
    rfl
  | some n =>
    have htrim := (trimmed_integerChars n.toInt).text_trim h
    have hne : (Text.integerChars n.toInt).isEmpty = false := by
      simpa using integerChars_ne_nil n.toInt
    rw [bound, htrim, hne, if_neg Bool.false_ne_true, readInt64?_integerChars]

/-! ## Segments -/

theorem listChars_eq [DoubleText] (s : Selector) (rest : List Selector) :
    Selector.listChars (s :: rest) =
      s.chars ++ (rest.map Selector.chars).flatMap (',' :: ·) := by
  rw [Selector.listChars, Selector.tailChars_eq]

/-- **Names are read back.** -/
theorem segment_names [DoubleText] {selectors : List Selector} (hne : selectors ≠ [])
    (hnames : ∀ s ∈ selectors, ∃ key, s = .name key)
    (h : inner.text = Selector.listChars selectors) :
    segment limit depth inner = .ok (.mk selectors) := by
  obtain ⟨keys, rfl⟩ := exists_eq_map hnames
  have hjoined : QuotedName.joined (keys.map QuotedName.written) =
      Selector.listChars (keys.map Selector.name) := by
    cases keys with
    | nil => rfl
    | cons key rest =>
      simp [QuotedName.joined_cons, listChars_eq, QuotedName.text, QuotedName.written,
        Selector.chars, Function.comp_def]
  have hsegment : segment limit depth inner =
      .ok (.mk ((keys.map QuotedName.written).map fun n => .name n.name)) :=
    segment_quotedNames (by simpa using hne) (h.trans hjoined.symm)
  simpa [QuotedName.written, Function.comp_def] using hsegment

/-- Behind a question mark, a segment is a filter one level deeper. -/
theorem segment_question {s : Segment} (h : inner.trim.text.head? = some '?') :
    segment limit depth inner = .ok s ↔ ∃ condition,
      expression limit (depth + 1) .boolean (inner.trim.drop 1) = .ok condition ∧
        s = .mk [.filter condition] := by
  rw [segment_eq_ok]
  constructor
  · rintro (⟨hstar, -⟩ | ⟨condition, -, hok, rfl⟩ | ⟨-, -, hnot, -⟩)
    · simp [hstar] at h
    · exact ⟨condition, hok, rfl⟩
    · exact absurd h hnot
  · rintro ⟨condition, hok, rfl⟩
    exact Or.inr (Or.inl ⟨condition, h, hok, rfl⟩)

/-- A character of the text of indexes or of a slice. -/
def IsRangeChar (c : Char) : Prop :=
  c.isDigit = true ∨ c ∈ ['-', ':', ',']

theorem isRangeChar_of_integerChars {n : Int} {c : Char} (h : c ∈ Text.integerChars n) :
    IsRangeChar c ∧ c ≠ ':' ∧ c ≠ ',' := by
  rcases digit_or_minus_of_mem_integerChars h with hc | rfl
  · refine ⟨Or.inl hc, ?_, ?_⟩ <;> rintro rfl <;> simp at hc
  · exact ⟨Or.inr (by decide), by decide, by decide⟩

/-- What a text of such characters is not taken for. -/
theorem not_special_of_isRangeChar {c : Char} (h : IsRangeChar c) : Ordinary true c ∧
    Text.isBlank c = false ∧ c ≠ '\'' ∧ c ≠ '"' ∧ c ≠ '?' ∧ c ≠ '*' := by
  rcases h with hc | hc
  · refine ⟨ordinary_of_isDigit hc, isBlank_of_isDigit hc, ?_, ?_, ?_, ?_⟩ <;> rintro rfl <;>
      simp at hc
  · simp only [List.mem_cons, List.not_mem_nil, or_false] at hc
    rcases hc with rfl | rfl | rfl <;> decide

/-- A text of such characters is compiled as a segment of indexes or as a slice. -/
theorem segment_of_isRangeChar {text : List Char} {s : Segment} (h : inner.text = text)
    (hne : text ≠ []) (hchars : ∀ c ∈ text, IsRangeChar c)
    (hplain : ∀ body : Fragment, body.text = text →
      (body.text.head? = some '\'' ∨ body.text.head? = some '"') = False →
      plainSegment body = .ok s) : segment limit depth inner = .ok s := by
  have hsolid := Text.trimmed_of_forall fun c hc => (not_special_of_isRangeChar (hchars c hc)).2.1
  have htrim := hsolid.text_trim h
  have hhead : ∀ c, text.head? = some c → c ≠ '\'' ∧ c ≠ '"' ∧ c ≠ '?' ∧ c ≠ '*' :=
    fun c hc => (not_special_of_isRangeChar (hchars c (List.mem_of_head? hc))).2.2
  have hquote : (inner.trim.text.head? = some '\'' ∨ inner.trim.text.head? = some '"') = False := by
    rw [htrim]
    refine eq_false ?_
    rintro (hq | hq)
    · exact (hhead _ hq).1 rfl
    · exact (hhead _ hq).2.1 rfl
  refine segment_eq_ok.mpr (Or.inr (Or.inr ⟨htrim ▸ hne, ?_, ?_, hplain _ htrim hquote⟩)) <;>
    rw [htrim]
  · rintro rfl
    exact (hhead _ rfl).2.2.2 rfl
  · exact fun hq => (hhead _ hq).2.2.1 rfl

/-- Indexes with commas between them are read as a segment. -/
theorem segment_indexTexts {i : Int64} {rest : List Int64}
    (h : inner.text = Text.integerChars i.toInt ++
      (rest.map fun j => Text.integerChars j.toInt).flatMap (',' :: ·)) :
    segment limit depth inner = .ok (.mk ((i :: rest).map .index)) := by
  have hchars : ∀ c ∈ inner.text, IsRangeChar c ∧ c ≠ ':' := by
    intro c hc
    rw [h] at hc
    rcases List.mem_append.mp hc with hc | hc
    · exact ⟨(isRangeChar_of_integerChars hc).1, (isRangeChar_of_integerChars hc).2.1⟩
    · obtain ⟨text, htext, hc⟩ := List.mem_flatMap.mp hc
      obtain ⟨j, -, rfl⟩ := List.mem_map.mp htext
      rcases List.mem_cons.mp hc with rfl | hc
      · exact ⟨Or.inr (by decide), by decide⟩
      · exact ⟨(isRangeChar_of_integerChars hc).1, (isRangeChar_of_integerChars hc).2.1⟩
  have hne : inner.text ≠ [] :=
    h ▸ List.append_ne_nil_of_left_ne_nil (integerChars_ne_nil i.toInt) _
  refine segment_of_isRangeChar rfl hne (fun c hc => (hchars c hc).1) fun body hbody hquote => ?_
  -- there is no colon, so the text is one part between colons
  obtain ⟨whole, hwhole, htexts⟩ := @Fragment.splitTop_join ':' body inner.text [] ordinary_colon
    (by simp [hbody]) fun t ht => by
      obtain rfl := List.mem_singleton.mp ht
      exact closed_of_ordinary (fun c hc => (not_special_of_isRangeChar (hchars c hc).1).1)
        fun c hc => (hchars c hc).2
  obtain ⟨part, rfl⟩ : ∃ part, whole = [part] := by
    have hlength := congrArg List.length htexts
    exact List.length_eq_one_iff.mp (by simpa using hlength)
  have hclosed : ∀ t ∈ (i :: rest).map fun j => Text.integerChars j.toInt,
      Closed true (· ≠ ',') t := by
    intro t ht
    obtain ⟨j, -, rfl⟩ := List.mem_map.mp ht
    exact closed_of_ordinary
      (fun c hc => (not_special_of_isRangeChar (isRangeChar_of_integerChars hc).1).1)
      fun c hc => (isRangeChar_of_integerChars hc).2.2
  obtain ⟨parts, hparts, hpartTexts⟩ :=
    Fragment.splitTop_join ordinary_comma (hbody.trans h) hclosed
  rw [← List.map_cons (f := fun j : Int64 => Text.integerChars j.toInt)] at hpartTexts
  have hread : parts.mapM index = .ok ((i :: rest).map .index) :=
    mapM_eq_ok_map hpartTexts fun _ _ _ hpart => index_chars hpart
  have hall : (parts.all fun part => isIndexText part.trim.text) = true := by
    rw [List.all_eq_true]
    intro part hpart
    obtain ⟨j, -, htext⟩ := List.mem_map.mp (hpartTexts ▸ List.mem_map_of_mem hpart :
      part.text ∈ (i :: rest).map fun j => Text.integerChars j.toInt)
    rw [(trimmed_integerChars j.toInt).text_trim htext.symm, isIndexText_integerChars]
  simp only [plainSegment, hquote, if_false, hwhole, hparts, hall, if_true, hread, bind,
    Except.bind, pure, Except.pure]

/-- **Indexes are read back.** -/
theorem segment_indexes [DoubleText] {selectors : List Selector} (hne : selectors ≠ [])
    (hindexes : ∀ s ∈ selectors, ∃ i, s = .index i)
    (h : inner.text = Selector.listChars selectors) :
    segment limit depth inner = .ok (.mk selectors) := by
  obtain ⟨indexes, rfl⟩ := exists_eq_map hindexes
  obtain ⟨i, rest, rfl⟩ : ∃ i rest, indexes = i :: rest :=
    List.exists_cons_of_ne_nil (List.map_eq_nil_iff.not.mp hne)
  refine segment_indexTexts (h.trans ?_)
  simp [listChars_eq, Selector.chars, Function.comp_def]

/-- The bounds of a slice that are written: the step only if there is one. -/
def sliceParts (bounds : Slice) : List (List Char) :=
  Slice.boundChars bounds.stop :: bounds.step.toList.map fun n => Slice.boundChars (some n)

theorem sliceChars_eq (bounds : Slice) : bounds.chars =
    Slice.boundChars bounds.start ++ (sliceParts bounds).flatMap (':' :: ·) := by
  obtain ⟨start, stop, _ | n⟩ := bounds <;> simp [Slice.chars, sliceParts, Slice.boundChars]

theorem isRangeChar_of_boundChars {b : Option Int64} {c : Char} (h : c ∈ Slice.boundChars b) :
    IsRangeChar c ∧ c ≠ ':' := by
  cases b with
  | none => simp [Slice.boundChars] at h
  | some n => exact ⟨(isRangeChar_of_integerChars h).1, (isRangeChar_of_integerChars h).2.1⟩

/-- **A slice is read back.** -/
theorem segment_slice {bounds : Slice} (hstep : bounds.step ≠ some 0)
    (h : inner.text = bounds.chars) : segment limit depth inner = .ok (.mk [.slice bounds]) := by
  have hclosed : ∀ b, Closed true (· ≠ ':') (Slice.boundChars b) := fun b =>
    closed_of_ordinary (Slice.ordinary_boundChars b) fun c hc => (isRangeChar_of_boundChars hc).2
  have hwritten : ∀ text ∈ Slice.boundChars bounds.start :: sliceParts bounds,
      ∃ b, text = Slice.boundChars b := by
    intro text htext
    simp only [sliceParts, List.mem_cons, List.mem_map] at htext
    rcases htext with rfl | rfl | ⟨n, -, rfl⟩
    · exact ⟨_, rfl⟩
    · exact ⟨_, rfl⟩
    · exact ⟨_, rfl⟩
  have hchars : ∀ c ∈ bounds.chars, IsRangeChar c := by
    intro c hc
    rw [sliceChars_eq] at hc
    rcases List.mem_append.mp hc with hc | hc
    · exact (isRangeChar_of_boundChars hc).1
    · obtain ⟨text, htext, hc⟩ := List.mem_flatMap.mp hc
      obtain ⟨b, rfl⟩ := hwritten text (List.mem_cons_of_mem _ htext)
      rcases List.mem_cons.mp hc with rfl | hc
      · exact Or.inr (by decide)
      · exact (isRangeChar_of_boundChars hc).1
  have hne : bounds.chars ≠ [] := by simp [sliceChars_eq, sliceParts]
  refine segment_of_isRangeChar h hne hchars fun body hbody hquote => ?_
  obtain ⟨parts, hparts, htexts⟩ := Fragment.splitTop_join ordinary_colon
    (hbody.trans (sliceChars_eq bounds)) fun text htext => by
      obtain ⟨b, rfl⟩ := hwritten text htext
      exact hclosed b
  -- two parts without a step and three with one
  obtain ⟨start, stop, step⟩ := bounds
  obtain ⟨first, rest, rfl, hfirst, hrest⟩ := List.map_eq_cons_iff.mp htexts
  obtain ⟨second, rest, rfl, hsecond, hrest⟩ := List.map_eq_cons_iff.mp hrest
  have hstart := @bound_chars first .start _ hfirst
  have hstop := @bound_chars second .stop _ hsecond
  cases step with
  | none =>
    obtain rfl : rest = [] := by simpa using hrest
    simp only [plainSegment, hquote, if_false, hparts, slice, hstart, hstop, bind, Except.bind,
      pure, Except.pure]
  | some n =>
    obtain ⟨third, rest, rfl, hthird, hrest⟩ := List.map_eq_cons_iff.mp hrest
    obtain rfl : rest = [] := by simpa using hrest
    have hstride := @bound_chars third .step _ hthird
    simp only [plainSegment, hquote, if_false, hparts, slice, hstart, hstop, hstride,
      if_neg hstep, bind, Except.bind, pure, Except.pure]

end Compiler
end PathQuery
