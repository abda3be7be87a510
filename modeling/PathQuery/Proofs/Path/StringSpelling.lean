import PathQuery.Path.Quoted
import PathQuery.Proofs.Outcome

/-! # Spellings of quoted strings

A character between quotes may be written in several ways: as itself, by a short escape, or by
the hexadecimal digits of its code, which take two escapes if they are more than four.  Reading
takes every such spelling, in quotes of either kind and with a choice for each character, for
the string that it spells, and takes nothing else (`Quoted.decode_spelled_iff`).  Writing makes
one of these spellings (`Quoted.spells_encode`).
-/

namespace PathQuery

/-! ## Hexadecimal digits -/

namespace Text

/-- The character is the hexadecimal digit of a number below sixteen, in either case. -/
def IsHexDigit (value : Nat) (c : Char) : Prop :=
  value < 16 ∧ (c = Nat.digitChar value ∨ c = (Nat.digitChar value).toUpper)

/-- The text is the four hexadecimal digits of a number. -/
def IsHexCode (n : Nat) : List Char → Prop
  | [a, b, c, d] => IsHexDigit (n / 0x1000) a ∧ IsHexDigit (n / 0x100 % 0x10) b ∧
      IsHexDigit (n / 0x10 % 0x10) c ∧ IsHexDigit (n % 0x10) d
  | _ => False

variable {n value : Nat} {a b c d : Char} {text rest digits : List Char}

theorem toNat_digitChar : ∀ value, value < 16 →
    (Nat.digitChar value).toNat = (if value < 10 then 48 + value else 87 + value) ∧
      (Nat.digitChar value).toUpper.toNat = (if value < 10 then 48 + value else 55 + value) := by
  decide

theorem isHexDigit_iff : IsHexDigit value c ↔ value < 16 ∧
    (c.toNat = (if value < 10 then 48 + value else 87 + value) ∨
      c.toNat = (if value < 10 then 48 + value else 55 + value)) := by
  refine and_congr_right fun hvalue => ?_
  obtain ⟨hlower, hupper⟩ := toNat_digitChar value hvalue
  rw [← hlower, ← hupper, Char.toNat_inj, Char.toNat_inj]

theorem hexValue_eq_some_iff : hexValue c = some value ↔ IsHexDigit value c := by
  rw [isHexDigit_iff]
  unfold hexValue
  simp only [Char.le_def, UInt32.le_iff_toNat_le, Char.toNat_val, Char.reduceToNat]
  split
  · rw [Option.some.injEq]
    split <;> omega
  split
  · rw [Option.some.injEq]
    split <;> omega
  split
  · rw [Option.some.injEq]
    split <;> omega
  · simp only [reduceCtorEq, false_iff]
    split <;> omega

/-- The digits of a number are read as that number. -/
theorem hexQuad_eq_some_iff : hexQuad a b c d = some n ↔ IsHexCode n [a, b, c, d] := by
  simp only [hexQuad, Option.bind_eq_bind, Option.bind_eq_some_iff, hexValue_eq_some_iff,
    Option.some.injEq, IsHexCode]
  constructor
  · rintro ⟨w, hw, x, hx, y, hy, z, hz, rfl⟩
    have hw16 := hw.1
    have hx16 := hx.1
    have hy16 := hy.1
    have hz16 := hz.1
    have hfirst : (((w * 16 + x) * 16 + y) * 16 + z) / 0x1000 = w := by omega
    have hsecond : (((w * 16 + x) * 16 + y) * 16 + z) / 0x100 % 0x10 = x := by omega
    have hthird : (((w * 16 + x) * 16 + y) * 16 + z) / 0x10 % 0x10 = y := by omega
    have hlast : (((w * 16 + x) * 16 + y) * 16 + z) % 0x10 = z := by omega
    rw [hfirst, hsecond, hthird, hlast]
    exact ⟨hw, hx, hy, hz⟩
  · rintro ⟨hw, hx, hy, hz⟩
    exact ⟨_, hw, _, hx, _, hy, _, hz, by omega⟩

theorem IsHexCode.exists_digits (h : IsHexCode n digits) : ∃ a b c d, digits = [a, b, c, d] := by
  unfold IsHexCode at h
  split at h
  · exact ⟨_, _, _, _, rfl⟩
  · exact h.elim

/-! ## Codes of characters -/

theorem toNat_valid (c : Char) : c.toNat < 0xD800 ∨ 0xDFFF < c.toNat ∧ c.toNat < 0x110000 :=
  c.valid

theorem charOfNat?_eq_some_iff : charOfNat? n = some c ↔ n = c.toNat := by
  constructor
  · intro h
    by_cases hvalid : n.isValidChar
    · have hchar : charOfNat? n = some (Char.ofNatAux n hvalid) := dif_pos hvalid
      rw [← Option.some.inj (hchar.symm.trans h)]
      rfl
    · have hnone : charOfNat? n = none := dif_neg hvalid
      rw [hnone] at h
      cases h
  · rintro rfl
    exact dif_pos c.valid

theorem charBefore_eq_ok_iff {out : List Char} :
    charBefore n rest = .ok (c, out) ↔ n = c.toNat ∧ out = rest := by
  constructor
  · intro h
    obtain ⟨hchar, hrest⟩ := eq_of_charBefore h
    exact ⟨charOfNat?_eq_some_iff.mp hchar, hrest⟩
  · rintro ⟨hn, rfl⟩
    rw [charBefore, charOfNat?_eq_some_iff.mpr hn]

/-- The first half of the surrogate pair of a character beyond U+FFFF. -/
def highHalf (c : Char) : Nat :=
  0xD800 + (c.toNat - 0x10000) / 0x400

/-- The second half. -/
def lowHalf (c : Char) : Nat :=
  0xDC00 + (c.toNat - 0x10000) % 0x400

/-- A surrogate pair has the value of a character exactly if it is the pair of its halves. -/
theorem pairValue_eq_iff {high low : Nat} (hhigh : isHighSurrogate high = true)
    (hlow : isLowSurrogate low = true) : pairValue high low = c.toNat ↔
      0x10000 ≤ c.toNat ∧ high = highHalf c ∧ low = lowHalf c := by
  simp only [isHighSurrogate, isLowSurrogate, Bool.and_eq_true, decide_eq_true_eq] at hhigh hlow
  unfold pairValue highHalf lowHalf
  omega

theorem isHighSurrogate_highHalf (c : Char) : isHighSurrogate (highHalf c) = true := by
  have hvalid := toNat_valid c
  rw [isHighSurrogate, highHalf, Bool.and_eq_true, decide_eq_true_eq, decide_eq_true_eq]
  omega

theorem isLowSurrogate_lowHalf (c : Char) : isLowSurrogate (lowHalf c) = true := by
  rw [isLowSurrogate, lowHalf, Bool.and_eq_true, decide_eq_true_eq, decide_eq_true_eq]
  omega

/-! ## Escapes with hexadecimal digits -/

/-- What stands for a character behind the letter `u` of an escape: its code, or the codes of
its two halves, the second one in an escape of its own. -/
inductive HexEscape : Char → List Char → Prop
  | code {c : Char} {digits : List Char} (h : IsHexCode c.toNat digits) : HexEscape c digits
  | pair {c : Char} {high low : List Char} (hbeyond : 0x10000 ≤ c.toNat)
      (hhigh : IsHexCode (highHalf c) high) (hlow : IsHexCode (lowHalf c) low) :
      HexEscape c (high ++ '\\' :: 'u' :: low)

theorem lowSurrogate?_eq_some_iff {low : Nat} : lowSurrogate? text = some (low, rest) ↔
    ∃ digits, IsHexCode low digits ∧ isLowSurrogate low = true ∧
      text = '\\' :: 'u' :: (digits ++ rest) := by
  constructor
  · intro h
    unfold lowSurrogate? at h
    split at h
    · rename_i a b c d tail
      obtain ⟨n, hn, hlow⟩ := Option.bind_eq_some_iff.mp h
      split at hlow
      · rename_i hsurrogate
        obtain ⟨rfl, rfl⟩ := Prod.mk.inj (Option.some.inj hlow)
        exact ⟨[a, b, c, d], hexQuad_eq_some_iff.mp hn, hsurrogate, rfl⟩
      · cases hlow
    · cases h
  · rintro ⟨digits, hdigits, hsurrogate, rfl⟩
    obtain ⟨a, b, c, d, rfl⟩ := hdigits.exists_digits
    show (hexQuad a b c d).bind _ = _
    rw [hexQuad_eq_some_iff.mpr hdigits, Option.bind_some, if_pos hsurrogate]
    rfl

/-- **An escape with hexadecimal digits is read exactly as what it stands for.** -/
theorem readHexEscape_eq_ok_iff : readHexEscape text = .ok (c, rest) ↔
    ∃ front, HexEscape c front ∧ text = front ++ rest := by
  constructor
  · intro h
    unfold readHexEscape at h
    split at h
    · rename_i w x y z tail
      split at h
      · cases h
      · rename_i n hn
        have hdigits := hexQuad_eq_some_iff.mp hn
        split at h
        · rename_i hhigh
          split at h
          · cases h
          · rename_i low after hlow
            obtain ⟨digits, hlowDigits, hsurrogate, rfl⟩ := lowSurrogate?_eq_some_iff.mp hlow
            obtain ⟨hvalue, rfl⟩ := charBefore_eq_ok_iff.mp h
            obtain ⟨hbeyond, hfirst, hsecond⟩ := (pairValue_eq_iff hhigh hsurrogate).mp hvalue
            rw [hfirst] at hdigits
            rw [hsecond] at hlowDigits
            refine ⟨[w, x, y, z] ++ '\\' :: 'u' :: digits, ?_, ?_⟩
            · exact .pair hbeyond hdigits hlowDigits
            · rw [List.append_assoc]
              rfl
        · obtain ⟨rfl, rfl⟩ := charBefore_eq_ok_iff.mp h
          exact ⟨_, .code hdigits, rfl⟩
    · cases h
  · rintro ⟨front, hfront, rfl⟩
    cases hfront with
    | code hdigits =>
      obtain ⟨w, x, y, z, rfl⟩ := hdigits.exists_digits
      have hvalid := toNat_valid c
      have hhigh : isHighSurrogate c.toNat = false := by
        simp only [isHighSurrogate, Bool.and_eq_false_imp, decide_eq_true_eq,
          decide_eq_false_iff_not]
        omega
      simp only [List.cons_append, List.nil_append, readHexEscape,
        hexQuad_eq_some_iff.mpr hdigits, hhigh, Bool.false_eq_true, if_false]
      exact charBefore_eq_ok_iff.mpr ⟨rfl, rfl⟩
    | pair hbeyond hhigh hlow =>
      obtain ⟨w, x, y, z, rfl⟩ := hhigh.exists_digits
      rename_i low
      have hrest : lowSurrogate? ('\\' :: 'u' :: (low ++ rest)) = some (lowHalf c, rest) :=
        lowSurrogate?_eq_some_iff.mpr ⟨low, hlow, isLowSurrogate_lowHalf c, rfl⟩
      have hvalue : pairValue (highHalf c) (lowHalf c) = c.toNat :=
        (pairValue_eq_iff (isHighSurrogate_highHalf c) (isLowSurrogate_lowHalf c)).mpr
          ⟨hbeyond, rfl, rfl⟩
      simp only [List.cons_append, List.nil_append, readHexEscape,
        hexQuad_eq_some_iff.mpr hhigh, isHighSurrogate_highHalf, if_true, hrest]
      exact charBefore_eq_ok_iff.mpr ⟨hvalue, rfl⟩

end Text

/-! ## Spellings -/

namespace Quoted

/-- The letters of the short escapes, each with what it stands for. -/
def shortEscapes : List (Char × Char) :=
  [('\\', '\\'), ('\'', '\''), ('"', '"'), ('/', '/'), ('b', '\x08'), ('f', '\x0C'),
    ('n', '\n'), ('r', '\r'), ('t', '\t')]

/-- The ways to write a character between two quotes. -/
inductive Spelling (quote : Char) : Char → List Char → Prop
  | itself {c : Char} (hprintable : 0x1F < c.toNat) (hquote : c ≠ quote) (hbackslash : c ≠ '\\') :
      Spelling quote c [c]
  | short {letter c : Char} (h : (letter, c) ∈ shortEscapes) : Spelling quote c ['\\', letter]
  | hex {c : Char} {code : List Char} (h : Text.HexEscape c code) :
      Spelling quote c ('\\' :: 'u' :: code)

/-- The text spells characters in a row, each in one of its ways. -/
inductive Spells (quote : Char) : List Char → List Char → Prop
  | nil : Spells quote [] []
  | cons {c : Char} {front chars text : List Char} (hfront : Spelling quote c front)
      (h : Spells quote chars text) : Spells quote (c :: chars) (front ++ text)

variable {quote c letter : Char} {text rest front : List Char}

theorem escape?_eq_some_iff : escape? letter = some c ↔ (letter, c) ∈ shortEscapes := by
  unfold escape? Text.controlOfLetter?
  constructor
  · intro h
    split at h
    · rename_i hletter
      obtain rfl := Option.some.inj h
      rcases hletter with rfl | rfl | rfl | rfl <;> decide
    · split at h
      all_goals first
        | (obtain rfl := Option.some.inj h; decide)
        | cases h
  · intro h
    simp only [shortEscapes, List.mem_cons, Prod.mk.injEq, List.not_mem_nil, or_false] at h
    rcases h with h | h | h | h | h | h | h | h | h <;> obtain ⟨rfl, rfl⟩ := h <;> rfl

theorem readChar_itself (hc : c ≠ '\\') (rest : List Char) : readChar (c :: rest) =
    if c.toNat ≤ 0x1F then .error (.controlCharacter c) else .ok (c, rest) := by
  rw [readChar.eq_def]
  split
  · rename_i heq
    cases heq
  · rename_i heq
    exact absurd (List.cons.inj heq).1 hc
  · rename_i heq
    obtain ⟨rfl, rfl⟩ := List.cons.inj heq
    rfl

theorem readChar_short (hletter : letter ≠ 'u') (rest : List Char) :
    readChar ('\\' :: letter :: rest) = match escape? letter with
      | some meant => .ok (meant, rest)
      | none => .error (.unknownEscape letter) := by
  rw [readChar.eq_def]
  split
  · rename_i heq
    cases heq
  · rename_i heq
    obtain rfl := (List.cons.inj heq).2
    split
    · rename_i hnil
      cases hnil
    · rename_i hcode
      exact absurd (List.cons.inj hcode).1 hletter
    · rename_i hshort
      obtain ⟨rfl, rfl⟩ := List.cons.inj hshort
      rfl
  · rename_i hother heq
    exact absurd (List.cons.inj heq).1.symm hother

theorem readChar_hex (rest : List Char) :
    readChar ('\\' :: 'u' :: rest) = (Text.readHexEscape rest).mapError causeOfHex :=
  rfl

/-- A spelling is read as the character that it spells. -/
theorem Spelling.readChar (h : Spelling quote c front) (rest : List Char) :
    readChar (front ++ rest) = .ok (c, rest) := by
  cases h with
  | itself hprintable hquote hbackslash =>
    rw [List.singleton_append, readChar_itself hbackslash, if_neg (Nat.not_le.mpr hprintable)]
  | short hmem =>
    rename_i letter
    have hletter : letter ≠ 'u' := by
      rintro rfl
      simp [shortEscapes] at hmem
    simp only [List.cons_append, List.nil_append, readChar_short hletter,
      escape?_eq_some_iff.mpr hmem]
  | hex hcode =>
    rename_i code
    have hread : Text.readHexEscape (code ++ rest) = .ok (c, rest) :=
      Text.readHexEscape_eq_ok_iff.mpr ⟨code, hcode, rfl⟩
    simp only [List.cons_append, readChar_hex, hread, Except.mapError]

/-- What is read is a spelling, unless it is the quote itself. -/
theorem spelling_of_readChar {d : Char} {tail : List Char} (hd : d ≠ quote)
    (h : Quoted.readChar (d :: tail) = .ok (c, rest)) :
    ∃ front, Spelling quote c front ∧ d :: tail = front ++ rest := by
  by_cases hbackslash : d = '\\'
  · subst hbackslash
    cases tail with
    | nil => cases h
    | cons letter tail =>
      by_cases hletter : letter = 'u'
      · subst hletter
        obtain ⟨code, hcode, rfl⟩ := Text.readHexEscape_eq_ok_iff.mp (ok_of_mapError h)
        exact ⟨_, .hex hcode, rfl⟩
      · rw [readChar_short hletter] at h
        split at h
        · rename_i meant hmeant
          obtain ⟨rfl, rfl⟩ := Prod.mk.inj (Except.ok.inj h)
          exact ⟨_, .short (escape?_eq_some_iff.mp hmeant), rfl⟩
        · cases h
  · rw [readChar_itself hbackslash] at h
    split at h
    · cases h
    · rename_i hcontrol
      obtain ⟨rfl, rfl⟩ := Prod.mk.inj (Except.ok.inj h)
      exact ⟨_, .itself (Nat.lt_of_not_le hcontrol) hd hbackslash, rfl⟩

/-- No spelling starts with the quote. -/
theorem Spelling.exists_head (hquote : quote ≠ '\\') (h : Spelling quote c front) :
    ∃ d tail, front = d :: tail ∧ d ≠ quote := by
  cases h with
  | itself _ hne _ => exact ⟨_, _, rfl, hne⟩
  | short => exact ⟨_, _, rfl, hquote.symm⟩
  | hex => exact ⟨_, _, rfl, hquote.symm⟩

/-! ## Strings -/

theorem decodeBody_of_readChar {meant : Char} {after : List Char} (hc : c ≠ quote)
    (h : readChar (c :: rest) = .ok (meant, after)) (start offset : Nat) :
    ∃ offset', decodeBody quote start offset (c :: rest) =
      (decodeBody quote start offset' after).map (meant :: ·) := by
  rw [decodeBody, if_neg hc]
  split
  · rename_i cause herror
    rw [herror] at h
    cases h
  · rename_i meant' after' hok
    obtain ⟨rfl, rfl⟩ : meant' = meant ∧ after' = after := by simpa using hok.symm.trans h
    exact ⟨_, rfl⟩

/-- Spelled characters are read up to the closing quote. -/
theorem Spells.decodeBody {chars : List Char} (hquote : quote ≠ '\\')
    (h : Spells quote chars text) (start offset : Nat) :
    decodeBody quote start offset (text ++ [quote]) = .ok chars := by
  induction h generalizing offset with
  | nil =>
    rw [List.nil_append, Quoted.decodeBody, if_pos rfl]
    rfl
  | cons hfront hrest ih =>
    rename_i front chars tail
    have hread := hfront.readChar (tail ++ [quote])
    obtain ⟨d, others, rfl, hd⟩ := hfront.exists_head hquote
    rw [List.append_assoc, List.cons_append] at *
    obtain ⟨offset', hbody⟩ := decodeBody_of_readChar hd hread start offset
    rw [hbody, ih]
    rfl

/-- What is read up to the closing quote is spelled. -/
theorem spells_of_decodeBody {chars : List Char} {start offset : Nat}
    (h : Quoted.decodeBody quote start offset text = .ok chars) :
    ∃ body, Spells quote chars body ∧ text = body ++ [quote] := by
  fun_induction Quoted.decodeBody quote start offset text generalizing chars with
  | case1 => cases h
  | case2 offset rest hend =>
    obtain rfl := Except.ok.inj h
    exact ⟨[], .nil, by rw [List.isEmpty_iff.mp hend]; rfl⟩
  | case3 => cases h
  | case4 => cases h
  | case5 offset c rest hc meant after hread =>
    rename_i ih
    obtain ⟨later, hlater, rfl⟩ := map_eq_ok.mp h
    obtain ⟨body, hbody, rfl⟩ := ih hlater
    obtain ⟨front, hfront, htext⟩ := spelling_of_readChar hc hread
    exact ⟨front ++ body, .cons hfront hbody, by rw [htext, List.append_assoc]⟩

/-- The text is the string in quotes of one kind, each of its characters spelled in some way. -/
def Spelled (s : String) (text : List Char) : Prop :=
  ∃ quote, (quote = '\'' ∨ quote = '"') ∧ ∃ body, Spells quote s.toList body ∧
    text = quote :: (body ++ [quote])

theorem decode_of_spelled {f : Fragment} {s : String} (h : Spelled s f.text) :
    decode f = .ok s := by
  obtain ⟨quote, hquote, body, hbody, htext⟩ := h
  have hbackslash : quote ≠ '\\' := by rcases hquote with rfl | rfl <;> decide
  simp only [decode, htext, if_pos hquote, hbody.decodeBody hbackslash, Except.map,
    String.ofList_toList]

theorem spelled_of_decode {f : Fragment} {s : String} (h : decode f = .ok s) :
    Spelled s f.text := by
  unfold decode at h
  split at h
  · rename_i quote rest htext
    split at h
    · rename_i hquote
      obtain ⟨chars, hchars, rfl⟩ := map_eq_ok.mp h
      obtain ⟨body, hbody, rfl⟩ := spells_of_decodeBody hchars
      exact ⟨quote, hquote, body, by rwa [String.toList_ofList], htext⟩
    · cases h
  · cases h

/-! ## Written strings -/

theorem hexQuad_control : ∀ n, n ≤ 0x1F →
    Text.hexQuad '0' '0' (Nat.digitChar (n / 16)) (Nat.digitChar (n % 16)) = some n := by
  decide

/-- A character is written in one of its spellings. -/
theorem spelling_encodeChar (c : Char) : Spelling '\'' c (encodeChar c) := by
  unfold encodeChar
  split
  · subst_vars
    exact .short (by decide)
  split
  · subst_vars
    exact .short (by decide)
  split
  · subst_vars
    exact .short (by decide)
  split
  · subst_vars
    exact .short (by decide)
  split
  · subst_vars
    exact .short (by decide)
  split
  · rename_i hcontrol
    exact .hex (.code (Text.hexQuad_eq_some_iff.mp (hexQuad_control _ hcontrol)))
  · rename_i hquote hbackslash _ _ _ hcontrol
    exact .itself (Nat.lt_of_not_le hcontrol) hquote hbackslash

theorem spells_encode (chars : List Char) : Spells '\'' chars (chars.flatMap encodeChar) := by
  induction chars with
  | nil => exact .nil
  | cons c rest ih =>
    rw [List.flatMap_cons]
    exact .cons (spelling_encodeChar c) ih

theorem spelled_encode (s : String) : Spelled s (encode s) :=
  ⟨'\'', Or.inl rfl, _, spells_encode s.toList, rfl⟩

/-- **A written string is read as that string.** -/
theorem decode_encode {f : Fragment} {s : String} (hf : f.text = encode s) :
    decode f = .ok s :=
  decode_of_spelled (hf ▸ spelled_encode s)

/-- **Exactly the spellings of a string are read as that string**, and its written text is
one of them. -/
theorem decode_spelled_iff (f : Fragment) (s : String) :
    (decode f = .ok s ↔ Spelled s f.text) ∧ decode ⟨encode s, f.offset⟩ = .ok s :=
  ⟨⟨spelled_of_decode, decode_of_spelled⟩, decode_encode rfl⟩

example : (decode ⟨"\"\\uD83d\\uDe00\\/'\\\"\"".toList, 0⟩).toOption = some "😀/'\"" := by
  decide +kernel

end Quoted
end PathQuery
