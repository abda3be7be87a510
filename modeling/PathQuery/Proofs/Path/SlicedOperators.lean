import PathQuery.Path.Operators
import PathQuery.Path.Quoted
import PathQuery.Proofs.Path.MarkPlaces
import PathQuery.Proofs.Path.QuotedText

/-! # Operators and strings by byte offsets

The search for operators looks at the text before a mark, at the token before it and at the
symbol that begins there; a quoted string with text behind it quotes that text.  Taken as
slices by their offsets these texts are the same, and so are the operators and the faults
(`Fragment.operatorsBytes_safe`, `Quoted.decodeBytes_safe`).
-/

namespace PathQuery

/-! ## Operators -/

namespace Occurrence

/-- The operator that begins at a mark.  The token before it, which starts at `tokenStart`, the
text before it and its symbol are looked at as slices; with the operator comes the last
character of the symbol. -/
def beginBytes (f : Fragment) (significant : Option Char) (tokenStart : Nat) (m : Mark)
    (next : Option Char) : Slicing (Option (Operator × Option Char)) := do
  let token ← f.slice? tokenStart m.offset
  let before ← f.slice? f.offset m.offset
  let context : Context := ⟨significant, before.text.getLast?, token.text.reverse⟩
  match context.operatorAt m.char next with
  | .error cause => throw ⟨cause, m.offset⟩
  | .ok none => return none
  | .ok (some op) =>
    let symbol ← f.slice? m.offset (m.offset + op.symbol.length)
    return some (op, symbol.text.getLast?)

/-- The operators among marks, the first of which has `index` characters before it. -/
def scanBytes (f : Fragment) (significant : Option Char) (tokenStart index : Nat) :
    List Mark → Slicing (List Occurrence)
  | [] => return []
  | m :: rest =>
    if m.plain && Text.isBlank m.char then
      scanBytes f significant (m.offset + m.char.utf8Size) (index + 1) rest
    else if !m.isTop then scanBytes f (some m.char) tokenStart (index + 1) rest
    else do
      match ← beginBytes f significant tokenStart m (rest.head?.map Mark.char) with
      | none => scanBytes f (some m.char) tokenStart (index + 1) rest
      | some (op, last) =>
        if op.symbol.length = 1 then
          return ⟨op, index, m.offset⟩ ::
            (← scanBytes f last (m.offset + op.symbol.length) (index + 1) rest)
        else
          match rest with
          | [] => return [⟨op, index, m.offset⟩]
          | _ :: after =>
            return ⟨op, index, m.offset⟩ ::
              (← scanBytes f last (m.offset + op.symbol.length) (index + 2) after)

/-- The operator stands in the fragment where it was found. -/
def InPlace (f : Fragment) (o : Occurrence) : Prop :=
  ∃ before after, f.text = before ++ o.op.symbol.toList ++ after ∧ o.index = before.length ∧
    o.offset = f.offset + Text.byteSize before

theorem byteSize_symbol (op : Operator) : Text.byteSize op.symbol.toList = op.symbol.length := by
  rcases op with op | op | op <;> cases op <;> rfl

namespace InPlace

variable {f : Fragment} {o : Occurrence} {source : List Char}

theorem boundary (h : InPlace f o) (hf : f.Within source) : Text.Boundary source o.offset := by
  obtain ⟨before, after, htext, -, hoffset⟩ := h
  rw [hoffset]
  exact hf.boundary_append (htext.trans (List.append_assoc _ _ _))

/-- The operand before the operator is a slice. -/
theorem slice?_left (h : InPlace f o) : f.slice? f.offset o.offset = some (o.left f) := by
  obtain ⟨before, after, htext, hindex, hoffset⟩ := h
  rw [hoffset, left, hindex]
  exact Fragment.slice?_take (htext.trans (List.append_assoc _ _ _))

/-- The operand behind the operator is a slice. -/
theorem slice?_right (h : InPlace f o) :
    f.slice? (o.offset + o.width) f.stop = some (o.right f) := by
  obtain ⟨before, after, htext, hindex, hoffset⟩ := h
  have hslice := Fragment.slice?_drop htext
  rw [Text.byteSize_append, byteSize_symbol, List.length_append, String.length_toList,
    ← Nat.add_assoc, ← hoffset, ← hindex] at hslice
  exact hslice

end InPlace

/-- An operator that is found consists of the character and, if it has two, the next one. -/
theorem symbol_of_operatorAt {context : Context} {c : Char} {next : Option Char} {op : Operator}
    (h : context.operatorAt c next = .ok (some op)) :
    op.symbol.toList = [c] ∨ ∃ d, next = some d ∧ op.symbol.toList = [c, d] := by
  have htwo : ∀ {found : Operator} {d : Char} {cause : SyntaxCause},
      (if next = some d then Except.ok (some found) else .error cause) = .ok (some op) →
        next = some d ∧ found = op := by
    intro found d cause h
    rcases ite_eq_iff.mp h with ⟨hnext, h⟩ | ⟨-, h⟩
    · exact ⟨hnext, Option.some.inj (Except.ok.inj h)⟩
    · cases h
  have hguard : ∀ {found : Operator} {p : Prop} [Decidable p],
      (Except.ok (if p then none else some found) : Except SyntaxCause _) = .ok (some op) →
        found = op := by
    intro found p _ h
    rcases ite_eq_iff.mp (Except.ok.inj h) with ⟨-, h⟩ | ⟨-, h⟩
    · cases h
    · exact Option.some.inj h
  unfold Context.operatorAt at h
  -- one case for each character that may begin an operator, in the order of the definition
  rcases ite_eq_iff.mp h with ⟨rfl, found⟩ | ⟨-, h⟩
  · obtain ⟨rfl, rfl⟩ := htwo found
    exact Or.inr ⟨_, rfl, rfl⟩
  rcases ite_eq_iff.mp h with ⟨rfl, found⟩ | ⟨-, h⟩
  · obtain ⟨rfl, rfl⟩ := htwo found
    exact Or.inr ⟨_, rfl, rfl⟩
  rcases ite_eq_iff.mp h with ⟨rfl, found⟩ | ⟨-, h⟩
  · obtain ⟨rfl, rfl⟩ := htwo found
    exact Or.inr ⟨_, rfl, rfl⟩
  rcases ite_eq_iff.mp h with ⟨rfl, found⟩ | ⟨-, h⟩
  · rcases ite_eq_iff.mp (Except.ok.inj found) with ⟨hnext, found⟩ | ⟨-, found⟩
    · exact Or.inr ⟨_, hnext, Option.some.inj found ▸ rfl⟩
    · cases found
  rcases ite_eq_iff.mp h with ⟨rfl, found⟩ | ⟨-, h⟩
  · obtain rfl := Option.some.inj (Except.ok.inj found)
    by_cases hnext : next = some '='
    · exact Or.inr ⟨_, hnext, by rw [if_pos hnext]; rfl⟩
    · exact Or.inl (by rw [if_neg hnext]; rfl)
  rcases ite_eq_iff.mp h with ⟨rfl, found⟩ | ⟨-, h⟩
  · obtain rfl := Option.some.inj (Except.ok.inj found)
    by_cases hnext : next = some '='
    · exact Or.inr ⟨_, hnext, by rw [if_pos hnext]; rfl⟩
    · exact Or.inl (by rw [if_neg hnext]; rfl)
  rcases ite_eq_iff.mp h with ⟨-, found⟩ | ⟨-, h⟩
  · cases found
  rcases ite_eq_iff.mp h with ⟨rfl, found⟩ | ⟨-, h⟩
  · exact Or.inl (hguard found ▸ rfl)
  rcases ite_eq_iff.mp h with ⟨rfl, found⟩ | ⟨-, h⟩
  · exact Or.inl (hguard found ▸ rfl)
  rcases ite_eq_iff.mp h with ⟨rfl, found⟩ | ⟨-, h⟩
  · exact Or.inl (hguard found ▸ rfl)
  rcases ite_eq_iff.mp h with ⟨rfl, found⟩ | ⟨-, h⟩
  · exact Or.inl (Option.some.inj (Except.ok.inj found) ▸ rfl)
  rcases ite_eq_iff.mp h with ⟨rfl, found⟩ | ⟨-, h⟩
  · exact Or.inl (Option.some.inj (Except.ok.inj found) ▸ rfl)
  · cases h
section
variable {f : Fragment} {source : List Char} {context : Context} {tokenStart index : Nat}
  {all done rest : List Char} {m : Mark} {marks : List Mark} {op : Operator}

/-- An operator that is found at a mark stands there. -/
theorem inPlace_of_operatorAt (h : f.Marked all (m :: marks) rest) (hindex : index = all.length)
    (hop : context.operatorAt m.char (marks.head?.map Mark.char) = .ok (some op)) :
    InPlace f ⟨op, index, m.offset⟩ := by
  rcases symbol_of_operatorAt hop with hsymbol | ⟨d, hnext, hsymbol⟩
  · exact ⟨all, marks.map Mark.char ++ rest, by simp [h.text, hsymbol], hindex, h.offset_eq⟩
  · obtain ⟨next, hhead, rfl⟩ := Option.map_eq_some_iff.mp hnext
    obtain ⟨tail, rfl⟩ := List.head?_eq_some_iff.mp hhead
    exact ⟨all, tail.map Mark.char ++ rest, by simp [h.text, hsymbol], hindex, h.offset_eq⟩

/-- The slices around a mark are what the context of the mark says. -/
theorem beginBytes_eq (h : f.Marked all (m :: marks) rest) (hlast : context.last = all.getLast?)
    (htoken : all = done ++ context.token.reverse)
    (hstart : tokenStart = f.offset + Text.byteSize done) :
    beginBytes f context.significant tokenStart m (marks.head?.map Mark.char) =
      .ofOutcome (match context.operatorAt m.char (marks.head?.map Mark.char) with
        | .error cause => .error ⟨cause, m.offset⟩
        | .ok found => .ok (found.map fun op => (op, op.symbol.toList.getLast?))) := by
  have hbefore : f.slice? f.offset m.offset = some ⟨all, f.offset⟩ :=
    h.slice?_front
  have htokenSlice : f.slice? tokenStart m.offset = some ⟨context.token.reverse, tokenStart⟩ := by
    subst htoken hstart
    exact h.slice?_eq
  have hcontext : (⟨context.significant, all.getLast?, context.token.reverse.reverse⟩ : Context) =
      context := by
    rw [List.reverse_reverse, ← hlast]
  rw [beginBytes, htokenSlice, hbefore]
  show (match Context.operatorAt ⟨_, all.getLast?, context.token.reverse.reverse⟩ _ _ with
    | .error cause => _ | .ok none => _ | .ok (some op) => _) = _
  rw [hcontext]
  cases hop : context.operatorAt m.char (marks.head?.map Mark.char) with
  | error cause => rfl
  | ok found =>
    cases found with
    | none => rfl
    | some op =>
      obtain ⟨before, after, htext, -, hoffset⟩ := inPlace_of_operatorAt h rfl hop
      have hsymbol : f.slice? m.offset (m.offset + op.symbol.length) =
          some ⟨op.symbol.toList, m.offset⟩ :=
        Fragment.slice?_append htext hoffset (by rw [byteSize_symbol])
      simp only [hsymbol]
      rfl

end

theorem scanBytes_safe {f : Fragment} {source : List Char} (hf : f.Within source)
    {context : Context} {tokenStart index : Nat} {all done rest : List Char} {marks : List Mark}
    (h : f.Marked all marks rest) (hindex : index = all.length)
    (hlast : context.last = all.getLast?) (htoken : all = done ++ context.token.reverse)
    (hstart : tokenStart = f.offset + Text.byteSize done) :
    (scanBytes f context.significant tokenStart index marks).Safe source
      (scan context index marks) fun found => ∀ o ∈ found, InPlace f o := by
  fun_induction scan context index marks generalizing all done tokenStart with
  | case1 =>
    rw [scanBytes]
    exact .pure (by simp)
  | case2 context index m marks hblank ih =>
    rw [scanBytes, if_pos hblank]
    refine ih h.next ?_ ?_ ?_ h.behind_eq
    · simp [hindex]
    · simp [Context.afterBlank]
    · simp [Context.afterBlank]
  | case3 context index m marks hblank htop ih =>
    rw [scanBytes, if_neg hblank, if_pos htop]
    refine ih h.next ?_ ?_ ?_ hstart
    · simp [hindex]
    · simp [Context.afterChar]
    · simp [Context.afterChar, htoken]
  | case4 context index m marks hblank htop cause hop =>
    rw [scanBytes, if_neg hblank, if_neg htop, beginBytes_eq h hlast htoken hstart, hop]
    exact .throw (h.boundary hf)
  | case5 context index m marks hblank htop hop ih =>
    rw [scanBytes, if_neg hblank, if_neg htop, beginBytes_eq h hlast htoken hstart, hop]
    refine ih h.next ?_ ?_ ?_ hstart
    · simp [hindex]
    · simp [Context.afterChar]
    · simp [Context.afterChar, htoken]
  | case6 context index m marks hblank htop op hop hwidth ih =>
    have hplace := inPlace_of_operatorAt h hindex hop
    rw [scanBytes, if_neg hblank, if_neg htop, beginBytes_eq h hlast htoken hstart, hop]
    show Slicing.Safe source (if op.symbol.length = 1 then _ else _) _ _
    rw [if_pos hwidth]
    have hsymbol : op.symbol.toList = [m.char] := by
      rcases symbol_of_operatorAt hop with hsymbol | ⟨d, -, hsymbol⟩
      · exact hsymbol
      · simp [← String.length_toList, hsymbol] at hwidth
    have hbehind : m.offset + op.symbol.length = f.offset + Text.byteSize (all ++ [m.char]) := by
      rw [← hsymbol, Text.byteSize_append, byteSize_symbol, h.offset_eq, Nat.add_assoc]
    refine (ih h.next ?_ ?_ ?_ hbehind).map fun found hfound =>
      List.forall_mem_cons.mpr ⟨hplace, hfound⟩
    · simp [hindex]
    · simp [Context.afterOperator, hsymbol]
    · simp [Context.afterOperator]
  | case7 context index m hblank htop op hwidth hop =>
    have hplace := inPlace_of_operatorAt h hindex hop
    rw [scanBytes, if_neg hblank, if_neg htop, beginBytes_eq h hlast htoken hstart, hop]
    show Slicing.Safe source (if op.symbol.length = 1 then _ else _) _ _
    rw [if_neg hwidth]
    exact .pure (by simpa using hplace)
  | case8 context index m hblank htop op hwidth next after hop ih =>
    have hplace := inPlace_of_operatorAt h hindex hop
    rw [scanBytes, if_neg hblank, if_neg htop, beginBytes_eq h hlast htoken hstart, hop]
    show Slicing.Safe source (if op.symbol.length = 1 then _ else _) _ _
    rw [if_neg hwidth]
    have hsymbol : op.symbol.toList = [m.char, next.char] := by
      rcases symbol_of_operatorAt hop with hsymbol | ⟨d, hd, hsymbol⟩
      · simp [← String.length_toList, hsymbol] at hwidth
      · rw [hsymbol, ← Option.some.inj hd]
    have hbehind : m.offset + op.symbol.length =
        f.offset + Text.byteSize (all ++ [m.char] ++ [next.char]) := by
      rw [List.append_assoc, List.singleton_append, ← hsymbol, Text.byteSize_append,
        byteSize_symbol, h.offset_eq, Nat.add_assoc]
    refine (ih h.next.next ?_ ?_ ?_ hbehind).map fun found hfound =>
      List.forall_mem_cons.mpr ⟨hplace, hfound⟩
    · simp [hindex]
    · simp [Context.afterOperator, hsymbol]
    · simp [Context.afterOperator]

end Occurrence

/-- The operators of an expression, from left to right. -/
def Fragment.operatorsBytes (f : Fragment) : Slicing (List Occurrence) := do
  let found ← Occurrence.scanBytes f none f.offset 0 (f.scan true).marks
  Slicing.ofOutcome (f.scan true).check
  return found

/-- **The operators can be found by their offsets**, and the slices before and behind each of
them are its operands. -/
theorem Fragment.operatorsBytes_safe {f : Fragment} {source : List Char} (hf : f.Within source) :
    f.operatorsBytes.Safe source f.operators fun found => ∀ o ∈ found, o.InPlace f := by
  obtain ⟨rest, hmarked, -⟩ := f.marked_scan true
  have htoken : ([] : List Char) = [] ++ Occurrence.Context.initial.token.reverse := rfl
  refine (Occurrence.scanBytes_safe hf hmarked rfl rfl htoken rfl).bind fun found hfound => ?_
  exact (check_safe hf).bind fun _ _ => .pure hfound

/-! ## Quoted strings -/

namespace Quoted

variable {text rest : List Char} {c : Char}

theorem ne_afterQuoted_of_readChar {cause : SyntaxCause} (h : readChar text = .error cause)
    (behind : List Char) : cause ≠ .afterQuoted behind := by
  rintro rfl
  unfold readChar at h
  split at h
  · simp at h
  · split at h
    · simp at h
    · rename_i tail
      cases hhex : Text.readHexEscape tail with
      | error e => cases e <;> simp [hhex, Except.mapError, causeOfHex] at h
      | ok a => simp [hhex, Except.mapError] at h
    · split at h <;> simp at h
  · split at h <;> simp at h

/-- The fault stands in front of a part of the fragment, which is also the text that it
quotes. -/
def FaultIn (f : Fragment) (e : Fault) : Prop :=
  ∃ front rest, f.text = front ++ rest ∧ e.position = f.offset + Text.byteSize front ∧
    ∀ behind, e.cause = .afterQuoted behind → behind = rest

theorem faultIn_of_decodeBody {f : Fragment} {quote : Char} {offset : Nat} {done : List Char}
    {e : Fault} (htext : f.text = done ++ text) (hoffset : offset = f.offset + Text.byteSize done)
    (h : decodeBody quote f.offset offset text = .error e) : FaultIn f e := by
  fun_induction decodeBody quote f.offset offset text generalizing done with
  | case1 =>
    obtain rfl := Except.error.inj h
    exact ⟨[], f.text, rfl, rfl, fun _ hbehind => by simp at hbehind⟩
  | case2 => simp at h
  | case3 offset rest hrest =>
    obtain rfl := Except.error.inj h
    refine ⟨done ++ [quote], rest, by simp [htext], ?_, fun behind hbehind => ?_⟩
    · rw [Text.byteSize_append, hoffset, Nat.add_assoc]
      rfl
    · exact (SyntaxCause.afterQuoted.inj hbehind).symm
  | case4 offset c rest hquote cause hread =>
    obtain rfl := Except.error.inj h
    exact ⟨done, c :: rest, htext, hoffset, fun behind hbehind =>
      absurd hbehind (ne_afterQuoted_of_readChar hread behind)⟩
  | case5 offset c rest hquote meant after hread hlength width =>
    rename_i ih
    -- what was read is what stands before the rest
    obtain ⟨front, -, hfront⟩ := spelling_of_readChar hquote hread
    have hwidth : width = Text.byteSize front := by
      show Text.byteSize ((c :: rest).take ((c :: rest).length - after.length)) = _
      rw [hfront, List.length_append, Nat.add_sub_cancel, List.take_left]
    have hafter : f.text = done ++ front ++ after := by rw [htext, hfront, List.append_assoc]
    refine ih hafter ?_ (map_eq_error.mp h)
    rw [hoffset, hwidth, Text.byteSize_append, Nat.add_assoc]

theorem faultIn_of_decode {f : Fragment} {e : Fault} (h : decode f = .error e) :
    FaultIn f e := by
  have hstart : ∀ cause, (∀ behind, cause ≠ SyntaxCause.afterQuoted behind) →
      FaultIn f ⟨cause, f.offset⟩ :=
    fun cause hcause => ⟨[], f.text, rfl, rfl, fun behind hb => absurd hb (hcause behind)⟩
  unfold decode at h
  split at h
  · rename_i c rest htext
    split at h
    · have hquote : f.text = [c] ++ rest := htext
      exact faultIn_of_decodeBody hquote rfl (map_eq_error.mp h)
    · rw [← Except.error.inj h]
      exact hstart _ nofun
  · rw [← Except.error.inj h]
    exact hstart _ nofun

/-- Reads a fragment that is one quoted string; a text behind it is quoted as a slice. -/
def decodeBytes (f : Fragment) : Slicing String :=
  match decode f with
  | .error ⟨.afterQuoted _, position⟩ => do
    let behind ← f.slice? position f.stop
    throw ⟨.afterQuoted behind.text, position⟩
  | outcome => .ofOutcome outcome

/-- **The text behind a quoted string is a slice.** -/
theorem decodeBytes_safe {f : Fragment} {source : List Char} (hf : f.Within source) :
    (decodeBytes f).Safe source (decode f) fun _ => True := by
  have hboundary : ∀ e, decode f = .error e → Text.Boundary source e.position := by
    intro e he
    obtain ⟨front, rest, htext, hposition, -⟩ := faultIn_of_decode he
    rw [hposition]
    exact hf.boundary_append htext
  unfold decodeBytes
  split
  · rename_i behind position hdecode
    obtain ⟨front, rest, htext, hposition, hcause⟩ := faultIn_of_decode hdecode
    obtain rfl := hcause behind rfl
    simp only at hposition
    subst hposition
    have hslice := Fragment.slice?_drop htext
    have hbehind : (f.drop front.length).text = behind := by
      rw [Fragment.drop, htext, List.drop_left]
    rw [hdecode]
    refine .slice hslice ?_
    rw [hbehind]
    exact .throw (hboundary _ hdecode)
  · exact .ofOutcome hboundary fun _ _ => trivial

end Quoted

end PathQuery
