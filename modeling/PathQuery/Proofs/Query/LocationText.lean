import PathQuery.Proofs.Path.StepText
import PathQuery.Proofs.Path.SelectorText
import PathQuery.Proofs.Query.Composition
import PathQuery.Proofs.Query.Provenance

/-! # The text of a location is a path to it

The text of a location names the accessors in brackets, one after the other.  Within the
quotes of a key it escapes the quote and the backslash only; to the scanner all other
characters are inert there, so the text is cut into its accessors whatever the keys are.
The reader of strings refuses control characters, so the text compiles exactly if no key
has one (`Path.compile_text_eq_ok`), and then it finds the one value at the location
(`Path.compile_location_text`).
-/

namespace PathQuery

/-! ## Escaped keys -/

namespace Quoted

/-- An escaped character is read as that character, unless it is a control character. -/
theorem readChar_escaped (c : Char) (rest : List Char) :
    readChar (Accessor.escaped c ++ rest) =
      if 0x1F < c.toNat then .ok (c, rest) else .error (.controlCharacter c) := by
  unfold Accessor.escaped
  split
  · rename_i hc
    rcases hc with rfl | rfl <;> rfl
  · rename_i hc
    rw [List.singleton_append, readChar_itself fun hbackslash => hc (Or.inr hbackslash)]
    by_cases hcontrol : c.toNat ≤ 0x1F
    · rw [if_pos hcontrol, if_neg (Nat.not_lt.mpr hcontrol)]
    · rw [if_neg hcontrol, if_pos (Nat.lt_of_not_le hcontrol)]

/-- An escaped character does not start with the quote. -/
theorem exists_escaped (c : Char) :
    ∃ d tail, Accessor.escaped c = d :: tail ∧ d ≠ '\'' := by
  unfold Accessor.escaped
  split
  · exact ⟨_, _, rfl, by decide⟩
  · rename_i hc
    exact ⟨c, [], rfl, fun hquote => hc (Or.inl hquote)⟩

theorem decodeBody_of_error {quote c : Char} {rest : List Char} {cause : SyntaxCause}
    (hc : c ≠ quote) (h : readChar (c :: rest) = .error cause) (start offset : Nat) :
    decodeBody quote start offset (c :: rest) = .error ⟨cause, offset⟩ := by
  rw [decodeBody, if_neg hc]
  split
  · rename_i cause' herror
    rw [Except.error.inj (herror.symm.trans h)]
  · rename_i hok
    cases hok.symm.trans h

/-- **An escaped text is read exactly if it has no control character**, and then as itself. -/
theorem decodeBody_escaped {text out : List Char} {start offset : Nat} :
    decodeBody '\'' start offset (text.flatMap Accessor.escaped ++ ['\'']) = .ok out ↔
      (∀ c ∈ text, 0x1F < c.toNat) ∧ out = text := by
  induction text generalizing offset out with
  | nil =>
    rw [List.flatMap_nil, List.nil_append, decodeBody]
    simp [eq_comm]
  | cons c rest ih =>
    obtain ⟨d, tail, hescaped, hd⟩ := exists_escaped c
    have hread := readChar_escaped c (rest.flatMap Accessor.escaped ++ ['\''])
    rw [List.flatMap_cons, List.append_assoc]
    rw [hescaped, List.cons_append] at hread ⊢
    by_cases hcontrol : 0x1F < c.toNat
    · rw [if_pos hcontrol] at hread
      obtain ⟨offset', hbody⟩ := decodeBody_of_readChar hd hread start offset
      rw [hbody, map_eq_ok]
      simp only [ih, List.forall_mem_cons]
      constructor
      · rintro ⟨later, ⟨hrest, rfl⟩, rfl⟩
        exact ⟨⟨hcontrol, hrest⟩, rfl⟩
      · rintro ⟨⟨-, hrest⟩, rfl⟩
        exact ⟨rest, ⟨hrest, rfl⟩, rfl⟩
    · rw [if_neg hcontrol] at hread
      rw [decodeBody_of_error hd hread]
      simp [hcontrol]

end Quoted

/-! ## Accessors -/

namespace Accessor

/-- The selector that goes where the accessor leads. -/
def selector : Accessor → Selector
  | .key name => .name name
  | .index i => .index (Int64.ofNat i)

/-- The text between the brackets. -/
def body : Accessor → List Char
  | .key name => '\'' :: (name.toList.flatMap escaped ++ ['\''])
  | .index i => Nat.toDigits 10 i

/-- The accessor has no control character. -/
def Printable : Accessor → Prop
  | .key name => ∀ c ∈ name.toList, 0x1F < c.toNat
  | .index _ => True

/-- An index is one of 64 bits with a sign. -/
def Short : Accessor → Prop
  | .key _ => True
  | .index i => i < 0x8000000000000000

theorem chars_eq (a : Accessor) : a.chars = NodeParts.bracketed a.body := by
  cases a with
  | key name => simp [chars, body, NodeParts.bracketed]
  | index i => rfl

theorem inert_escaped (c : Char) : Quoted.Inert '\'' (escaped c) := by
  unfold escaped
  split
  · exact Quoted.Inert.escaped
  · rename_i hc
    exact Quoted.Inert.char (fun h => hc (Or.inr h)) fun h => hc (Or.inl h)

/-- To the scanner, a key in its quotes is one flat piece, whatever it contains. -/
theorem flat_key (name : String) {grouping : Bool} {P : Char → Prop} :
    Flat grouping P (body (.key name)) := by
  refine Quoted.Inert.flat_quoted (Or.inl rfl) ?_
  induction name.toList with
  | nil => exact Quoted.Inert.nil
  | cons c rest ih =>
    rw [List.flatMap_cons]
    exact (inert_escaped c).append ih

theorem body_index {i : Nat} (h : i < 0x8000000000000000) :
    body (.index i) = Text.integerChars (Int64.ofNat i).toInt := by
  have hvalue : (Int64.ofNat i).toInt = i := Int64.toInt_ofNat_of_lt h
  simp [body, hvalue, Text.integerChars]

theorem closed_body (a : Accessor) : Closed false (fun _ => True) a.body := by
  cases a with
  | key name => exact (flat_key name).closed
  | index i =>
    refine closed_of_ordinary (fun c hc => ?_) fun _ _ => trivial
    exact (ordinary_of_isDigit (Text.isDigit_of_mem_toDigits hc)).of_true

end Accessor

namespace Compiler

variable {limit depth : Nat} {inner : Fragment} {s : Segment} {a : Accessor}

theorem trimmed_key (name : String) : Text.Trimmed (Accessor.body (.key name)) := by
  have hstart : StartsSolid (Accessor.body (.key name)) := ⟨'\'', rfl, by decide⟩
  have hend : EndsWith false (Accessor.body (.key name)) :=
    EndsWith.append ⟨'\'', rfl, by decide, by decide⟩ ('\'' :: name.toList.flatMap _)
  exact hstart.trimmed hend

/-- The text of a key is read as a name exactly if it has no control character. -/
theorem name_key {part : Fragment} {name : String} {selector : Selector}
    (h : part.text = Accessor.body (.key name)) : Compiler.name part = .ok selector ↔
      Accessor.Printable (.key name) ∧ selector = .name name := by
  have htrim := (trimmed_key name).text_trim h
  have hne : part.trim.text.isEmpty = false := by simp [htrim, Accessor.body]
  rw [Compiler.name, hne, if_neg Bool.false_ne_true, map_eq_ok, Quoted.decode, htrim]
  simp only [Accessor.body, true_or, if_true, map_eq_ok, Quoted.decodeBody_escaped]
  constructor
  · rintro ⟨_, ⟨_, ⟨hprintable, rfl⟩, rfl⟩, rfl⟩
    exact ⟨hprintable, by rw [String.ofList_toList]⟩
  · rintro ⟨hprintable, rfl⟩
    exact ⟨_, ⟨_, ⟨hprintable, rfl⟩, String.ofList_toList⟩, rfl⟩

/-- The text of a key is read as a segment exactly if it has no control character. -/
theorem segment_key {name : String} (h : inner.text = Accessor.body (.key name)) :
    segment limit depth inner = .ok s ↔
      Accessor.Printable (.key name) ∧ s = .mk [.name name] := by
  have htrim : inner.trim.text = Accessor.body (.key name) := (trimmed_key name).text_trim h
  -- a comma in the key is quoted, so the key is one part
  have hone : inner.trim.text = Accessor.body (.key name) ++ [].flatMap (',' :: ·) :=
    htrim.trans (List.append_nil _).symm
  obtain ⟨parts, hparts, htexts⟩ := Fragment.splitTop_join ordinary_comma hone fun t ht =>
    List.mem_singleton.mp ht ▸ (Accessor.flat_key name).closed
  obtain ⟨part, rest, rfl, hpart, hrest⟩ := List.map_eq_cons_iff.mp htexts
  obtain rfl := List.map_eq_nil_iff.mp hrest
  have hplain : plainSegment inner.trim = .ok s ↔
      Accessor.Printable (.key name) ∧ s = .mk [.name name] := by
    have hquote : inner.trim.text.head? = some '\'' := by rw [htrim]; rfl
    simp only [plainSegment, hquote, true_or, if_true, hparts, bind_eq_ok, Except.ok.injEq,
      exists_eq_left', mapM_eq_ok, List.forall₂_cons_left_iff, List.forall₂_nil_left_iff,
      name_key hpart]
    constructor
    · rintro ⟨_, ⟨_, _, ⟨hprintable, rfl⟩, rfl, rfl⟩, hs⟩
      exact ⟨hprintable, (Except.ok.inj hs).symm⟩
    · rintro ⟨hprintable, rfl⟩
      exact ⟨_, ⟨_, _, ⟨hprintable, rfl⟩, rfl, rfl⟩, rfl⟩
  rw [segment_eq_ok, ← hplain, htrim]
  simp [Accessor.body]

/-- **The text of an accessor is read exactly if it has no control character**, and then as
the selector that goes where the accessor leads. -/
theorem segment_accessor (hshort : a.Short) (h : inner.text = a.body) :
    segment limit depth inner = .ok s ↔ a.Printable ∧ s = .mk [a.selector] := by
  cases a with
  | key name => exact segment_key h
  | index i =>
    have hread : segment limit depth inner = .ok (.mk [Accessor.selector (.index i)]) :=
      @segment_indexTexts _ _ _ _ [] (by simp [h, Accessor.body_index hshort])
    rw [hread, Except.ok.injEq, eq_comm]
    exact ⟨fun hs => ⟨trivial, hs⟩, And.right⟩

/-- Accessors are read one by one. -/
theorem segments_accessors {l : Location} (hshort : ∀ a ∈ l, a.Short) {parts : List Fragment}
    (h : parts.map Fragment.text = l.map Accessor.body) {segments : List Segment} :
    parts.mapM (segment limit depth) = .ok segments ↔
      (∀ a ∈ l, a.Printable) ∧ segments = l.map fun a => .mk [a.selector] := by
  rw [mapM_eq_ok]
  induction l generalizing parts segments with
  | nil =>
    obtain rfl := List.map_eq_nil_iff.mp h
    simp
  | cons a l ih =>
    obtain ⟨part, later, rfl, hpart, hlater⟩ := List.map_eq_cons_iff.mp h
    rw [List.forall_mem_cons] at hshort
    simp only [List.forall₂_cons_left_iff, ih hshort.2 hlater, segment_accessor hshort.1 hpart,
      List.forall_mem_cons, List.map_cons]
    constructor
    · rintro ⟨s, rest, ⟨ha, rfl⟩, ⟨hl, rfl⟩, rfl⟩
      exact ⟨⟨ha, hl⟩, rfl⟩
    · rintro ⟨⟨ha, hl⟩, rfl⟩
      exact ⟨_, _, ⟨ha, rfl⟩, ⟨hl, rfl⟩, rfl⟩

end Compiler

/-! ## Locations -/

/-- Every array of the document has fewer elements than there are indexes of 64 bits. -/
def Json.ShortArrays (doc : Json) : Prop :=
  ∀ l items, doc.valueAt? l = some (.array items) → items.length < 0x8000000000000000

namespace Json

/-- The indexes on the way to a value are those of elements. -/
theorem short_of_valueAt? {doc v : Json} {l : Location} (hdoc : doc.ShortArrays)
    (h : doc.valueAt? l = some v) : ∀ a ∈ l, a.Short := by
  intro a ha
  obtain ⟨above, below, rfl⟩ := List.append_of_mem ha
  rw [valueAt?_append] at h
  obtain ⟨outer, houter, h⟩ := Option.bind_eq_some_iff.mp h
  obtain ⟨child, hchild, -⟩ := Option.bind_eq_some_iff.mp h
  cases a with
  | key name => trivial
  | index i =>
    cases outer with
    | array items =>
      obtain ⟨hi, -⟩ := List.getElem?_eq_some_iff.mp hchild
      exact Nat.lt_trans hi (hdoc above items houter)
    | _ => simp [get?, getIndex?] at hchild

theorem length_le_itemsSize (items : List Json) : items.length ≤ itemsSize items := by
  induction items with
  | nil => exact Nat.le_refl _
  | cons v rest ih =>
    have := v.size_pos
    rw [itemsSize, List.length_cons]
    omega

theorem size_le_itemsSize {items : List Json} {v : Json} (h : v ∈ items) :
    v.size ≤ itemsSize items := by
  induction items with
  | nil => simp at h
  | cons w rest ih =>
    rw [itemsSize]
    rcases List.mem_cons.mp h with rfl | h
    · exact Nat.le_add_right _ _
    · exact Nat.le_trans (ih h) (Nat.le_add_left _ _)

theorem size_le_membersSize {members : List (String × Json)} {p : String × Json}
    (h : p ∈ members) : p.2.size ≤ membersSize members := by
  induction members with
  | nil => simp at h
  | cons q rest ih =>
    rw [membersSize]
    rcases List.mem_cons.mp h with rfl | h
    · exact Nat.le_add_right _ _
    · exact Nat.le_trans (ih h) (Nat.le_add_left _ _)

theorem size_le_of_get? {doc child : Json} {a : Accessor} (h : doc.get? a = some child) :
    child.size ≤ doc.size := by
  cases a with
  | key name =>
    cases doc with
    | object members =>
      have hle := size_le_membersSize (mem_of_lookup h)
      exact Nat.le_succ_of_le hle
    | _ => simp [get?, getKey?] at h
  | index i =>
    cases doc with
    | array items =>
      have hle := size_le_itemsSize (List.mem_of_getElem? h)
      exact Nat.le_succ_of_le hle
    | _ => simp [get?, getIndex?] at h

theorem size_le_of_valueAt? {doc v : Json} {l : Location} (h : doc.valueAt? l = some v) :
    v.size ≤ doc.size := by
  induction l generalizing doc with
  | nil => exact Nat.le_of_eq (congrArg size (Option.some.inj h).symm)
  | cons a l ih =>
    obtain ⟨child, hchild, hv⟩ := Option.bind_eq_some_iff.mp h
    exact Nat.le_trans (ih hv) (size_le_of_get? hchild)

/-- The arrays of a small document are short. -/
theorem shortArrays_of_size {doc : Json} (h : doc.size < 0x8000000000000000) :
    doc.ShortArrays := by
  intro l items hl
  have hsize : itemsSize items + 1 ≤ doc.size := size_le_of_valueAt? hl
  have := length_le_itemsSize items
  omega

end Json

/-- The selector of an accessor finds what is behind the accessor. -/
theorem Accessor.select_selector {a : Accessor} (hshort : a.Short) {m : Match} {v : Json}
    (h : m.value.get? a = some v) : m.select a.selector = [m.below a v] := by
  cases a with
  | key name =>
    have hget : m.value.getKey? name = some v := h
    simp [selector, Match.select, Match.childByKey?, hget]
  | index i =>
    have hget : m.value.getIndex? i = some v := h
    cases hv : m.value with
    | array items =>
      rw [hv] at hget
      obtain ⟨hi, -⟩ := List.getElem?_eq_some_iff.mp hget
      have hplace : placeOf (Int64.ofNat i) items.length = some i := by
        have hvalue : (Int64.ofNat i).toInt = i := Int64.toInt_ofNat_of_lt hshort
        simp [placeOf, hvalue, hi]
      simp [selector, Match.select, Match.childAt?, hv, Json.length?, hplace, hget]
    | _ => simp [hv, Json.getIndex?] at hget

/-- The selectors of a location lead to the value there and to nothing else. -/
theorem Segment.through_location {limit : Nat} {root v : Json} {l : Location} {m : Match}
    (hshort : ∀ a ∈ l, a.Short) (h : m.value.valueAt? l = some v) :
    through limit root (l.map fun a => .mk [a.selector]) [m] = .ok [⟨m.location ++ l, v⟩] := by
  induction l generalizing m with
  | nil =>
    obtain rfl := Option.some.inj h
    simp
  | cons a l ih =>
    rw [List.forall_mem_cons] at hshort
    obtain ⟨child, hchild, hv⟩ := Option.bind_eq_some_iff.mp h
    have hfind : Selector.find limit root a.selector m = .ok [m.below a child] := by
      rw [← Accessor.select_selector hshort.1 hchild]
      cases a <;> simp [Accessor.selector, Selector.find]
    have hunion : Selector.union limit root [a.selector] m = .ok [m.below a child] := by
      rw [Selector.union, hfind, Selector.union]
      rfl
    have hgather : gather (Selector.union limit root [a.selector]) [m] =
        .ok [m.below a child] := by
      simp [gather, hunion, Except.map]
    have hrest := ih hshort.2 (m := m.below a child) hv
    rw [Match.below, List.append_assoc, List.singleton_append] at hrest
    rw [List.map_cons, through, hgather]
    exact hrest

namespace Path

/-- The text of a location compiles exactly if no accessor has a control character, and to
the path of its selectors. -/
theorem compile_text_eq_ok {limits : Options} {l : Location} (hshort : ∀ a ∈ l, a.Short)
    {q : Path} : compile limits l.text = .ok q ↔
      (∀ a ∈ l, a.Printable) ∧ q = .mk .root (l.map fun a => .mk [a.selector]) [] l.text := by
  have htext : l.text.toList = '$' :: (l.map Accessor.body).flatMap NodeParts.bracketed := by
    rw [Location.text, String.toList_ofList, Location.chars, List.flatMap_map]
    exact congrArg _ (List.flatMap_congr fun a _ => a.chars_eq)
  obtain ⟨parts, hparts, hpath⟩ := Compiler.path_bracketed limits.maxDepth 0
    (f := ⟨l.text.toList, 0⟩) htext fun t ht => by
      obtain ⟨a, -, rfl⟩ := List.mem_map.mp ht
      exact a.closed_body
  have hsource : Fragment.toString ⟨l.text.toList, 0⟩ = l.text := String.ofList_toList
  rw [compile_eq_ok, hpath, hsource]
  simp only [Compiler.segments_accessors hshort hparts]
  constructor
  · rintro ⟨_, ⟨hprintable, rfl⟩, rfl⟩
    exact ⟨hprintable, rfl⟩
  · rintro ⟨hprintable, rfl⟩
    exact ⟨_, ⟨hprintable, rfl⟩, rfl⟩

/-- **The text of a location is a path to it.**  For every match of a query, the text of its
location compiles exactly if no key on the way has a control character; and the path that
it compiles to finds in the document that match and nothing else. -/
theorem compile_location_text {options : Options} {p : Path} {doc : Json} {found : List Match}
    (hd : doc.DistinctKeys) (harrays : doc.ShortArrays) (h : p.query options doc = .ok found) :
    ∀ m ∈ found, ∀ limits,
      ((∃ q, compile limits m.location.text = .ok q) ↔
        ∀ name, .key name ∈ m.location → ∀ c ∈ name.toList, 0x1F < c.toNat) ∧
      ∀ q, compile limits m.location.text = .ok q →
        ∀ other, q.query other doc = .ok [m] := by
  intro m hm limits
  have hlocated : doc.valueAt? m.location = some m.value := query_located hd h m hm
  have hshort := Json.short_of_valueAt? harrays hlocated
  refine ⟨?_, fun q hq other => ?_⟩
  · simp only [compile_text_eq_ok hshort, exists_and_left, exists_eq, and_true]
    refine ⟨fun hall name hname => hall _ hname, fun hall a ha => ?_⟩
    cases a with
    | key name => exact hall name ha
    | index i => trivial
  · obtain ⟨-, rfl⟩ := (compile_text_eq_ok hshort).mp hq
    rw [query_mk, Segment.through_location hshort hlocated]
    simp [bind, Except.bind]

/-- Keys with quotes, a backslash, brackets, dots, operators and letters of other scripts
are addressed by the text of their locations; a key with a line break is not. -/
theorem compile_location_text_quoted :
    let n (i : Int64) : Json := .number (.ofInt64 i)
    let doc : Json := .object [("it's", .object [("]..[\\ || \"é\"", .array [n 1, n 2])]),
      ("a\nb", n 3)]
    doc.DistinctKeys ∧ doc.ShortArrays ∧ ∃ p found, compile {} "$..*" = .ok p ∧
      p.query {} doc = .ok found ∧ found.length = 5 ∧
      ∀ m ∈ found, ((∃ q, compile {} m.location.text = .ok q) ↔ m.location ≠ [.key "a\nb"]) ∧
        ∀ q, compile {} m.location.text = .ok q → q.query {} doc = .ok [m] := by
  intro n doc
  have hd : doc.DistinctKeys := by
    simp [doc, n, Json.DistinctKeys, Json.ItemsDistinctKeys, Json.MembersDistinctKeys]
  have harrays : doc.ShortArrays := Json.shortArrays_of_size (by decide)
  have heval : ((compile {} "$..*").toOption.any fun p =>
      (p.query {} doc).toOption.any fun found => found.map Match.location =
        [[.key "it's"], [.key "it's", .key "]..[\\ || \"é\""],
          [.key "it's", .key "]..[\\ || \"é\"", .index 0],
          [.key "it's", .key "]..[\\ || \"é\"", .index 1], [.key "a\nb"]]) = true := by
    decide +kernel
  obtain ⟨p, hp, hinner⟩ := exists_of_any heval
  obtain ⟨found, hq, hlocations⟩ := exists_of_any hinner
  have hfound := of_decide_eq_true hlocations
  refine ⟨hd, harrays, p, found, hp, hq, ?_, fun m hm => ?_⟩
  · simpa using congrArg List.length hfound
  · obtain ⟨hcompiles, hquery⟩ := compile_location_text hd harrays hq m hm {}
    refine ⟨hcompiles.trans ?_, fun q hq => hquery q hq {}⟩
    have hmem := List.mem_map_of_mem (f := Match.location) hm
    rw [hfound] at hmem
    generalize m.location = l at hmem
    simp only [List.mem_cons, List.not_mem_nil, or_false] at hmem
    rcases hmem with rfl | rfl | rfl | rfl | rfl <;> simp

end Path
end PathQuery
