import PathQuery.Text.Fragment

/-! # Slices by byte offsets

A fragment knows where it starts in its text, in bytes of UTF-8, and the texts that a
program cuts out of it are named by such offsets.  `Fragment.slice?` takes the bytes between
two offsets: there is nothing to take if an offset is out of range or lies within a
character.  `Boundary` says that an offset is neither.
-/

namespace PathQuery
namespace Text

variable {text front rest : List Char} {n : Nat}

theorem byteSize_pos {c : Char} : 0 < byteSize (c :: text) := by
  have := c.utf8Size_pos
  rw [byteSize_cons]
  omega

/-- The bytes that are counted here are those of the string. -/
theorem byteSize_eq (text : List Char) : byteSize text = (String.ofList text).utf8ByteSize := by
  induction text with
  | nil => rfl
  | cons c rest ih =>
    have hcons : String.ofList (c :: rest) = String.singleton c ++ String.ofList rest := by
      rw [String.singleton_eq_ofList, ← String.ofList_append]
      rfl
    rw [byteSize_cons, ih, hcons, String.utf8ByteSize_append, String.utf8ByteSize_singleton]

/-- The first `n` bytes of the text and what stands behind them, if the text has as many and
a character ends there. -/
def splitBytes? : Nat → List Char → Option (List Char × List Char)
  | 0, text => some ([], text)
  | _ + 1, [] => none
  | n + 1, c :: rest =>
    if c.utf8Size ≤ n + 1 then
      (splitBytes? (n + 1 - c.utf8Size) rest).map fun (front, behind) => (c :: front, behind)
    else none

theorem splitBytes?_append (front rest : List Char) :
    splitBytes? (byteSize front) (front ++ rest) = some (front, rest) := by
  induction front with
  | nil => rw [byteSize_nil, List.nil_append, splitBytes?]
  | cons c front ih =>
    have hpos : 0 < byteSize (c :: front) := byteSize_pos
    obtain ⟨n, hn⟩ := Nat.exists_eq_add_one_of_ne_zero (Nat.ne_of_gt hpos)
    have hsize := byteSize_cons c front
    have hle : c.utf8Size ≤ n + 1 := by omega
    have hleft : n + 1 - c.utf8Size = byteSize front := by omega
    rw [hn, List.cons_append, splitBytes?, if_pos hle, hleft, ih]
    rfl

theorem splitBytes?_eq_some :
    splitBytes? n text = some (front, rest) ↔ text = front ++ rest ∧ n = byteSize front := by
  refine ⟨fun h => ?_, fun ⟨htext, hn⟩ => htext ▸ hn ▸ splitBytes?_append front rest⟩
  fun_induction splitBytes? n text generalizing front with
  | case1 text =>
    obtain ⟨rfl, rfl⟩ := Prod.mk.inj (Option.some.inj h)
    exact ⟨rfl, rfl⟩
  | case2 => simp at h
  | case3 n c tail hle ih =>
    obtain ⟨⟨taken, behind⟩, htaken, heq⟩ := Option.map_eq_some_iff.mp h
    obtain ⟨rfl, rfl⟩ := Prod.mk.inj heq
    obtain ⟨rfl, hn⟩ := ih htaken
    refine ⟨rfl, ?_⟩
    rw [byteSize_cons]
    omega
  | case4 => simp at h

/-- The offset is in range and no character goes across it. -/
def Boundary (text : List Char) (n : Nat) : Prop :=
  ∃ front rest, text = front ++ rest ∧ n = byteSize front

/-- The boundaries of a string are the positions that are valid in it. -/
theorem Boundary.isValid {s : String} (h : Boundary s.toList n) :
    n ≤ s.utf8ByteSize ∧ String.Pos.Raw.IsValid s ⟨n⟩ := by
  obtain ⟨front, rest, htext, rfl⟩ := h
  have hs : s = String.ofList front ++ String.ofList rest := by
    rw [← String.ofList_append, ← htext, String.ofList_toList]
  refine ⟨?_, String.Pos.Raw.isValid_iff_exists_append.mpr ⟨_, _, hs, ?_⟩⟩
  · rw [hs, String.utf8ByteSize_append, ← byteSize_eq]
    exact Nat.le_add_right _ _
  · rw [byteSize_eq]
    rfl

end Text

namespace Fragment

/-- Where the fragment ends. -/
def stop (f : Fragment) : Nat :=
  f.offset + Text.byteSize f.text

/-- The bytes of the fragment from `start` up to `stop`, counted like the fragment's own
offset; nothing if these are no boundaries in it. -/
def slice? (f : Fragment) (start stop : Nat) : Option Fragment :=
  if f.offset ≤ start ∧ start ≤ stop then do
    let (_, behind) ← Text.splitBytes? (start - f.offset) f.text
    let (piece, _) ← Text.splitBytes? (stop - start) behind
    return ⟨piece, start⟩
  else none

/-! A slice may not start within a character, nor go beyond the end. -/

example : slice? ⟨"é]a".toList, 4⟩ 6 7 = some ⟨"]".toList, 6⟩ := by decide
example : slice? ⟨"é]a".toList, 4⟩ 5 7 = none := by decide
example : slice? ⟨"é]a".toList, 4⟩ 6 9 = none := by decide

variable {f piece : Fragment} {source before middle after : List Char} {start stop : Nat}

/-- **What a slice is**: a piece of the text, from the one offset to the other. -/
theorem slice?_eq_some : f.slice? start stop = some piece ↔
    ∃ before after, f.text = before ++ piece.text ++ after ∧
      start = f.offset + Text.byteSize before ∧ piece.offset = start ∧ stop = piece.stop := by
  constructor
  · intro h
    unfold slice? at h
    split at h
    · rename_i hle
      obtain ⟨⟨before, behind⟩, hbehind, h⟩ := Option.bind_eq_some_iff.mp h
      obtain ⟨⟨taken, after⟩, htaken, h⟩ := Option.bind_eq_some_iff.mp h
      obtain rfl := Option.some.inj h
      obtain ⟨hbefore, hstart⟩ := Text.splitBytes?_eq_some.mp hbehind
      obtain ⟨rfl, hstop⟩ := Text.splitBytes?_eq_some.mp htaken
      refine ⟨before, after, ?_, ?_, rfl, ?_⟩
      · rw [hbefore, List.append_assoc]
      · omega
      · simp only [Fragment.stop]
        omega
    · simp at h
  · rintro ⟨before, after, htext, rfl, hoffset, rfl⟩
    have hbehind : Text.splitBytes? (Text.byteSize before) f.text =
        some (before, piece.text ++ after) := by
      rw [htext, List.append_assoc]
      exact Text.splitBytes?_append _ _
    have hle : f.offset ≤ f.offset + Text.byteSize before ∧
        f.offset + Text.byteSize before ≤ piece.stop := by
      rw [Fragment.stop, hoffset]
      exact ⟨Nat.le_add_right _ _, Nat.le_add_right _ _⟩
    have hsize : piece.stop - (f.offset + Text.byteSize before) = Text.byteSize piece.text := by
      rw [Fragment.stop, hoffset, Nat.add_sub_cancel_left]
    rw [slice?, if_pos hle, Nat.add_sub_cancel_left, hbehind, hsize]
    simp [Text.splitBytes?_append, ← hoffset]

/-- The slice of what stands between two parts of a text. -/
theorem slice?_append (h : f.text = before ++ middle ++ after)
    (hstart : start = f.offset + Text.byteSize before)
    (hstop : stop = start + Text.byteSize middle) : f.slice? start stop = some ⟨middle, start⟩ :=
  slice?_eq_some.mpr ⟨before, after, h, hstart, rfl, hstop⟩

/-- What `take` gives is the slice from the start up to the end of those characters. -/
theorem slice?_take (h : f.text = before ++ after) :
    f.slice? f.offset (f.offset + Text.byteSize before) = some (f.take before.length) := by
  rw [take, h, List.take_left]
  exact slice?_append (show f.text = [] ++ before ++ after from h) rfl rfl

/-- What `drop` gives is the slice from the end of those characters. -/
theorem slice?_drop (h : f.text = before ++ after) :
    f.slice? (f.offset + Text.byteSize before) f.stop = some (f.drop before.length) := by
  rw [drop, h, List.drop_left, List.take_left]
  have htext : f.text = before ++ after ++ [] := h.trans (List.append_nil _).symm
  refine slice?_append htext rfl ?_
  rw [Fragment.stop, h, Text.byteSize_append, Nat.add_assoc]

/-- Every fragment is one of some text. -/
theorem exists_within (f : Fragment) : ∃ source, f.Within source := by
  refine ⟨List.replicate f.offset 'a' ++ f.text, List.replicate f.offset 'a', [], by simp, ?_⟩
  induction f.offset with
  | zero => rfl
  | succ n ih =>
    rw [List.replicate_succ, Text.byteSize_cons, ← ih]
    exact Nat.add_comm _ _

/-- A fragment of a text is the slice of the text that starts at its offset. -/
theorem within_iff_slice? :
    f.Within source ↔ slice? ⟨source, 0⟩ f.offset f.stop = some f := by
  rw [slice?_eq_some]
  simp [Within]

/-- A slice of a fragment of a text is a fragment of that text. -/
theorem Within.slice? (h : f.Within source) (hslice : f.slice? start stop = some piece) :
    piece.Within source := by
  obtain ⟨front, rest, rfl, hoffset⟩ := h
  obtain ⟨before, after, htext, hstart, hpiece, -⟩ := slice?_eq_some.mp hslice
  refine ⟨front ++ before, after ++ rest, by simp [htext], ?_⟩
  rw [hpiece, hstart, hoffset, Text.byteSize_append]

/-- A fragment of a text starts at a boundary, and so does what stands behind some of its
characters. -/
theorem Within.boundary_append (h : f.Within source) (htext : f.text = before ++ after) :
    Text.Boundary source (f.offset + Text.byteSize before) := by
  obtain ⟨front, rest, rfl, hoffset⟩ := h
  refine ⟨front ++ before, after ++ rest, by simp [htext], ?_⟩
  rw [hoffset, Text.byteSize_append]

theorem Within.boundary (h : f.Within source) : Text.Boundary source f.offset :=
  h.boundary_append (show f.text = [] ++ f.text from rfl)

end Fragment
end PathQuery
