import PathQuery.Proofs.Path.Nesting
import PathQuery.Proofs.Path.Slicing

/-! # The places of marks and of faults

The marks of a scanned fragment carry the byte offsets of its characters, one after the
other (`Fragment.Marked`), so what stands between two of them is a slice of the fragment.
The scanner finds a fault in front of a character or where something was opened, both at
boundaries (`Fragment.boundary_of_scan`).
-/

namespace PathQuery

/-! ## Where the scanner is -/

namespace ScanState

variable {grouping plain : Bool} {s t : ScanState} {offset : Nat} {c : Char} {e : Fault}

/-- Where something stands that is open. -/
def offsets (s : ScanState) : List Nat :=
  (s.quote.toList.map Prod.snd ++ s.escape.toList) ++ (s.brackets ++ s.parens)

theorem offsets_stepPlain (h : s.stepPlain grouping offset c = .ok t) :
    t.offsets ⊆ offset :: s.offsets := by
  intro o ho
  unfold stepPlain at h
  split at h
  · obtain rfl := Except.ok.inj h
    simp only [offsets, List.mem_append, List.mem_cons] at ho ⊢
    tauto
  · split at h
    · split at h
      · simp at h
      · rename_i outer hbrackets
        obtain rfl := Except.ok.inj h
        simp only [offsets, List.mem_append, hbrackets, List.mem_cons] at ho ⊢
        tauto
    · split at h
      · obtain rfl := Except.ok.inj h
        simp only [offsets, List.mem_append, List.mem_cons] at ho ⊢
        tauto
      · split at h
        · split at h
          · simp at h
          · rename_i outer hparens
            obtain rfl := Except.ok.inj h
            simp only [offsets, List.mem_append, hparens, List.mem_cons] at ho ⊢
            tauto
        · exact List.mem_cons_of_mem _ (Except.ok.inj h ▸ ho)

/-- What is opened is opened at the character. -/
theorem offsets_step (h : s.step grouping offset c = .ok (t, plain)) :
    t.offsets ⊆ offset :: s.offsets := by
  intro o ho
  unfold step at h
  split at h
  · obtain ⟨rfl, -⟩ := Prod.mk.inj (Except.ok.inj h)
    simp only [offsets, List.mem_append, List.mem_cons, Option.toList_none,
      List.not_mem_nil] at ho ⊢
    tauto
  · split at h
    · obtain ⟨rfl, -⟩ := Prod.mk.inj (Except.ok.inj h)
      simp only [offsets, List.mem_append, List.mem_cons, Option.toList_some,
        List.not_mem_nil] at ho ⊢
      tauto
    · split at h
      · obtain ⟨rfl, -⟩ := Prod.mk.inj (Except.ok.inj h)
        split at ho
        · simp only [offsets, List.mem_append, List.mem_cons, Option.toList_none, List.map_nil,
            List.not_mem_nil] at ho ⊢
          tauto
        · exact List.mem_cons_of_mem _ ho
      · split at h
        · obtain ⟨rfl, -⟩ := Prod.mk.inj (Except.ok.inj h)
          simp only [offsets, List.mem_append, List.mem_cons, Option.toList_some, List.map_cons,
            List.map_nil, List.not_mem_nil] at ho ⊢
          tauto
        · obtain ⟨after, hafter, heq⟩ := map_eq_ok.mp h
          obtain ⟨rfl, -⟩ := Prod.mk.inj heq
          exact offsets_stepPlain hafter ho

theorem position_of_step (h : s.step grouping offset c = .error e) : e.position = offset := by
  unfold step stepPlain at h
  grind [Except.map]

theorem position_of_finish (h : s.finish = some e) : e.position ∈ s.offsets := by
  unfold finish at h
  split at h
  · rename_i hquote
    obtain rfl := Option.some.inj h
    simp [offsets, hquote]
  · split at h
    · rename_i hescape
      obtain rfl := Option.some.inj h
      simp [offsets, hescape]
    · split at h
      · rename_i first rest hbrackets
        obtain rfl := Option.some.inj h
        have hmem : first ∈ s.brackets := List.mem_reverse.mp (hbrackets ▸ List.mem_cons_self ..)
        simp [offsets, hmem]
      · split at h
        · rename_i first rest hparens
          obtain rfl := Option.some.inj h
          have hmem : first ∈ s.parens := List.mem_reverse.mp (hparens ▸ List.mem_cons_self ..)
          simp [offsets, hmem]
        · simp at h

end ScanState

namespace Scan

variable {grouping : Bool} {s : ScanState} {offset : Nat} {text : List Char} {e : Fault}

/-- The scanner finds its fault in front of a character, or where something is open. -/
theorem position_of_run (h : (run grouping s offset text).fault = some e) :
    e.position ∈ s.offsets ∨
      ∃ front rest, text = front ++ rest ∧ e.position = offset + Text.byteSize front := by
  induction text generalizing s offset with
  | nil => exact Or.inl (ScanState.position_of_finish h)
  | cons c rest ih =>
    rw [run] at h
    split at h
    · rename_i fault hstep
      obtain rfl := Option.some.inj h
      exact Or.inr ⟨[], c :: rest, rfl, ScanState.position_of_step hstep⟩
    · rename_i after plain hstep
      rcases ih h with hopen | ⟨front, behind, rfl, hposition⟩
      · rcases List.mem_cons.mp (ScanState.offsets_step hstep hopen) with hhere | hbefore
        · exact Or.inr ⟨[], c :: rest, rfl, hhere⟩
        · exact Or.inl hbefore
      · refine Or.inr ⟨c :: front, behind, rfl, ?_⟩
        rw [hposition, Text.byteSize_cons, Nat.add_assoc]

end Scan

/-- The scanner finds its faults at boundaries. -/
theorem Fragment.boundary_of_scan {f : Fragment} {source : List Char} {grouping : Bool}
    {e : Fault} (hf : f.Within source) (h : (f.scan grouping).fault = some e) :
    Text.Boundary source e.position := by
  rcases Scan.position_of_run h with hopen | ⟨front, rest, htext, hposition⟩
  · simp [ScanState.offsets, ScanState.initial] at hopen
  · rw [hposition]
    exact hf.boundary_append htext

/-- Looking for the fault of a scan is safe, and without one the scan went to the end. -/
theorem Fragment.check_safe {f : Fragment} {source : List Char} {grouping : Bool}
    (hf : f.Within source) : (Slicing.ofOutcome (f.scan grouping).check).Safe source
      (f.scan grouping).check fun _ => (f.scan grouping).fault = none := by
  unfold Scan.check
  split
  · rename_i e he
    exact .throw (boundary_of_scan hf he)
  · rename_i hnone
    exact .pure hnone

/-! ## Marks in their places -/

/-- The marks have the offsets of their characters in a text that goes on at `offset`. -/
def Mark.LaidOut (offset : Nat) : List Mark → Prop
  | [] => True
  | m :: rest => m.offset = offset ∧ LaidOut (offset + m.char.utf8Size) rest

theorem Scan.laidOut_run (grouping : Bool) (s : ScanState) (offset : Nat) (text : List Char) :
    Mark.LaidOut offset (run grouping s offset text).marks ∧
      ∃ tail, text = (run grouping s offset text).marks.map Mark.char ++ tail ∧
        ((run grouping s offset text).fault = none → tail = []) := by
  induction text generalizing s offset with
  | nil => exact ⟨trivial, [], rfl, fun _ => rfl⟩
  | cons c rest ih =>
    rw [run]
    split
    · exact ⟨trivial, c :: rest, rfl, fun hnone => by cases hnone⟩
    · rename_i after plain hstep
      obtain ⟨hplaces, tail, htext, hend⟩ := ih after (offset + c.utf8Size)
      exact ⟨⟨rfl, hplaces⟩, tail, congrArg (c :: ·) htext, hend⟩

namespace Fragment

/-- The fragment consists of a part that is done, of the characters of the marks, which are
in their places, and of a rest without marks. -/
structure Marked (f : Fragment) (done : List Char) (marks : List Mark) (rest : List Char) :
    Prop where
  text : f.text = done ++ (marks.map Mark.char ++ rest)
  places : Mark.LaidOut (f.offset + Text.byteSize done) marks

variable {f : Fragment} {done part rest : List Char} {m : Mark} {marks : List Mark}

/-- The marks of a scan are in their places, and without a fault there is one for every
character. -/
theorem marked_scan (f : Fragment) (grouping : Bool) :
    ∃ rest, f.Marked [] (f.scan grouping).marks rest ∧
      ((f.scan grouping).fault = none → rest = []) := by
  obtain ⟨hplaces, rest, htext, hend⟩ := Scan.laidOut_run grouping .initial f.offset f.text
  exact ⟨rest, ⟨htext, hplaces⟩, hend⟩

namespace Marked

theorem offset_eq (h : f.Marked done (m :: marks) rest) :
    m.offset = f.offset + Text.byteSize done :=
  h.places.1

theorem behind_eq (h : f.Marked done (m :: marks) rest) :
    m.offset + m.char.utf8Size = f.offset + Text.byteSize (done ++ [m.char]) := by
  rw [h.offset_eq, Text.byteSize_append, Nat.add_assoc]
  rfl

/-- Goes over one mark. -/
theorem next (h : f.Marked done (m :: marks) rest) : f.Marked (done ++ [m.char]) marks rest where
  text := by simp [h.text]
  places := by simpa [Nat.add_assoc] using h.places.2

theorem append {front back : List Mark} (h : f.Marked done (front ++ back) rest) :
    f.Marked (done ++ front.map Mark.char) back rest := by
  induction front generalizing done with
  | nil => simpa using h
  | cons m tail ih => simpa using ih h.next

/-- The part before a mark is the slice that ends at the mark. -/
theorem slice?_eq (h : f.Marked (done ++ part) (m :: marks) rest) :
    f.slice? (f.offset + Text.byteSize done) m.offset =
      some ⟨part, f.offset + Text.byteSize done⟩ := by
  refine slice?_append h.text rfl ?_
  rw [h.offset_eq, Text.byteSize_append, Nat.add_assoc]

/-- All that stands before a mark is the slice from the start. -/
theorem slice?_front (h : f.Marked part (m :: marks) rest) :
    f.slice? f.offset m.offset = some ⟨part, f.offset⟩ :=
  slice?_eq (show f.Marked ([] ++ part) (m :: marks) rest from h)

/-- The part behind the last mark is the slice up to the end. -/
theorem slice?_stop (h : f.Marked (done ++ part) [] rest) :
    f.slice? (f.offset + Text.byteSize done) f.stop =
      some ⟨part ++ rest, f.offset + Text.byteSize done⟩ := by
  have htext : f.text = done ++ (part ++ rest) ++ [] := by simp [h.text]
  refine slice?_append htext rfl ?_
  rw [Fragment.stop, h.text]
  simp [Nat.add_assoc]

/-- All of the fragment is the slice from the start up to the end. -/
theorem slice?_all (h : f.Marked part [] rest) :
    f.slice? f.offset f.stop = some ⟨part ++ rest, f.offset⟩ :=
  slice?_stop (show f.Marked ([] ++ part) [] rest from h)

theorem boundary {source : List Char} (h : f.Marked done (m :: marks) rest)
    (hf : f.Within source) : Text.Boundary source m.offset := by
  rw [h.offset_eq]
  exact hf.boundary_append h.text

end Marked
end Fragment

end PathQuery
