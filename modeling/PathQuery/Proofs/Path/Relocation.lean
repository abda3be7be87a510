import PathQuery.Proofs.Agreement
import PathQuery.Proofs.Path.Bytewise
import PathQuery.Proofs.Path.Placement
import PathQuery.Proofs.Path.QuotedText

/-! # Compiling the same text in another place

What a fragment is compiled to does not depend on the place where it stands: offsets are
handed on only for the sake of errors.  It depends on the depth only as far as there has to be
room for it.  So a text that compiles in one place compiles to the same in every other place
that leaves as much room below the limit (`Compiler.expression_relocated`).
-/

namespace PathQuery

/-! ## Constants, and selectors other than filters -/

/-- If the first computation has a result, the second has a related one. -/
abbrev Follows {α β : Type} (R : α → β → Prop) (x : Except Fault α) (y : Except Fault β) : Prop :=
  Agree (fun _ => True) R x y

namespace Follows

variable {α β : Type} {R : α → β → Prop} {x : Except Fault α} {y : Except Fault β}

theorem of_ok (h : ∀ a, x = .ok a → ∃ b, y = .ok b ∧ R a b) : Follows R x y := by
  cases x with
  | error e => exact .excused trivial y
  | ok a =>
    obtain ⟨b, rfl, hab⟩ := h a rfl
    exact .ok hab

/-- Computations on the members of two lists. -/
theorem mapM {γ : Type} {as : List α} {bs : List β} {f : α → Except Fault γ}
    {g : β → Except Fault γ} (h : List.Forall₂ R as bs)
    (heach : ∀ a ∈ as, ∀ b, R a b → Follows Eq (f a) (g b)) :
    Follows Eq (as.mapM f) (bs.mapM g) := by
  have hmembers : List.Forall₂ (fun a b => a ∈ as ∧ R a b) as bs :=
    (List.forall₂_and_left as bs).mpr ⟨fun _ ha => ha, h⟩
  have hall := Agree.mapM (S := Eq) (hmembers.imp fun a b hab => heach a hab.1 b hab.2)
  rwa [List.forall₂_eq_eq_eq] at hall

end Follows

namespace Fragment

/-- The fragments have the same text. -/
abbrev SameText (f g : Fragment) : Prop :=
  g.text = f.text

variable {f g : Fragment}

theorem SameText.trim (h : SameText f g) : SameText f.trim g.trim :=
  congrArg Text.trim h

theorem SameText.drop (h : SameText f g) (n : Nat) : SameText (f.drop n) (g.drop n) :=
  congrArg (List.drop n) h

theorem SameText.take (h : SameText f g) (n : Nat) : SameText (f.take n) (g.take n) :=
  congrArg (List.take n) h

theorem forall₂_sameText {parts parts' : List Fragment}
    (h : parts'.map Fragment.text = parts.map Fragment.text) :
    List.Forall₂ SameText parts parts' := by
  induction parts generalizing parts' with
  | nil =>
    obtain rfl := List.map_eq_nil_iff.mp h
    exact .nil
  | cons part rest ih =>
    obtain ⟨part', rest', rfl, hpart, hrest⟩ := List.map_eq_cons_iff.mp h
    exact .cons hpart (ih hrest)

end Fragment

open Fragment (SameText)

namespace Quoted

theorem decodeBody_relocated {quote : Char} {start offset : Nat} {text : List Char}
    (start' offset' : Nat) : Follows Eq (decodeBody quote start offset text)
      (decodeBody quote start' offset' text) := by
  fun_induction decodeBody quote start offset text generalizing offset' with
  | case1 => exact .excused trivial _
  | case2 offset rest hend =>
    rw [decodeBody, if_pos rfl, if_pos hend]
    exact .refl _
  | case3 => exact .excused trivial _
  | case4 => exact .excused trivial _
  | case5 offset c rest hc meant after hread =>
    rename_i ih
    obtain ⟨place, hbody⟩ := decodeBody_of_readChar hc hread start' offset'
    rw [hbody]
    exact (ih place).map_self _

theorem decode_relocated {f g : Fragment} (h : SameText f g) :
    Follows Eq (decode f) (decode g) := by
  unfold decode
  rw [h]
  split
  · split
    · exact (decodeBody_relocated _ _).map_self _
    · exact .excused trivial _
  · exact .excused trivial _

end Quoted

namespace Compiler

variable {f g : Fragment}

theorem literal_relocated (h : SameText f g) : Follows Eq (literal f) (literal g) := by
  unfold literal
  rw [h]
  split
  · exact (Quoted.decode_relocated h).map_self _
  split
  · exact .refl _
  split
  · exact .refl _
  split
  · exact .refl _
  split
  · refine Agree.map_self ?_ _
    unfold number
    split
    · exact .refl _
    · exact .excused trivial _
  · exact .excused trivial _

theorem name_relocated (h : SameText f g) : Follows Eq (name f) (name g) := by
  have htrim := h.trim
  unfold name
  simp only
  rw [htrim]
  split
  · exact .excused trivial _
  · exact (Quoted.decode_relocated htrim).map_self _

theorem index_relocated (h : SameText f g) : Follows Eq (index f) (index g) := by
  unfold index
  rw [h.trim]
  split
  · exact .refl _
  · exact .excused trivial _

theorem bound_relocated (which : SliceBound) (h : SameText f g) :
    Follows Eq (bound which f) (bound which g) := by
  unfold bound
  simp only
  rw [h.trim]
  split
  · exact .refl _
  split
  · exact .refl _
  · exact .excused trivial _

theorem slice_relocated {start stop start' stop' : Fragment} {step step' : Option Fragment}
    (hstart : SameText start start') (hstop : SameText stop stop')
    (hstep : step'.map Fragment.text = step.map Fragment.text) :
    Follows Eq (slice start stop step) (slice start' stop' step') := by
  unfold slice
  refine (bound_relocated .start hstart).bind fun first _ hfirst =>
    (bound_relocated .stop hstop).bind fun last _ hlast => ?_
  subst hfirst hlast
  cases step with
  | none =>
    obtain rfl : step' = none := by simpa using hstep
    exact .refl _
  | some step =>
    obtain ⟨step', rfl⟩ : ∃ other, step' = some other := by
      cases step' with
      | none => simp at hstep
      | some other => exact ⟨other, rfl⟩
    refine (bound_relocated .step (Option.some.inj hstep)).bind fun stride _ hstride => ?_
    subst hstride
    split
    · exact .excused trivial _
    · exact .refl _

theorem plainSegment_relocated (h : SameText f g) :
    Follows Eq (plainSegment f) (plainSegment g) := by
  have hsplit : ∀ separator, Follows (List.Forall₂ SameText) (f.splitTop separator)
      (g.splitTop separator) := fun separator => Follows.of_ok fun parts hparts => by
    obtain ⟨parts', hparts', htexts⟩ := Fragment.splitTop_relocated h hparts
    exact ⟨parts', hparts', Fragment.forall₂_sameText htexts⟩
  unfold plainSegment
  rw [h]
  split
  · refine (hsplit ',').bind fun parts parts' hparts => ?_
    refine (Follows.mapM hparts fun _ _ _ => name_relocated).bind fun names _ hnames => ?_
    rw [hnames]
    exact .refl _
  · have hindexes : Follows Eq
        (do
          let parts ← f.splitTop ','
          if parts.all fun part => isIndexText part.trim.text then
            return Segment.mk (← parts.mapM index)
          else .error ⟨.unknownSelector f.text, f.offset⟩)
        (do
          let parts ← g.splitTop ','
          if parts.all fun part => isIndexText part.trim.text then
            return Segment.mk (← parts.mapM index)
          else .error ⟨.unknownSelector f.text, g.offset⟩) := by
      refine (hsplit ',').bind fun parts parts' hparts => ?_
      have hall : (parts'.all fun part => isIndexText part.trim.text) =
          parts.all fun part => isIndexText part.trim.text := by
        induction hparts with
        | nil => rfl
        | cons hpart _ ih => rw [List.all_cons, List.all_cons, hpart.trim, ih]
      rw [hall]
      split
      · refine (Follows.mapM hparts fun _ _ _ => index_relocated).bind fun indexes _ hindexes => ?_
        rw [hindexes]
        exact .refl _
      · exact .excused trivial _
    refine (hsplit ':').bind fun pieces pieces' hpieces => ?_
    match pieces, pieces', hpieces with
    | [], [], .nil => exact hindexes
    | [_], [_], .cons _ .nil => exact hindexes
    | [_, _], [_, _], .cons hstart (.cons hstop .nil) =>
      refine (slice_relocated hstart hstop rfl).bind fun bounds _ hbounds => ?_
      rw [hbounds]
      exact .refl _
    | [_, _, step], [_, _, step'], .cons hstart (.cons hstop (.cons hstep .nil)) =>
      have hsome : (some step').map Fragment.text = (some step).map Fragment.text :=
        congrArg some hstep
      refine (slice_relocated hstart hstop hsome).bind fun bounds _ hbounds => ?_
      rw [hbounds]
      exact .refl _
    | _ :: _ :: _ :: _ :: _, _ :: _ :: _ :: _ :: _, _ => exact .excused trivial _

/-! ## Paths and expressions -/

/-- The nodes say the same. -/
abbrev SameNode (a b : NodeText) : Prop :=
  b.key = a.key

theorem marker?_relocated {a b : NodeText} (h : SameNode a b) : marker? b = marker? a := by
  obtain ⟨hdeep, htext⟩ : b.deep = a.deep ∧ b.body.text = a.body.text := Prod.mk.inj h
  rw [marker?, marker?, hdeep, htext]

/-- The nodes of the same text, together with where the first ones come from. -/
theorem nodes_relocated {f g : Fragment} (h : SameText f g) :
    Follows (fun nodes nodes' => NodeText.split f = .ok nodes ∧
      List.Forall₂ SameNode nodes nodes') (NodeText.split f) (NodeText.split g) := by
  refine Follows.of_ok fun nodes hnodes => ?_
  obtain ⟨nodes', hnodes', hkeys⟩ := NodeText.split_relocated h hnodes
  refine ⟨nodes', hnodes', hnodes, ?_⟩
  have hall := List.forall₂_eq_eq_eq.symm ▸ hkeys.symm
  rw [List.forall₂_map_left_iff, List.forall₂_map_right_iff] at hall
  exact hall.imp fun _ _ heq => heq.symm

/-- The name and the segments of the same text, together with where the first ones come from. -/
theorem parts_relocated {f g : Fragment} (h : SameText f g) :
    Follows (fun parts parts' => NodeParts.split f = .ok parts ∧
      SameText parts.name parts'.name ∧ List.Forall₂ SameText parts.bodies parts'.bodies)
      (NodeParts.split f) (NodeParts.split g) := by
  refine Follows.of_ok fun parts hparts => ?_
  obtain ⟨parts', hparts', hname, htexts⟩ := NodeParts.split_relocated h hparts
  exact ⟨parts', hparts', hparts, hname, Fragment.forall₂_sameText htexts⟩

section
variable {limit limit' : Nat}

mutual

/-- **A path that compiles, compiles to the same elsewhere**, where there is as much room below
the limit. -/
theorem path_relocated {depth depth' : Nat} (hroom : limit + depth' ≤ limit' + depth)
    {nested : Bool} {f g : Fragment} (h : SameText f g) :
    Follows Eq (path limit depth nested f) (path limit' depth' nested g) := by
  rw [path_eq, path_eq, h]
  split
  · exact .excused trivial _
  · refine (nodes_relocated h).bind fun nodes nodes' ⟨hnodes, hsame⟩ => ?_
    cases hsame with
    | nil => exact .excused trivial _
    | @cons first first' rest rest' hfirst hrest =>
      have hbody : SameText first.body first'.body := (Prod.mk.inj hfirst).2
      refine (parts_relocated (hbody.drop 1)).bind fun parts parts' ⟨hparts, hname, hbodies⟩ => ?_
      rw [hname]
      split
      · exact .excused trivial _
      · refine (Follows.mapM hbodies fun body hmem body' hsame => ?_).bind
          fun segments _ hsegments => (Follows.mapM hrest fun node hmem node' hsame => ?_).bind
            fun steps _ hsteps => ?_
        · have := NodeParts.length_of_split hparts hmem
          have := first.body.length_drop_le 1
          have := NodeText.length_of_split hnodes (List.mem_cons_self ..)
          exact segment_relocated hroom hsame
        · have := NodeText.length_of_split hnodes (List.mem_cons_of_mem _ hmem)
          exact step_relocated hroom hsame
        · have hsource : g.toString = f.toString := congrArg String.ofList h
          rw [hsegments, hsteps, hsource]
          exact .refl _
termination_by 4 * f.text.length + 1
decreasing_by all_goals omega

theorem step_relocated {depth depth' : Nat} (hroom : limit + depth' ≤ limit' + depth)
    {a b : NodeText} (h : SameNode a b) :
    Follows Eq (step limit depth a) (step limit' depth' b) := by
  obtain ⟨hdeep, hbody⟩ : b.deep = a.deep ∧ SameText a.body b.body := Prod.mk.inj h
  rw [step_eq, step_eq, marker?_relocated h]
  split
  · exact .excused trivial _
  · refine (parts_relocated hbody).bind fun parts parts' ⟨hparts, hname, hbodies⟩ => ?_
    have hempty : parts'.bodies.isEmpty = parts.bodies.isEmpty := by
      rw [Bool.eq_iff_iff, List.isEmpty_iff_length_eq_zero, List.isEmpty_iff_length_eq_zero,
        hbodies.length_eq]
    dsimp only
    rw [hname, hdeep, hempty]
    split
    · exact .excused trivial _
    · refine (Follows.mapM hbodies fun body hmem body' hsame => ?_).bind
        fun segments _ hsegments => ?_
      · have := NodeParts.length_of_split hparts hmem
        exact segment_relocated hroom hsame
      · rw [hsegments]
        exact .refl _
termination_by 4 * a.body.text.length
decreasing_by all_goals omega

theorem segment_relocated {depth depth' : Nat} (hroom : limit + depth' ≤ limit' + depth)
    {f g : Fragment} (h : SameText f g) :
    Follows Eq (segment limit depth f) (segment limit' depth' g) := by
  rw [segment, segment]
  dsimp only
  rw [h.trim]
  split
  · exact .excused trivial _
  · split
    · exact .refl _
    · split
      · rename_i hq
        have := length_drop_one (ne_nil_of_head? hq)
        have := f.length_trim_le
        have hdeeper : limit + (depth' + 1) ≤ limit' + (depth + 1) := by omega
        exact (expression_relocated hdeeper (h.trim.drop 1).trim).map_self _
      · exact plainSegment_relocated h.trim
termination_by 4 * f.text.length + 3
decreasing_by all_goals omega

/-- **An expression that compiles, compiles to the same elsewhere**, whatever white space is
around it there. -/
theorem expression_relocated {depth depth' : Nat} (hroom : limit + depth' ≤ limit' + depth)
    {position : Position} {f g : Fragment} (h : SameText f.trim g.trim) :
    Follows Eq (expression limit depth position f) (expression limit' depth' position g) := by
  rw [expression_eq, expression_eq]
  have := f.length_trim_le
  by_cases hdeep : limit < depth
  · rw [if_pos hdeep]
    exact .excused trivial _
  · have hdeep' : ¬ limit' < depth' := by omega
    rw [if_neg hdeep, if_neg hdeep', h]
    split
    · exact .excused trivial _
    · refine (Follows.of_ok fun found hfound => ?_ : Follows (fun found found' =>
        f.trim.operators = .ok found ∧ (Occurrence.loosest found').map Occurrence.place =
          (Occurrence.loosest found).map Occurrence.place) _ _).bind
          fun found found' ⟨hfound, hplaces⟩ => ?_
      · obtain ⟨found', hfound', hplaces⟩ := Fragment.operators_relocated h hfound
        exact ⟨found', hfound', hfound, Occurrence.loosest_place hplaces⟩
      split
      · rename_i hnone
        rw [hnone] at hplaces
        rw [List.map_eq_nil_iff.mp hplaces]
        exact operand_relocated hroom h
      · exact .excused trivial _
      · rename_i o hone
        have ho : o ∈ found := Occurrence.mem_of_loosest (hone ▸ List.mem_cons_self ..)
        have := Occurrence.length_left hfound ho
        have := Occurrence.length_right hfound ho
        rw [hone] at hplaces
        obtain ⟨o', rest, hone', hplace, hnil⟩ := List.map_eq_cons_iff.mp hplaces
        obtain rfl := List.map_eq_nil_iff.mp hnil
        obtain ⟨hop, hindex⟩ : o'.op = o.op ∧ o'.index = o.index := Prod.mk.inj hplace
        have hleft : SameText (o.left f.trim) (o'.left g.trim) := by
          rw [Occurrence.left, Occurrence.left, hindex]
          exact h.take _
        have hright : SameText (o.right f.trim) (o'.right g.trim) := by
          rw [Occurrence.right, Occurrence.right, hindex, Occurrence.width, Occurrence.width, hop]
          exact h.drop _
        rw [hone']
        dsimp only
        rw [hop]
        split
        · exact .excused trivial _
        · refine (expression_relocated hroom hleft.trim).bind fun left _ hleft =>
            (expression_relocated hroom hright.trim).bind fun right _ hright => ?_
          rw [hleft, hright]
          exact .refl _
termination_by 4 * f.text.length + 3
decreasing_by all_goals omega

theorem operand_relocated {depth depth' : Nat} (hroom : limit + depth' ≤ limit' + depth)
    {position : Position} {f g : Fragment} (h : SameText f g) :
    Follows Eq (operand limit depth position f) (operand limit' depth' position g) := by
  refine Follows.of_ok fun e he => ⟨e, ?_, rfl⟩
  by_cases hn : f.text.head? = some '!'
  · have hn' : g.text.head? = some '!' := by rw [h, hn]
    have hlength := length_drop_one (ne_nil_of_head? hn)
    have hshort : (f.drop 1).trimStart.text.length ≤ (f.drop 1).text.length :=
      Text.length_trimStart_le _
    have hrest : SameText (f.drop 1).trimStart (g.drop 1).trimStart :=
      congrArg Text.trimStart (h.drop 1)
    rw [negated_eq_ok hn] at he
    rw [negated_eq_ok hn']
    refine ⟨he.1, ?_⟩
    rcases he.2 with ⟨hne, condition, hopen, hgroup, rfl⟩ | ⟨p, hstart, hpath, rfl⟩
    · have hopen' : (g.drop 1).trimStart.text.head? = some '(' := by rw [hrest, hopen]
      have hne' := ne_nil_of_head? hopen'
      have hgroup' : group limit' depth' .boolean (g.drop 1).trimStart hne' = .ok condition :=
        (group_relocated hroom hrest).eq_ok hgroup
      exact Or.inl ⟨hne', condition, hopen', hgroup', rfl⟩
    · have hstart' : startsReference (g.drop 1).trimStart = true := by
        rwa [startsReference, hrest]
      exact Or.inr ⟨p, hstart', (path_relocated hroom hrest).eq_ok hpath, rfl⟩
  · have hn' : g.text.head? ≠ some '!' := by rwa [h]
    have hhead : g.text.head? = f.text.head? := by rw [h]
    have hreference : startsReference g = startsReference f := by
      rw [startsReference, startsReference, hhead]
    rw [operand_eq_ok hn] at he
    rw [operand_eq_ok hn', hreference, hhead]
    rcases he with ⟨hne, hopen, hgroup⟩ | ⟨p, hstart, hpath, rfl⟩ | ⟨l, hopen, hstart, hl, rfl⟩
    · have hne' : g.text ≠ [] := by rwa [h]
      exact Or.inl ⟨hne', hopen, (group_relocated hroom h).eq_ok hgroup⟩
    · exact Or.inr (Or.inl ⟨p, hstart, (path_relocated hroom h).eq_ok hpath, rfl⟩)
    · exact Or.inr (Or.inr ⟨l, hopen, hstart, (literal_relocated h).eq_ok hl, rfl⟩)
termination_by 4 * f.text.length + 2
decreasing_by all_goals omega

theorem group_relocated {depth depth' : Nat} (hroom : limit + depth' ≤ limit' + depth)
    {position : Position} {f g : Fragment} {hf : f.text ≠ []} {hg : g.text ≠ []}
    (h : SameText f g) :
    Follows Eq (group limit depth position f hf) (group limit' depth' position g hg) := by
  refine Follows.of_ok fun e he => ⟨e, ?_, rfl⟩
  obtain ⟨close, hclose, hend, hinner⟩ := group_eq_ok.mp he
  have := length_between hf close
  have hdeeper : limit + (depth' + 1) ≤ limit' + (depth + 1) := by omega
  have hinner' := (expression_relocated hdeeper ((h.take close).drop 1).trim).eq_ok hinner
  have hend' : (g.drop (close + 1)).text = [] := (h.drop _).trans hend
  exact group_eq_ok.mpr ⟨close, Fragment.closingParen_relocated h hclose hend, hend', hinner'⟩
termination_by 4 * f.text.length + 1
decreasing_by all_goals omega

end

end

end Compiler

end PathQuery
