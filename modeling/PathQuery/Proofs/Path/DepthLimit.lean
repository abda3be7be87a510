import PathQuery.Proofs.Agreement
import PathQuery.Proofs.Path.Bytewise

/-! # The depth limit of the compiler

The limit is looked at in one place only, before an expression is compiled.  So compilations
of one text with two limits go the same way until the lower limit is exceeded: with the
higher one the result is the same, and so is every error other than an excess of the lower
limit (`Compiler.path_agree`).
-/

namespace PathQuery

/-- The error says that expressions are nested beyond a limit. -/
def SyntaxCause.IsDepth : SyntaxCause → Prop
  | .tooDeep _ => True
  | _ => False

namespace Compiler

/-- The compilations agree, unless the first exceeds its limit. -/
abbrev AgreeOnDepth {α : Type} (x y : Except Fault α) : Prop :=
  Agree (fun fault => fault.cause.IsDepth) Eq x y

section
variable {low high : Nat}

mutual

/-- **A higher limit only makes room.** -/
theorem path_agree (h : low ≤ high) {depth : Nat} {nested : Bool} {f : Fragment} :
    AgreeOnDepth (path low depth nested f) (path high depth nested f) := by
  rw [path_eq, path_eq]
  split
  · exact .error _
  · refine Agree.bind_self fun nodes hnodes => ?_
    split
    · exact .error _
    · rename_i first rest
      refine Agree.bind_self fun parts hparts => ?_
      split
      · exact .error _
      · refine (Agree.mapM_self fun body hbody => ?_).bind fun segments _ hsegments =>
          (Agree.mapM_self fun node hnode => ?_).bind fun steps _ hsteps => ?_
        · have := NodeParts.length_of_split hparts hbody
          have := first.body.length_drop_le 1
          have := NodeText.length_of_split hnodes (List.mem_cons_self ..)
          exact segment_agree h
        · have := NodeText.length_of_split hnodes (List.mem_cons_of_mem _ hnode)
          exact step_agree h
        · rw [hsegments, hsteps]
          exact .refl _
termination_by 4 * f.text.length + 1
decreasing_by all_goals omega

theorem step_agree (h : low ≤ high) {depth : Nat} {node : NodeText} :
    AgreeOnDepth (step low depth node) (step high depth node) := by
  rw [step_eq, step_eq]
  split
  · exact .error _
  · refine Agree.bind_self fun parts hparts => ?_
    dsimp only
    split
    · exact .error _
    · refine (Agree.mapM_self fun body hbody => ?_).bind fun segments _ hsegments => ?_
      · have := NodeParts.length_of_split hparts hbody
        exact segment_agree h
      · rw [hsegments]
        exact .refl _
termination_by 4 * node.body.text.length
decreasing_by all_goals omega

theorem segment_agree (h : low ≤ high) {depth : Nat} {inner : Fragment} :
    AgreeOnDepth (segment low depth inner) (segment high depth inner) := by
  rw [segment, segment]
  dsimp only
  split
  · exact .error _
  · split
    · exact .refl _
    · split
      · rename_i hq
        have := length_drop_one (ne_nil_of_head? hq)
        have := inner.length_trim_le
        exact (expression_agree h).map_self _
      · exact .refl _
termination_by 4 * inner.text.length + 3
decreasing_by all_goals omega

theorem expression_agree (h : low ≤ high) {depth : Nat} {position : Position} {f : Fragment} :
    AgreeOnDepth (expression low depth position f) (expression high depth position f) := by
  rw [expression_eq, expression_eq]
  have := f.length_trim_le
  by_cases hlow : low < depth
  · -- the only place where the lower limit shows
    rw [if_pos hlow]
    exact .excused trivial _
  · have hhigh : ¬ high < depth := by omega
    rw [if_neg hlow, if_neg hhigh]
    split
    · exact .error _
    · refine Agree.bind_self fun found hfound => ?_
      split
      · exact operand_agree h
      · exact .error _
      · rename_i o hloosest
        have ho : o ∈ found := Occurrence.mem_of_loosest (hloosest ▸ List.mem_cons_self ..)
        have := Occurrence.length_left hfound ho
        have := Occurrence.length_right hfound ho
        split
        · exact .error _
        · refine (expression_agree h).bind fun left _ hleft =>
            (expression_agree h).bind fun right _ hright => ?_
          rw [hleft, hright]
          exact .refl _
termination_by 4 * f.text.length + 3
decreasing_by all_goals omega

theorem operand_agree (h : low ≤ high) {depth : Nat} {position : Position} {f : Fragment} :
    AgreeOnDepth (operand low depth position f) (operand high depth position f) := by
  rw [operand, operand]
  dsimp only
  split
  · rename_i hn
    have hlength := length_drop_one (ne_nil_of_head? hn)
    have hshort : (f.drop 1).trimStart.text.length ≤ (f.drop 1).text.length :=
      Text.length_trimStart_le _
    split
    · exact .error _
    · split
      · exact (group_agree h).map_self _
      · split
        · exact (path_agree h).map_self _
        · exact .error _
  · split
    · exact group_agree h
    · split
      · exact (path_agree h).map_self _
      · exact .refl _
termination_by 4 * f.text.length + 2
decreasing_by all_goals omega

theorem group_agree (h : low ≤ high) {depth : Nat} {position : Position} {f : Fragment}
    {hne : f.text ≠ []} :
    AgreeOnDepth (group low depth position f hne) (group high depth position f hne) := by
  rw [group_eq, group_eq]
  refine Agree.bind_self fun pieces hpieces => ?_
  obtain ⟨close, -, rfl⟩ := map_eq_ok.mp hpieces
  split
  · exact .error _
  · have := length_between hne close
    exact expression_agree h
termination_by 4 * f.text.length + 1
decreasing_by all_goals omega

end

end

end Compiler

namespace Path

/-- Compiling with a higher limit gives the same, unless the lower limit is exceeded. -/
theorem compile_of_le {low high : Options} (h : low.maxDepth ≤ high.maxDepth) {text : String}
    (hlow : ∀ e, compile low text = .error e → ¬ e.cause.IsDepth) :
    compile high text = compile low text := by
  have hagree : Compiler.AgreeOnDepth (Compiler.path low.maxDepth 0 false ⟨text.toList, 0⟩)
      (Compiler.path high.maxDepth 0 false ⟨text.toList, 0⟩) := Compiler.path_agree h
  rw [compile, compile, hagree.eq_of_not_excused]
  intro fault hfault
  exact hlow ⟨fault.cause, fault.position, text⟩ (by rw [compile, hfault]; rfl)

end Path
end PathQuery
