import PathQuery.Proofs.Edit.Replacement

/-! # Creation finds every container as it was

When nothing matches, `Path.set` adds an entry to containers that were checked
before the first of them was changed.  A container may lie within another one; it is
extended first then, which keeps the outer one a container of its kind.  So adding
the entries one after the other never fails, and comes to one pass over the original
document (`extendAll_extend`).
-/

namespace PathQuery
namespace Json

/-- The change that adds an entry to the containers that have a new value. -/
def Change.extend (entry : NewEntry) (new : Location → Option Json) : Change :=
  fun l v => (new l).elim (some v) (v.extend? entry)

theorem Change.update_extend (entry : NewEntry) (new : Location → Option Json) (l : Location)
    (value : Json) :
    Function.update (Change.extend entry new) l (fun v => v.extend? entry value) =
      Change.extend entry (Function.update new l (some value)) := by
  funext l' v
  by_cases h : l' = l
  · subst h
    simp [Change.extend]
  · simp [h, Change.extend]

/-- A value that its own location leaves alone keeps its shape. -/
theorem kind_rebuild {change : Change} (h : change [] = some) {v w : Json}
    (hw : rebuild change v = some w) : w.kind = v.kind := by
  cases v <;> simp only [rebuild, h, Option.some.injEq] at hw <;> rw [← hw] <;> rfl

theorem extend?_isSome_of_room {v w : Json} {entry : NewEntry} (h : v.hasRoomFor entry = true)
    (hkind : w.kind = v.kind) (value : Json) : (w.extend? entry value).isSome := by
  cases entry with
  | key name =>
    cases v with
    | object members =>
      cases w with
      | object members' => rfl
      | _ => simp [kind] at hkind
    | _ => simp [hasRoomFor] at h
  | index i =>
    cases v with
    | array items =>
      cases w with
      | array items' => rfl
      | _ => simp [kind] at hkind
    | _ => simp [hasRoomFor] at h

end Json

namespace Edit

open Json

/-- Extending containers one after the other, behind everything that is extended
already, finds each of them with room and takes one value for it. -/
theorem extendAll_extend {doc : Json} (hd : doc.DistinctKeys) {entry : NewEntry}
    {targets : List Location} (hdesc : targets.Pairwise fun l l' => Location.lt l' l)
    (hroom : ∀ l ∈ targets, ∃ v, doc.valueAt? l = some v ∧ v.hasRoomFor entry = true)
    {new : Location → Option Json}
    (hnew : ∀ l, new l ≠ none → ∀ l' ∈ targets, Location.lt l' l)
    {d : Json} (hdoc : rebuild (Change.extend entry new) doc = some d)
    (supply : Nat → Json) (taken : Nat) :
    ∃ d', rebuild (Change.extend entry
        fun l => (assigned supply taken targets l).or (new l)) doc = some d' ∧
      extendAll entry supply taken d targets =
        ⟨d', taken + targets.length, .ok (taken + targets.length)⟩ := by
  induction targets generalizing new d taken with
  | nil => exact ⟨d, hdoc, rfl⟩
  | cons l rest ih =>
    obtain ⟨hl, hrest⟩ := List.pairwise_cons.mp hdesc
    obtain ⟨v, hv, hroomv⟩ := hroom l (List.mem_cons_self ..)
    -- nothing at `l` or before it is extended yet, so there is room at `l` as before
    have hbehind : (Change.extend entry new).Behind l := by
      intro l' hl'
      funext u
      simp [Change.extend, none_of_not_lt hnew hl']
    have hself : (Change.extend entry new).under l [] = some :=
      (Change.under_self _ l).trans hbehind.self
    obtain ⟨w, hw⟩ := Option.isSome_iff_exists.mp (rebuild_isSome hself v)
    obtain ⟨w', hw'⟩ := Option.isSome_iff_exists.mp
      (extend?_isSome_of_room hroomv (kind_rebuild hself hw) (supply taken))
    have hexists : d.valueAt? l = some w := (valueAt?_rebuild hd hv hbehind hdoc).trans hw
    obtain ⟨d', hupdate, hd'⟩ := updateAt?_rebuild hd hv hbehind hdoc hw
      (f := fun v => v.extend? entry (supply taken)) hw'
    rw [Change.update_extend] at hd'
    obtain ⟨out, hout, hrun⟩ := ih hrest
      (fun l' hl' => hroom l' (List.mem_cons_of_mem _ hl'))
      (behind_update hl hnew (supply taken)) hd' (taken + 1)
    have hnot : l ∉ rest := fun hm => Location.not_lt_self l (hl l hm)
    refine ⟨out, ?_, ?_⟩
    · rw [← assigned_cons_or hnot]
      exact hout
    · rw [extendAll, hexists, hupdate]
      simp only [hrun, List.length_cons, Nat.add_assoc, Nat.add_comm 1]

end Edit
end PathQuery
