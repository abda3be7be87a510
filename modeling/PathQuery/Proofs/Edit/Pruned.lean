import PathQuery.Proofs.Edit.Removal
import PathQuery.Proofs.Query.Blindness
import PathQuery.Proofs.Query.ChangedDocument

/-! # What is left of a pruned document

Pruning a document makes nothing new.  Each value that is left was in the document before, at
a location that was not gone, and has only lost values of its own; it lies behind the same
keys as before, while indexes in arrays may have become smaller (`Json.valueAt?_prune`).
-/

namespace PathQuery
namespace Json

open List (Forall₂)

variable {gone : Location → Bool}

@[simp] theorem kind_prune (gone : Location → Bool) (v : Json) :
    (v.prune gone).kind = v.kind := by
  cases v <;> rfl

/-- Where nothing is gone, the document is left as it is. -/
theorem prune_of_kept (h : ∀ l, gone l = false) (doc : Json) : doc.prune gone = doc := by
  have hchange : Change.leaveOut gone = fun _ => some := by
    funext l v
    simp [Change.leaveOut, h]
  have hprune := rebuild_leaveOut gone doc
  rw [hchange, rebuild_some, h, if_neg (by simp), Option.some.injEq] at hprune
  exact hprune.symm

theorem getElem?_pruneItems {i j : Nat} {items : List Json} {c : Json}
    (h : (pruneItems gone i items)[j]? = some c) :
    ∃ (k : Nat) (v : Json), items[k]? = some v ∧ gone [.index (i + k)] = false ∧
      c = v.prune fun l => gone (.index (i + k) :: l) := by
  induction items generalizing i j with
  | nil => simp [pruneItems] at h
  | cons v rest ih =>
    have hlater : ∀ j' : Nat, (pruneItems gone (i + 1) rest)[j']? = some c →
        ∃ (k : Nat) (v' : Json), (v :: rest)[k]? = some v' ∧ gone [.index (i + k)] = false ∧
          c = v'.prune fun l => gone (.index (i + k) :: l) := by
      intro j' hj'
      obtain ⟨k, v', hv', hkept, hc⟩ := ih hj'
      rw [Nat.add_assoc, Nat.add_comm 1] at hkept hc
      exact ⟨k + 1, v', hv', hkept, hc⟩
    rw [pruneItems] at h
    split at h
    · exact hlater j h
    · rename_i hkept
      cases j with
      | zero => exact ⟨0, v, rfl, by simpa using hkept, (Option.some.inj h).symm⟩
      | succ j => exact hlater j h

theorem lookup_pruneMembers {key : String} {members : List (String × Json)} {c : Json}
    (h : lookup key (pruneMembers gone members) = some c) :
    ∃ v, lookup key members = some v ∧ gone [.key key] = false ∧
      c = v.prune fun l => gone (.key key :: l) := by
  induction members with
  | nil => simp [pruneMembers, lookup] at h
  | cons p rest ih =>
    rw [pruneMembers] at h
    by_cases hkey : p.1 = key
    · subst hkey
      split at h
      · -- later members of this key are gone as well
        rename_i hgone
        obtain ⟨v, -, hkept, -⟩ := ih h
        simp [hgone] at hkept
      · rename_i hkept
        simp only [lookup, if_true, Option.some.injEq] at h ⊢
        exact ⟨p.2, rfl, by simpa using hkept, h.symm⟩
    · rw [lookup, if_neg hkey]
      split at h
      · exact ih h
      · rw [lookup, if_neg hkey] at h
        exact ih h

/-- A child that is left was a child before. -/
theorem get?_prune {doc c : Json} {a : Accessor} (h : (doc.prune gone).get? a = some c) :
    ∃ a' v, Accessor.Alike a a' ∧ doc.get? a' = some v ∧ gone [a'] = false ∧
      c = v.prune fun l => gone (a' :: l) := by
  cases a with
  | key name =>
    cases doc with
    | object members =>
      obtain ⟨v, hv, hkept, hc⟩ := lookup_pruneMembers h
      exact ⟨.key name, v, .key name, hv, hkept, hc⟩
    | _ => simp [prune, get?, getKey?] at h
  | index j =>
    cases doc with
    | array items =>
      obtain ⟨k, v, hv, hkept, hc⟩ := getElem?_pruneItems h
      rw [Nat.zero_add] at hkept hc
      exact ⟨.index k, v, .index j k, hv, hkept, hc⟩
    | _ => simp [prune, get?, getIndex?] at h

/-- **A value that is left was there before**, at a location that is not gone. -/
theorem valueAt?_prune {doc w : Json} {l : Location} (h : (doc.prune gone).valueAt? l = some w) :
    ∃ l' v, Forall₂ Accessor.Alike l l' ∧ doc.valueAt? l' = some v ∧
      (l' ≠ [] → gone l' = false) ∧ w = v.prune fun below => gone (l' ++ below) := by
  induction l generalizing doc gone with
  | nil =>
    obtain rfl := Option.some.inj h
    exact ⟨[], doc, .nil, rfl, by simp, rfl⟩
  | cons a l ih =>
    obtain ⟨c, hc, h⟩ := Option.bind_eq_some_iff.mp h
    obtain ⟨a', u, ha, hu, hkept, rfl⟩ := get?_prune hc
    obtain ⟨l', v, hl, hv, hgone, rfl⟩ := ih h
    refine ⟨a' :: l', v, .cons ha hl, ?_, fun _ => ?_, rfl⟩
    · rw [valueAt?, hu, Option.bind_some, hv]
    · cases l' with
      | nil => exact hkept
      | cons b l' => exact hgone (by simp)

/-- Pruning makes no new levels. -/
theorem levels_prune_le {v : Json} (hd : (v.prune gone).DistinctKeys) :
    (v.prune gone).levels ≤ v.levels := by
  obtain ⟨l, w, hw, hlength⟩ := exists_valueAt?_of_levels hd
  obtain ⟨l', u, hl, hu, -⟩ := valueAt?_prune hw
  rw [← hlength, hl.length_eq]
  exact length_le_levels hu

/-- Leaving out values below a depth. -/
theorem Change.keepsDownTo_leaveOut {n : Nat} {gone : Location → Bool}
    (hgone : ∀ l, l.length ≤ n → gone l = false) (doc : Json) :
    (leaveOut gone).KeepsDownTo n doc where
  above l hl := by
    funext v
    rw [leaveOut, hgone l (Nat.le_of_lt hl)]
    rfl
  survives l v hl _ := by
    have hself : gone (l ++ []) = false := by
      rw [List.append_nil]
      exact hgone l (Nat.le_of_eq hl)
    have hrebuild : rebuild ((leaveOut gone).under l) v = _ :=
      rebuild_leaveOut (fun l' => gone (l ++ l')) v
    rw [hrebuild, if_neg (by rw [hself]; simp)]
    rfl

end Json

/-- A child that is left, below a match whose children may be gone but nothing further down, is
a child that was kept, with the value that it had. -/
theorem Match.Becomes.mem_children_of_leaveOut {gone : Location → Bool} {m m' : Match}
    (h : m.Becomes (.leaveOut gone) m') (hself : gone m.location = false)
    (hbelow : ∀ a l, l ≠ [] → gone (m.location ++ a :: l) = false)
    (hd : m.value.DistinctKeys) (hd' : m'.value.DistinctKeys) {c' : Match}
    (hc' : c' ∈ m'.children) :
    ∃ c ∈ m.children, gone c.location = false ∧ c.value = c'.value := by
  obtain ⟨a, v, hv, rfl⟩ := (mem_children_iff hd').mp hc'
  have hprune : m'.value = m.value.prune fun l => gone (m.location ++ l) := by
    have hrebuild := Json.rebuild_leaveOut (fun l => gone (m.location ++ l)) m.value
    rw [List.append_nil, hself, if_neg (by simp)] at hrebuild
    exact Option.some.inj (h.2.symm.trans hrebuild)
  rw [hprune] at hv
  obtain ⟨a', u, -, hu, hkept, rfl⟩ := Json.get?_prune hv
  refine ⟨m.below a' u, (mem_children_iff hd).mpr ⟨a', u, hu, rfl⟩, hkept, ?_⟩
  refine (Json.prune_of_kept (fun l => ?_) u).symm
  cases l with
  | nil => exact hkept
  | cons b l => exact hbelow a' (b :: l) (by simp)

end PathQuery
