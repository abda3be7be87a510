import PathQuery.Json.Reader
import PathQuery.Proofs.Document.DistinctKeys

/-! # Documents that are read have no repeated keys

A member with a key that is there already replaces the one before it, so whatever text a
document is read from, no object in it has a key twice (`read?_distinctKeys`).
-/

namespace PathQuery
namespace Json
namespace Reader

/-- Members without repeated keys, the values of which have none either. -/
def GoodMembers (members : List (String × Json)) : Prop :=
  (members.map Prod.fst).Nodup ∧ ∀ p ∈ members, p.2.DistinctKeys

theorem GoodMembers.addMember {members : List (String × Json)} (h : GoodMembers members)
    {value : Json} (hv : value.DistinctKeys) (key : String) :
    GoodMembers (addMember key value members) := by
  unfold Reader.addMember
  split
  · exact distinctKeys_object.mp (distinctKeys_insert (distinctKeys_object.mpr h) hv)
  · rename_i hnone
    have hnew : key ∉ members.map Prod.fst := by
      intro hmem
      obtain ⟨p, hp, rfl⟩ := List.mem_map.mp hmem
      exact hnone (by rw [lookup_of_mem h.1 hp]; rfl)
    refine ⟨List.nodup_cons.mpr ⟨hnew, h.1⟩, fun p hp => ?_⟩
    rcases List.mem_cons.mp hp with rfl | hp
    · exact hv
    · exact h.2 p hp

theorem GoodMembers.reverse {members : List (String × Json)} (h : GoodMembers members) :
    (Json.object members.reverse).DistinctKeys := by
  refine distinctKeys_object.mpr ⟨?_, fun p hp => h.2 p (List.mem_reverse.mp hp)⟩
  rw [List.map_reverse]
  exact (List.reverse_perm _).nodup_iff.mpr h.1

theorem readNumber_distinctKeys {text : List Char} {v : Json} {rest : Rest text.length}
    (h : readNumber text = some (v, rest)) : v.DistinctKeys := by
  unfold readNumber at h
  split at h
  · simp at h
  · split at h
    · obtain ⟨x, -, heq⟩ := Option.map_eq_some_iff.mp h
      obtain ⟨rfl, -⟩ := Prod.mk.inj heq
      trivial
    · simp at h

mutual

-- the length is a variable of its own: the case split replaces the text by its characters
theorem readValue_distinctKeys {levels : Option Nat} {text : List Char} {v : Json}
    {rest : Rest text.length} {length : Nat} (hlength : text.length = length)
    (h : readValue levels text = some (v, rest)) : v.DistinctKeys := by
  rw [readValue.eq_def] at h
  split at h
  · obtain ⟨rfl, -⟩ := Prod.mk.inj (Option.some.inj h)
    trivial
  · obtain ⟨rfl, -⟩ := Prod.mk.inj (Option.some.inj h)
    trivial
  · obtain ⟨rfl, -⟩ := Prod.mk.inj (Option.some.inj h)
    trivial
  · split at h
    · simp at h
    · obtain ⟨rfl, -⟩ := Prod.mk.inj (Option.some.inj h)
      trivial
  · split at h
    · simp at h
    · split at h
      · obtain ⟨rfl, -⟩ := Prod.mk.inj (Option.some.inj h)
        trivial
      · split at h
        · simp at h
        · rename_i hitems
          obtain ⟨rfl, -⟩ := Prod.mk.inj (Option.some.inj h)
          exact distinctKeys_array.mpr (readItems_distinctKeys (by simp) hitems)
  · split at h
    · simp at h
    · split at h
      · obtain ⟨rfl, -⟩ := Prod.mk.inj (Option.some.inj h)
        exact distinctKeys_object.mpr ⟨by simp, by simp⟩
      · split at h
        · simp at h
        · rename_i hmembers
          obtain ⟨rfl, -⟩ := Prod.mk.inj (Option.some.inj h)
          exact readMembers_distinctKeys ⟨by simp, by simp⟩ hmembers
  · exact readNumber_distinctKeys h
termination_by 2 * length
decreasing_by all_goals simp only [List.length_cons] at hlength; omega

theorem readItems_distinctKeys {levels : Option Nat} {bound : Nat} {acc items : List Json}
    {text : List Char} {hlength : text.length ≤ bound} {rest : Rest bound}
    (hacc : ∀ v ∈ acc, v.DistinctKeys)
    (h : readItems levels bound acc text hlength = some (items, rest)) :
    ∀ v ∈ items, v.DistinctKeys := by
  have hskip := length_skip_le text
  rw [readItems.eq_def] at h
  simp only at h
  split at h
  · simp at h
  · rename_i v after hvalue
    have hv := readValue_distinctKeys rfl hvalue
    have hall : ∀ w ∈ v :: acc, w.DistinctKeys := by
      intro w hw
      rcases List.mem_cons.mp hw with rfl | hw
      · exact hv
      · exact hacc w hw
    have hafter := after.2
    split at h
    · rename_i later hlater
      have hrest := length_of_skip hlater
      exact readItems_distinctKeys hall h
    · obtain ⟨rfl, -⟩ := Prod.mk.inj (Option.some.inj h)
      exact fun w hw => hall w (List.mem_reverse.mp hw)
    · simp at h
termination_by 2 * text.length + 1
decreasing_by all_goals omega

theorem readMembers_distinctKeys {levels : Option Nat} {bound : Nat}
    {acc members : List (String × Json)} {text : List Char} {hlength : text.length ≤ bound}
    {rest : Rest bound} (hacc : GoodMembers acc)
    (h : readMembers levels bound acc text hlength = some (members, rest)) :
    (Json.object members).DistinctKeys := by
  rw [readMembers.eq_def] at h
  split at h
  · rename_i keyText hq
    have hquote := length_of_skip hq
    split at h
    · simp at h
    · rename_i key afterKey hstring
      have hkey := afterKey.2
      split at h
      · rename_i valueText hc
        have hcolon := length_of_skip hc
        have hskip := length_skip_le valueText
        simp only at h
        split at h
        · simp at h
        · rename_i v after hvalue
          have hall := hacc.addMember (readValue_distinctKeys rfl hvalue) key
          have hafter := after.2
          split at h
          · rename_i later hlater
            have hrest := length_of_skip hlater
            exact readMembers_distinctKeys hall h
          · obtain ⟨rfl, -⟩ := Prod.mk.inj (Option.some.inj h)
            exact hall.reverse
          · simp at h
      · simp at h
  · simp at h
termination_by 2 * text.length + 1
decreasing_by all_goals omega

end

end Reader

/-- **A document that is read has no repeated keys.** -/
theorem read?_distinctKeys {levels : Option Nat} {text : String} {doc : Json}
    (h : read? levels text = some doc) : doc.DistinctKeys := by
  unfold read? at h
  split at h
  · simp at h
  · rename_i v rest hvalue
    split at h
    · obtain rfl := Option.some.inj h
      exact Reader.readValue_distinctKeys rfl hvalue
    · simp at h

end Json
end PathQuery
