import PathQuery.Json.Location

/-! # Documents without repeated keys

`DistinctKeys` says that no object of a document has a key twice.  In such a
document an accessor leads to one child (`get?_of_mem_entries`), and every way in
which a document changes keeps it such a document.
-/

namespace PathQuery
namespace Json

mutual

/-- No object of the document has a key twice. -/
def DistinctKeys : Json → Prop
  | .array items => ItemsDistinctKeys items
  | .object members => (members.map Prod.fst).Nodup ∧ MembersDistinctKeys members
  | _ => True

/-- No object of the elements of an array has a key twice. -/
def ItemsDistinctKeys : List Json → Prop
  | [] => True
  | v :: rest => DistinctKeys v ∧ ItemsDistinctKeys rest

/-- No object of the values of an object has a key twice. -/
def MembersDistinctKeys : List (String × Json) → Prop
  | [] => True
  | (_, v) :: rest => DistinctKeys v ∧ MembersDistinctKeys rest

end

theorem itemsDistinctKeys_iff {items : List Json} :
    ItemsDistinctKeys items ↔ ∀ v ∈ items, v.DistinctKeys := by
  induction items with
  | nil => simp [ItemsDistinctKeys]
  | cons v rest ih => simp [ItemsDistinctKeys, ih]

theorem membersDistinctKeys_iff {members : List (String × Json)} :
    MembersDistinctKeys members ↔ ∀ p ∈ members, p.2.DistinctKeys := by
  induction members with
  | nil => simp [MembersDistinctKeys]
  | cons p rest ih => simp [MembersDistinctKeys, ih]

theorem distinctKeys_array {items : List Json} :
    (array items).DistinctKeys ↔ ∀ v ∈ items, v.DistinctKeys := by
  rw [DistinctKeys, itemsDistinctKeys_iff]

theorem distinctKeys_object {members : List (String × Json)} :
    (object members).DistinctKeys ↔
      (members.map Prod.fst).Nodup ∧ ∀ p ∈ members, p.2.DistinctKeys := by
  rw [DistinctKeys, membersDistinctKeys_iff]

/-! ## Members -/

theorem mem_of_lookup {key : String} {v : Json} {members : List (String × Json)}
    (h : lookup key members = some v) : (key, v) ∈ members := by
  induction members with
  | nil => simp [lookup] at h
  | cons p rest ih =>
    simp only [lookup] at h
    split at h
    · rename_i hk
      rw [← Option.some.inj h, ← hk]
      exact List.mem_cons_self ..
    · exact List.mem_cons_of_mem _ (ih h)

theorem lookup_of_mem {key : String} {v : Json} {members : List (String × Json)}
    (hn : (members.map Prod.fst).Nodup) (h : (key, v) ∈ members) :
    lookup key members = some v := by
  induction members with
  | nil => simp at h
  | cons p rest ih =>
    obtain ⟨hp, hrest⟩ := List.nodup_cons.mp hn
    rcases List.mem_cons.mp h with rfl | h
    · simp [lookup]
    · have hne : p.1 ≠ key := fun he => hp (he ▸ List.mem_map_of_mem h)
      rw [lookup, if_neg hne, ih hrest h]

theorem keys_insert (key : String) (value : Json) (members : List (String × Json)) :
    (insert key value members).map Prod.fst =
      if key ∈ members.map Prod.fst then members.map Prod.fst
      else members.map Prod.fst ++ [key] := by
  induction members with
  | nil => simp [insert]
  | cons p rest ih =>
    by_cases hk : p.1 = key
    · simp [insert, hk]
    · simp only [insert, hk, if_false, List.map_cons, ih, List.mem_cons, Ne.symm hk, false_or]
      split <;> rfl

theorem mem_of_mem_insert {key : String} {value : Json} {members : List (String × Json)}
    {p : String × Json} (h : p ∈ insert key value members) : p = (key, value) ∨ p ∈ members := by
  induction members with
  | nil => exact Or.inl (List.mem_singleton.mp h)
  | cons q rest ih =>
    simp only [insert] at h
    split at h
    · rename_i hk
      rcases List.mem_cons.mp h with rfl | h
      · exact Or.inl (by rw [hk])
      · exact Or.inr (List.mem_cons_of_mem _ h)
    · rcases List.mem_cons.mp h with rfl | h
      · exact Or.inr (List.mem_cons_self ..)
      · exact (ih h).imp_right (List.mem_cons_of_mem _)

theorem erase_sublist (key : String) (members : List (String × Json)) :
    (erase key members).Sublist members := by
  induction members with
  | nil => exact List.Sublist.slnil
  | cons p rest ih =>
    rw [erase]
    split
    · exact List.sublist_cons_self p rest
    · exact ih.cons_cons p

/-! ## What is in a document -/

theorem DistinctKeys.of_get? {doc child : Json} {a : Accessor} (hd : doc.DistinctKeys)
    (h : doc.get? a = some child) : child.DistinctKeys := by
  cases a with
  | key name =>
    cases doc with
    | object members => exact (distinctKeys_object.mp hd).2 _ (mem_of_lookup h)
    | _ => simp [get?, getKey?] at h
  | index i =>
    cases doc with
    | array items => exact distinctKeys_array.mp hd _ (List.mem_of_getElem? h)
    | _ => simp [get?, getIndex?] at h

theorem DistinctKeys.of_valueAt? {doc v : Json} {l : Location} (hd : doc.DistinctKeys)
    (h : doc.valueAt? l = some v) : v.DistinctKeys := by
  induction l generalizing doc with
  | nil => exact Option.some.inj h ▸ hd
  | cons a l ih =>
    obtain ⟨child, hc, hv⟩ := Option.bind_eq_some_iff.mp h
    exact ih (hd.of_get? hc) hv

/-! ## What the operations keep -/

theorem distinctKeys_insert {key : String} {value : Json} {members : List (String × Json)}
    (hm : (object members).DistinctKeys) (hv : value.DistinctKeys) :
    (object (insert key value members)).DistinctKeys := by
  obtain ⟨hn, hall⟩ := distinctKeys_object.mp hm
  refine distinctKeys_object.mpr ⟨?_, fun p hp => ?_⟩
  · rw [keys_insert]
    split
    · exact hn
    · rename_i hk
      exact List.nodup_append.mpr ⟨hn, List.pairwise_singleton _ key, by
        rintro k hk' _ (hs : _ ∈ [key]) rfl
        exact hk (List.mem_singleton.mp hs ▸ hk')⟩
  · rcases mem_of_mem_insert hp with rfl | hp
    · exact hv
    · exact hall p hp

theorem DistinctKeys.put? {doc changed value : Json} {a : Accessor} (hd : doc.DistinctKeys)
    (hv : value.DistinctKeys) (h : doc.put? a value = some changed) : changed.DistinctKeys := by
  cases a with
  | key name =>
    cases doc with
    | object members => exact Option.some.inj h ▸ distinctKeys_insert hd hv
    | _ => simp [Json.put?, setKey?] at h
  | index i =>
    cases doc with
    | array items =>
      simp only [Json.put?, setIndex?] at h
      split at h
      · rw [← Option.some.inj h]
        refine distinctKeys_array.mpr fun v hmem => ?_
        rcases List.mem_or_eq_of_mem_set hmem with hmem | rfl
        · exact distinctKeys_array.mp hd v hmem
        · exact hv
      · simp at h
    | _ => simp [Json.put?, setIndex?] at h

theorem DistinctKeys.remove? {doc changed : Json} {a : Accessor} (hd : doc.DistinctKeys)
    (h : doc.remove? a = some changed) : changed.DistinctKeys := by
  cases a with
  | key name =>
    cases doc with
    | object members =>
      simp only [Json.remove?, removeKey?] at h
      split at h
      · rw [← Option.some.inj h]
        have hsub := erase_sublist name members
        obtain ⟨hn, hall⟩ := distinctKeys_object.mp hd
        exact distinctKeys_object.mpr
          ⟨hn.sublist (hsub.map Prod.fst), fun p hp => hall p (hsub.subset hp)⟩
      · simp at h
    | _ => simp [Json.remove?, removeKey?] at h
  | index i =>
    cases doc with
    | array items =>
      simp only [Json.remove?, removeIndex?] at h
      split at h
      · rw [← Option.some.inj h]
        exact distinctKeys_array.mpr fun v hmem =>
          distinctKeys_array.mp hd v ((List.eraseIdx_sublist items i).subset hmem)
      · simp at h
    | _ => simp [Json.remove?, removeIndex?] at h

theorem DistinctKeys.updateAt? {doc changed : Json} {l : Location} {f : Json → Option Json}
    (hd : doc.DistinctKeys)
    (hf : ∀ v w, v.DistinctKeys → f v = some w → w.DistinctKeys)
    (h : doc.updateAt? l f = some changed) : changed.DistinctKeys := by
  induction l generalizing doc changed with
  | nil => exact hf _ _ hd h
  | cons a l ih =>
    obtain ⟨child, hc, h⟩ := Option.bind_eq_some_iff.mp h
    obtain ⟨new, hn, h⟩ := Option.bind_eq_some_iff.mp h
    exact hd.put? (ih (hd.of_get? hc) hn) h

end Json
end PathQuery
